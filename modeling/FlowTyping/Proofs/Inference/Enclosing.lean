import FlowTyping.Proofs.Inference.Containing

/-
  Typing keeps a run contained

  One lemma for each helper and, by induction on the expression, for the nodes
  of expressions. So typing with any bound on nested bodies keeps a run contained
  (`typerWithin_contains`), and the node that comes out is a node of the run.
-/
namespace FlowTyping

open Catalog

variable {r : Run} {s : Typing} {n d : Node} {t owner : Ty} {place : Place} {typer : Typer}
  {ctx : Context} {active : List Frame} {mark : Mark}

/-! ## Constants and paths -/

theorem lt_size_newConstant (c : Catalog) (name : String) (value : Expr) (container : Ty) :
    (c.newConstant name value container).1.index < (c.newConstant name value container).2.size := by
  simp only [Catalog.newConstant, Sound.size_enterName, size_push]
  exact Nat.lt_succ_self _

theorem contains_constantNode (htyper : typer.Contains) (ht : t.index < r.catalog.size) :
    containing.Keeps r (RunM.constantNode typer active t) fun n r' => n.index < r'.graph.size := by
  unfold RunM.constantNode
  refine .get' ?_
  split
  · next n hknown =>
    refine .pure' fun hr => ?_
    exact hr.entries (.constantNode t n) (Table.mem_of_get? hknown) (.node n) (by simp [Entry.handles])
  · refine contains_catalog (.of_good fun hr => ?_)
    split
    · next name container value hshape =>
      have hcontainer : container.index < r.catalog.size := hr.catalog.lt_of_types (t := t) (by
        rw [hshape]
        exact List.mem_singleton_self _)
      refine .bind' (contains_freshNode value.place) fun n r₁ _ hl₁ hn => ?_
      refine .bind' (contains_enter (.constantNode t n) fun _ => ?_) fun _ r₂ hr₂ hl₂ _ => ?_
      · simpa [Entry.handles] using ⟨hl₁.type ht, hn⟩
      have hctx : r₂.arenas.Stores (⟨.main, container, none, false, active⟩ : Context).handles := by
        simpa [Context.handles] using ⟨hr₂.builtin (by decide), (hl₁.trans hl₂).type hcontainer⟩
      have hvalue : containing.Keeps r₂ (RunM.inFreshScopes
          (typer ⟨.main, container, none, false, active⟩ value)) fun v r' => v.index < r'.graph.size :=
        contains_inFreshScopes (htyper ⟨.empty, r₂⟩ _ value hctx)
      refine .bind' hvalue fun v r₃ _ hl₃ hv => ?_
      have hl₂₃ := hl₂.trans hl₃
      refine .bind' (contains_bind (hl₂₃.node hn) hv) fun _ r₄ _ hl₄ _ => ?_
      exact .pure' fun _ => (hl₂₃.trans hl₄).node hn
    · exact contains_fail

theorem contains_constantFor (htyper : typer.Contains) (hctx : r.arenas.Stores ctx.handles)
    (name : String) (value : Expr) :
    containing.Keeps r (RunM.constantFor typer ctx name value) fun n r' => n.index < r'.graph.size := by
  obtain ⟨-, hhome, -⟩ := stores_context.mp hctx
  unfold RunM.constantFor
  refine contains_catalog (.of_good fun hr => ?_)
  split
  · next known hknown =>
    exact .pure_bind' (contains_constantNode htyper (hr.catalog.lt_of_nestedType hknown))
  · have hdeclared : containing.Keeps r (modifyGet fun r =>
        (r.catalog.newConstant name value ctx.home).map id r.withCatalog : RunM Ty)
        fun t r' => t.index < r'.catalog.size :=
      contains_modifyGet fun hr => ⟨hr.proceeds_request (.constant name value ctx.home)
        fun u hu => List.mem_singleton.mp hu ▸ hhome, lt_size_newConstant r.catalog name value _⟩
    exact .bind' hdeclared fun t r₁ _ _ ht => contains_constantNode htyper ht

theorem contains_pathNode (htyper : typer.Contains) (hctx : r.arenas.Stores ctx.handles)
    (path : List String) (place : Place) :
    containing.Keeps r (RunM.pathNode typer ctx path place) fun n r' => n.index < r'.graph.size := by
  unfold RunM.pathNode
  refine contains_catalog (.bind' (contains_ofExcept _) fun t r₁ hr₁ _ ht => ?_)
  obtain ⟨rfl, ht⟩ := ht
  have ht := hr₁.catalog.lt_of_lookUp (Nat.le_refl _) (stores_context.mp hctx).2.1 ht
  split
  · exact contains_constantNode htyper ht
  · split
    · next metaclass hmetaclass =>
      exact contains_sharedNode (Within.lt_of_metaclass? (a := r.arenas) (Nat.le_refl _) hmetaclass)
    · exact contains_fail

/-! ## Slots, joins and arrays -/

theorem contains_readSlot (howner : owner.index < r.catalog.size) (name : String) (place : Place) :
    containing.Keeps r (RunM.readSlot owner name place) fun n r' => n.index < r'.graph.size := by
  refine .bind' (contains_enter (.slotRead ⟨owner, name, place⟩) fun _ => ?_) fun _ r₁ _ hl₁ _ => ?_
  · simpa [Entry.handles] using howner
  · exact contains_slotNode (hl₁.type howner) name

theorem contains_bindEach {ds : List Node} (hn : n.index < r.graph.size)
    (hds : ∀ d ∈ ds, d.index < r.graph.size) :
    containing.Keeps r (ds.forM (RunM.bind n)) fun _ _ => True := by
  induction ds generalizing r with
  | nil => exact .pure' fun _ => trivial
  | cons d ds ih =>
    show containing.Keeps r (RunM.bind n d >>= fun _ => ds.forM (RunM.bind n)) _
    refine .bind' (contains_bind hn (hds d List.mem_cons_self)) fun _ r₁ _ hl₁ _ => ?_
    exact ih (hl₁.node hn) fun e he => hl₁.node (hds e (List.mem_cons_of_mem d he))

theorem contains_joinNode {ds : List Node} (hds : ∀ d ∈ ds, d.index < r.graph.size) :
    containing.Keeps r (RunM.joinNode place ds) fun n r' => n.index < r'.graph.size := by
  refine .bind' (contains_freshNode place) fun n r₁ _ hl₁ hn => ?_
  refine .bind' (contains_bindEach hn fun d hd => hl₁.node (hds d hd)) fun _ r₂ _ hl₂ _ => ?_
  exact .pure' fun _ => hl₂.node hn

theorem contains_arrayNode {element : Node} (helement : element.index < r.graph.size) :
    containing.Keeps r (RunM.arrayNode place element) fun n r' => n.index < r'.graph.size := by
  refine .bind' (contains_freshAddress place) fun buffer r₁ _ hl₁ hbuffer => ?_
  refine .bind' (contains_bind hbuffer (hl₁.node helement)) fun _ r₂ hr₂ hl₂ _ => ?_
  refine .bind' (contains_freshNode place) fun holder r₃ _ hl₃ hholder => ?_
  have hinstalled : containing.Keeps r₃ (discard
      (RunM.onStore (Store.install .array [("@buffer", buffer)] holder)) : RunM Unit)
      fun _ _ => True := by
    refine .discard' (contains_install (hl₃.type (hr₂.builtin (by decide))) (fun _ b hb => ?_)
      hholder) fun _ _ _ _ _ => trivial
    obtain rfl := List.mem_singleton.mp hb
    exact (hl₂.trans hl₃).node hbuffer
  exact .bind' hinstalled fun _ r₄ _ hl₄ _ => .pure' fun _ => hl₄.node hholder

theorem contains_bindBlock {parameters arguments : List Node}
    (hparameters : ∀ n ∈ parameters, n.index < r.graph.size)
    (harguments : ∀ n ∈ arguments, n.index < r.graph.size) :
    containing.Keeps r (RunM.bindBlock parameters arguments) fun _ _ => True := by
  induction parameters generalizing r arguments with
  | nil => exact .pure' fun _ => trivial
  | cons parameter parameters ih =>
    -- the value is the next argument or `nil`
    have rest : ∀ (value : Node) (r₁ : Run), r.Proceeds r₁ → value.index < r₁.graph.size →
        containing.Keeps r₁ (do
          RunM.bind parameter value
          RunM.bindBlock parameters arguments.tail) fun _ _ => True := by
      intro value r₁ hl₁ hvalue
      refine .bind' (contains_bind (hl₁.node (hparameters parameter List.mem_cons_self)) hvalue)
        fun _ r₂ _ hl₂ _ => ?_
      have hl := hl₁.trans hl₂
      exact ih (fun n hn => hl.node (hparameters n (List.mem_cons_of_mem _ hn)))
        fun n hn => hl.node (harguments n (List.mem_of_mem_tail hn))
    unfold RunM.bindBlock
    cases arguments with
    | nil => exact .bind' contains_sharedNil fun value r₁ _ hl₁ hvalue => rest value r₁ hl₁ hvalue
    | cons n arguments =>
      exact .of_good fun hr => .pure_bind' (rest n r (.refl hr) (harguments n List.mem_cons_self))

/-! ## Local variables -/

theorem encloses_readVariable (name : String) (place : Place) :
    enclosing.Keeps s (TypingM.readVariable name place) fun n s' => n.index < s'.run.graph.size := by
  unfold TypingM.readVariable
  refine .get' ?_
  split
  · next n hn => exact .pure' fun hs => Scopes.lt_of_find hs.scopes hn
  · exact encloses_fail

theorem encloses_writtenVariable (name : String) :
    enclosing.Keeps s (TypingM.writtenVariable name) fun n s' => n.index < s'.run.graph.size := by
  unfold TypingM.writtenVariable
  refine .get' ?_
  split
  · next n hn => exact .pure' fun hs => Scopes.lt_of_find hs.scopes hn
  · refine .bind' (encloses_lift (contains_freshNode .synthesized)) fun n s₁ _ _ hn => ?_
    refine .bind' (encloses_define name hn) fun _ s₂ _ hl₂ _ => ?_
    exact .pure' fun _ => hl₂.run.node hn

theorem encloses_assign {target : Target} (hctx : s.run.arenas.Stores ctx.handles)
    (hn : n.index < s.run.graph.size) :
    enclosing.Keeps s (TypingM.assign ctx target n) fun _ _ => True := by
  unfold TypingM.assign
  cases target with
  | localVar name =>
    refine .bind' (encloses_writtenVariable name) fun var s₁ _ hl₁ hvar => ?_
    exact encloses_lift (contains_bind hvar (hl₁.run.node hn))
  | slot name =>
    refine .bind' (encloses_lift (contains_slotNode (stores_context.mp hctx).1 name))
      fun slot s₁ _ hl₁ hslot => ?_
    exact encloses_lift (contains_bind hslot (hl₁.run.node hn))
  | constant name => exact .pure' fun _ => trivial

theorem encloses_nil :
    enclosing.Keeps s (Typing.lift RunM.sharedNil) fun n s' => n.index < s'.run.graph.size :=
  encloses_lift contains_sharedNil

theorem encloses_assignMissing (htyper : typer.Contains) (hctx : s.run.arenas.Stores ctx.handles)
    (targets : List Target) :
    enclosing.Keeps s (TypingM.assignMissing typer ctx mark targets) fun _ _ => True := by
  induction targets generalizing s with
  | nil => exact .pure' fun _ => trivial
  | cons target targets ih =>
    -- what is done for a target that is no constant
    have assigned : ∀ target : Target, enclosing.Keeps s (do
        TypingM.assign ctx target (← RunM.sharedNil)
        TypingM.assignMissing typer ctx mark targets) fun _ _ => True := by
      intro target
      refine .bind' encloses_nil fun value s₁ _ hl₁ hvalue => ?_
      have hctx₁ := hctx.mono hl₁.run.grown
      refine .bind' (encloses_assign hctx₁ hvalue) fun _ s₂ _ hl₂ _ => ?_
      exact ih (hctx₁.mono hl₂.run.grown)
    cases target with
    | constant name =>
      have hconstant : enclosing.Keeps s
          (discard (RunM.constantFor typer ctx name (.missing mark)) : TypingM Unit)
          fun _ _ => True :=
        .discard' (encloses_lift (contains_constantFor htyper hctx name (.missing mark)))
          fun _ _ _ _ _ => trivial
      exact .bind' hconstant fun _ s₁ _ hl₁ _ => ih (hctx.mono hl₁.run.grown)
    | localVar name => exact assigned (.localVar name)
    | slot name => exact assigned (.slot name)

theorem encloses_blockParameters (names : List String) :
    enclosing.Keeps s (TypingM.blockParameters place names) fun ns s' =>
      ∀ n ∈ ns, n.index < s'.run.graph.size := by
  induction names generalizing s with
  | nil => exact .pure' fun _ n hn => by cases hn
  | cons name names ih =>
    refine .bind' (encloses_lift (contains_freshNode place)) fun n s₁ _ _ hn => ?_
    refine .bind' (encloses_define name hn) fun _ s₂ _ hl₂ _ => ?_
    refine .bind' ih fun ns s₃ _ hl₃ hns => .pure' fun _ m hm => ?_
    rcases List.mem_cons.mp hm with rfl | hm
    · exact hl₃.run.node (hl₂.run.node hn)
    · exact hns m hm

/-! ## Results and declarations -/

theorem encloses_record (hn : n.index < s.run.graph.size) :
    enclosing.Keeps s (TypingM.record ctx mark n) fun n s' => n.index < s'.run.graph.size := by
  have hentered : s.Contained →
      s.Proceeds { s with run := { s.run with recorded := s.run.recorded.put mark.id n } } := by
    intro hs
    have hrun := hs.run.proceeds_enter (.recorded mark.id n) (by simpa [Entry.handles] using hn)
    exact ⟨⟨hrun.contained, hs.scopes.mono hrun.grown⟩, hrun⟩
  have hrecorded : enclosing.Keeps s (modify fun s =>
      { s with run := { s.run with recorded := s.run.recorded.put mark.id n } } : TypingM Unit)
      fun _ _ => True :=
    .modify' (fun hs => ⟨(hentered hs).contained, hentered hs, trivial⟩) hentered
  unfold TypingM.record
  split
  · exact .bind' hrecorded fun _ s₁ _ hl₁ _ => .pure' fun _ => hl₁.run.node hn
  · exact .pure' fun _ => hn

theorem encloses_inDeclaration (name : String)
    {typeBody : Context → TypingM Node}
    (h : ∀ inner (s' : Typing), s'.run.arenas.Stores inner.handles →
      enclosing.Keeps s' (typeBody inner) fun _ _ => True) :
    enclosing.Keeps s (TypingM.inDeclaration ctx name typeBody) fun n s' =>
      n.index < s'.run.graph.size := by
  unfold TypingM.inDeclaration
  refine .of_good fun hs => encloses_catalog ?_
  refine .bind' (encloses_lift (contains_ofExcept _)) fun t s₁ hs₁ hl₁ ht => ?_
  obtain ⟨hsame, ht⟩ := ht
  have htype : t.index < s₁.run.catalog.size := hl₁.run.type (hs.run.catalog.lt_of_declared ht)
  have hinner : s₁.run.arenas.Stores
      (TypingM.declarationContext ctx s.run.catalog t).handles := by
    refine stores_context.mpr ⟨?_, htype, by simp [TypingM.declarationContext]⟩
    show ((s.run.catalog.metaclass? t).getD t).index < _
    cases hmetaclass : s.run.catalog.metaclass? t with
    | some metaclass =>
      exact hl₁.run.type (Within.lt_of_metaclass? (a := s.run.arenas) (Nat.le_refl _) hmetaclass)
    | none => exact htype
  have hbody : containing.Keeps s₁.run (RunM.inFreshScopes
      (typeBody (TypingM.declarationContext ctx s.run.catalog t))) fun _ _ => True :=
    contains_inFreshScopes (h _ ⟨.empty, s₁.run⟩ hinner)
  exact .bind' (encloses_lift hbody) fun _ _ _ _ _ => encloses_nil

/-! ## Expressions -/

/-- An expression whose parts have been typed gets its node. -/
theorem encloses_recorded {x : TypingM Node}
    (hx : enclosing.Keeps s x fun n s' => n.index < s'.run.graph.size) :
    enclosing.Keeps s (x >>= TypingM.record ctx mark) fun n s' => n.index < s'.run.graph.size :=
  .bind' hx fun _ _ _ _ hn => encloses_record hn

/-- The value of an expression is assigned to a target that is no constant. -/
theorem encloses_assignment {x : TypingM Node} {target : Target}
    (hctx : s.run.arenas.Stores ctx.handles)
    (hx : enclosing.Keeps s x fun n s' => n.index < s'.run.graph.size) :
    enclosing.Keeps s (do
      let n ← x
      TypingM.assign ctx target n
      TypingM.record ctx mark n) fun n s' => n.index < s'.run.graph.size := by
  refine .bind' hx fun n s₁ _ hl₁ hn => ?_
  refine .bind' (encloses_assign (hctx.mono hl₁.run.grown) hn) fun _ s₂ _ hl₂ _ => ?_
  exact encloses_record (hl₂.run.node hn)

/-- An array whose elements can be typed, with their type written or not. -/
theorem encloses_array (hctx : s.run.arenas.Stores ctx.handles) {elements : List Expr}
    {written : Option TypeName}
    (helements : ∀ (s' : Typing) (element : Node), s'.run.arenas.Stores ctx.handles →
      element.index < s'.run.graph.size →
      enclosing.Keeps s' (TypingM.typeElements typer ctx element elements) fun _ _ => True) :
    enclosing.Keeps s (TypingM.nodeOf typer ctx (.array mark elements written)) fun n s' =>
      n.index < s'.run.graph.size := by
  unfold TypingM.nodeOf
  refine .bind' (encloses_lift (contains_freshNode mark.place)) fun element s₁ _ hl₁ helement => ?_
  have hctx₁ := hctx.mono hl₁.run.grown
  -- what follows the written type
  have rest : ∀ s₂ : Typing, s₁.run.Proceeds s₂.run → enclosing.Keeps s₂ (do
      TypingM.typeElements typer ctx element elements
      TypingM.record ctx mark (← RunM.arrayNode mark.place element)) fun n s' =>
        n.index < s'.run.graph.size := by
    intro s₂ hl₂
    refine .bind' (helements s₂ element (hctx₁.mono hl₂.grown) (hl₂.node helement))
      fun _ s₃ _ hl₃ _ => ?_
    exact encloses_recorded
      (encloses_lift (contains_arrayNode ((hl₂.trans hl₃.run).node helement)))
  split
  · next written =>
    refine .of_good fun hs₁ => encloses_catalog ?_
    refine .bind' (encloses_lift (contains_ofExcept _)) fun t s₂ hs₂ hl₂ ht => ?_
    obtain ⟨hsame, ht⟩ := ht
    obtain ⟨hreceiver, hhome, -⟩ := stores_context.mp hctx₁
    have htype := hl₂.run.type (hs₁.run.catalog.lt_of_writtenType (Nat.le_refl _) hhome
      (by simpa using hreceiver) ht)
    refine .bind' (encloses_lift (contains_sharedNode htype)) fun shared s₃ _ hl₃ hshared => ?_
    have hl := hl₂.run.trans hl₃.run
    exact .bind' (encloses_lift (contains_bind (hl.node helement) hshared))
      fun _ s₄ _ hl₄ _ => rest s₄ (hl.trans hl₄.run)
  · exact .of_good fun hs₁ => rest s₁ (.refl hs₁.run)

mutual

theorem encloses_nodeOf {typer : Typer} {s : Typing} {ctx : Context} (htyper : typer.Contains)
    (hctx : s.run.arenas.Stores ctx.handles) (e : Expr) :
    enclosing.Keeps s (TypingM.nodeOf typer ctx e) fun n s' => n.index < s'.run.graph.size := by
  cases e with
  | literal mark kind =>
    unfold TypingM.nodeOf
    refine .of_good fun hs => encloses_recorded (encloses_lift (contains_sharedNode ?_))
    exact hs.run.builtin (by cases kind <;> decide)
  | localVar mark name =>
    unfold TypingM.nodeOf
    exact encloses_recorded (encloses_readVariable name mark.place)
  | slot mark name =>
    unfold TypingM.nodeOf
    exact encloses_recorded
      (encloses_lift (contains_readSlot (stores_context.mp hctx).1 name mark.place))
  | self mark =>
    unfold TypingM.nodeOf
    exact encloses_recorded (encloses_lift (contains_sharedNode (stores_context.mp hctx).1))
  | path mark names =>
    unfold TypingM.nodeOf
    exact encloses_recorded (encloses_lift (contains_pathNode htyper hctx names mark.place))
  | assign mark target value =>
    cases target with
    | constant name =>
      unfold TypingM.nodeOf
      exact encloses_recorded (encloses_lift (contains_constantFor htyper hctx name value))
    | slot name =>
      unfold TypingM.nodeOf
      exact encloses_assignment hctx (encloses_nodeOf htyper hctx value)
    | localVar name =>
      unfold TypingM.nodeOf
      exact encloses_assignment hctx (encloses_nodeOf htyper hctx value)
  | assignMany mark targets values =>
    unfold TypingM.nodeOf
    exact .bind' (encloses_assignEach htyper hctx targets values) fun _ _ _ _ _ =>
      encloses_recorded encloses_nil
  | sequence mark items =>
    unfold TypingM.nodeOf
    refine .bind' (encloses_nodesOf htyper hctx items) fun ns s₁ _ _ hns => ?_
    split
    · next n hlast => exact encloses_record (hns n (List.mem_of_getLast? hlast))
    · exact encloses_recorded encloses_nil
  | branch mark condition accepted refused =>
    unfold TypingM.nodeOf
    refine .bind' (encloses_nodeOf htyper hctx condition) fun _ s₁ _ hl₁ _ => ?_
    have hctx₁ := hctx.mono hl₁.run.grown
    refine .bind' (encloses_nodeOf htyper hctx₁ accepted) fun a s₂ _ hl₂ ha => ?_
    refine .bind' (encloses_nodeOrNil htyper (hctx₁.mono hl₂.run.grown) refused)
      fun b s₃ _ hl₃ hb => ?_
    refine encloses_recorded (encloses_lift (contains_joinNode fun d hd => ?_))
    rcases List.mem_pair.mp hd with rfl | rfl
    · exact hl₃.run.node ha
    · exact hb
  | loop mark condition body =>
    unfold TypingM.nodeOf
    refine .bind' (encloses_nodeOf htyper hctx condition) fun _ s₁ _ hl₁ _ => ?_
    refine .bind' (encloses_nodeOf htyper (hctx.mono hl₁.run.grown) body) fun _ s₂ _ _ _ => ?_
    exact encloses_recorded encloses_nil
  | call mark receiver name arguments block =>
    unfold TypingM.nodeOf
    refine .bind' (encloses_nodeOfOption htyper hctx receiver) fun receiver s₁ _ hl₁ hreceiver => ?_
    have hctx₁ := hctx.mono hl₁.run.grown
    refine .bind' (encloses_nodesOf htyper hctx₁ arguments) fun arguments s₂ _ hl₂ harguments => ?_
    have hctx₂ := hctx₁.mono hl₂.run.grown
    refine .bind' (encloses_blockOf htyper hctx₂ mark.place block) fun block s₃ _ hl₃ hblock => ?_
    refine .bind' (encloses_lift (contains_freshNode mark.place)) fun result s₄ _ hl₄ hresult => ?_
    have hl₃₄ := hl₃.run.trans hl₄.run
    have hcall : s₄.run.arenas.Stores (⟨name, mark.place, receiver, arguments, block, ctx.receiver,
        result, [], ctx.active⟩ : CallSite).handles :=
      stores_call.mpr ⟨(stores_context.mp (hctx₂.mono hl₃₄.grown)).1, hresult,
        ⟨fun n hn => (hl₂.run.trans hl₃₄).node (hreceiver n hn),
          fun n hn => hl₃₄.node (harguments n hn), by simp⟩,
        fun flow hflow => (hblock flow hflow).mono hl₄.run.grown⟩
    refine .bind' (encloses_lift (contains_enterCall htyper hcall)) fun _ s₅ _ hl₅ _ => ?_
    exact encloses_record (hl₅.run.node hresult)
  | yielding mark arguments =>
    unfold TypingM.nodeOf
    split
    · exact encloses_fail
    · next block hblock =>
      obtain ⟨body, hbody, hgiven⟩ := Option.bind_eq_some_iff.mp hblock
      have hflow : s.run.arenas.Stores block.handles :=
        ((stores_context.mp hctx).2.2 body hbody).2 block hgiven
      refine .bind' (encloses_nodesOf htyper hctx arguments) fun ns s₁ _ hl₁ hns => ?_
      obtain ⟨hresult, hparameters⟩ := stores_block.mp (hflow.mono hl₁.run.grown)
      refine .bind' (encloses_lift (contains_bindBlock hparameters hns)) fun _ s₂ _ hl₂ _ => ?_
      refine encloses_recorded (encloses_lift (contains_joinNode fun d hd => ?_))
      obtain rfl := List.mem_singleton.mp hd
      exact hl₂.run.node hresult
  | returning mark value =>
    unfold TypingM.nodeOf
    refine .bind' (encloses_nodeOrNil htyper hctx value) fun n s₁ _ hl₁ hn => ?_
    -- the new node of the return itself
    have rest : ∀ s₂ : Typing, enclosing.Keeps s₂
        (Typing.lift (RunM.freshNode mark.place) >>= TypingM.record ctx mark) fun n s' =>
          n.index < s'.run.graph.size :=
      fun s₂ => encloses_recorded (encloses_lift (contains_freshNode mark.place))
    split
    · next body hbody =>
      have hresult := hl₁.run.node ((stores_context.mp hctx).2.2 body hbody).1
      exact .bind' (encloses_lift (contains_bind hresult hn)) fun _ s₂ _ _ _ => rest s₂
    · exact rest s₁
  | array mark elements of =>
    exact encloses_array hctx fun s' element hctx' helement =>
      encloses_typeElements htyper hctx' helement elements
  | addressOf mark value =>
    unfold TypingM.nodeOf
    refine .bind' (encloses_nodeOf htyper hctx value) fun n s₁ _ _ hn => ?_
    refine .bind' (encloses_lift (contains_freshAddress mark.place)) fun address s₂ _ hl₂ haddress => ?_
    refine .bind' (encloses_lift (contains_bind haddress (hl₂.run.node hn))) fun _ s₃ _ hl₃ _ => ?_
    exact encloses_record (hl₃.run.node haddress)
  | classDef mark name superclass generic body =>
    unfold TypingM.nodeOf
    refine encloses_recorded (encloses_inDeclaration name fun inner s' hinner => ?_)
    exact .mono (encloses_nodeOf htyper hinner body) fun _ _ _ _ _ => trivial
  | moduleDef mark name body =>
    unfold TypingM.nodeOf
    refine encloses_recorded (encloses_inDeclaration name fun inner s' hinner => ?_)
    exact .mono (encloses_nodeOf htyper hinner body) fun _ _ _ _ _ => trivial
  | methodDef mark name onMetaclass params body =>
    unfold TypingM.nodeOf
    exact encloses_recorded encloses_nil
  | recordDef mark name fields =>
    unfold TypingM.nodeOf
    exact encloses_recorded encloses_nil
  | inclusion mark names =>
    unfold TypingM.nodeOf
    exact encloses_recorded encloses_nil

theorem encloses_nodesOf {typer : Typer} {s : Typing} {ctx : Context} (htyper : typer.Contains)
    (hctx : s.run.arenas.Stores ctx.handles) (es : List Expr) :
    enclosing.Keeps s (TypingM.nodesOf typer ctx es) fun ns s' =>
      ∀ n ∈ ns, n.index < s'.run.graph.size := by
  cases es with
  | nil => exact .pure' fun _ n hn => by cases hn
  | cons e rest =>
    refine .bind' (encloses_nodeOf htyper hctx e) fun n s₁ _ hl₁ hn => ?_
    refine .bind' (encloses_nodesOf htyper (hctx.mono hl₁.run.grown) rest)
      fun ns s₂ _ hl₂ hns => .pure' fun _ m hm => ?_
    rcases List.mem_cons.mp hm with rfl | hm
    · exact hl₂.run.node hn
    · exact hns m hm

theorem encloses_nodeOfOption {typer : Typer} {s : Typing} {ctx : Context}
    (htyper : typer.Contains) (hctx : s.run.arenas.Stores ctx.handles) (o : Option Expr) :
    enclosing.Keeps s (TypingM.nodeOfOption typer ctx o) fun n s' =>
      ∀ m ∈ n, m.index < s'.run.graph.size := by
  cases o with
  | none => exact .pure' fun _ m hm => by cases hm
  | some e =>
    refine .bind' (encloses_nodeOf htyper hctx e) fun n s₁ _ _ hn => .pure' fun _ m hm => ?_
    cases hm
    exact hn

theorem encloses_nodeOrNil {typer : Typer} {s : Typing} {ctx : Context} (htyper : typer.Contains)
    (hctx : s.run.arenas.Stores ctx.handles) (o : Option Expr) :
    enclosing.Keeps s (TypingM.nodeOrNil typer ctx o) fun n s' => n.index < s'.run.graph.size := by
  cases o with
  | none => exact encloses_nil
  | some e => exact encloses_nodeOf htyper hctx e

theorem encloses_blockOf {typer : Typer} {s : Typing} {ctx : Context} (htyper : typer.Contains)
    (hctx : s.run.arenas.Stores ctx.handles) (place : Place)
    (block : Option (List String × Expr)) :
    enclosing.Keeps s (TypingM.blockOf typer ctx place block) fun b s' =>
      ∀ flow ∈ b, s'.run.arenas.Stores flow.handles := by
  cases block with
  | none => exact .pure' fun _ flow hflow => by cases hflow
  | some block =>
    obtain ⟨names, body⟩ := block
    unfold TypingM.blockOf
    refine encloses_inScope (fun b r' => ∀ flow : BlockFlow, flow ∈ b → r'.arenas.Stores flow.handles) ?_
    refine .bind' (encloses_blockParameters names) fun ns s₁ _ hl₁ hns => ?_
    refine .bind' (encloses_nodeOf htyper (hctx.mono hl₁.run.grown) body) fun n s₂ _ hl₂ hn => ?_
    refine .pure' fun _ flow hflow => ?_
    cases hflow
    exact stores_block.mpr ⟨hn, fun m hm => hl₂.run.node (hns m hm)⟩

theorem encloses_typeElements {typer : Typer} {s : Typing} {ctx : Context} {element : Node}
    (htyper : typer.Contains) (hctx : s.run.arenas.Stores ctx.handles)
    (helement : element.index < s.run.graph.size) (es : List Expr) :
    enclosing.Keeps s (TypingM.typeElements typer ctx element es) fun _ _ => True := by
  cases es with
  | nil => exact .pure' fun _ => trivial
  | cons e rest =>
    refine .bind' (encloses_nodeOf htyper hctx e) fun n s₁ _ hl₁ hn => ?_
    refine .bind' (encloses_lift (contains_bind (hl₁.run.node helement) hn)) fun _ s₂ _ hl₂ _ => ?_
    have hl := hl₁.run.trans hl₂.run
    exact encloses_typeElements htyper (hctx.mono hl.grown) (hl.node helement) rest

theorem encloses_assignEach {typer : Typer} {s : Typing} {ctx : Context} {mark : Mark}
    (htyper : typer.Contains) (hctx : s.run.arenas.Stores ctx.handles) (targets : List Target)
    (es : List Expr) :
    enclosing.Keeps s (TypingM.assignEach typer ctx mark targets es) fun _ _ => True := by
  cases es with
  | nil =>
    unfold TypingM.assignEach
    exact encloses_assignMissing htyper hctx targets
  | cons e rest =>
    -- what is done for a target that is no constant
    have assigned : ∀ (target : Target) (targets : List Target), enclosing.Keeps s (do
        let n ← TypingM.nodeOf typer ctx e
        TypingM.assign ctx target n
        TypingM.assignEach typer ctx mark targets rest) fun _ _ => True := by
      intro target targets
      refine .bind' (encloses_nodeOf htyper hctx e) fun n s₁ _ hl₁ hn => ?_
      have hctx₁ := hctx.mono hl₁.run.grown
      refine .bind' (encloses_assign hctx₁ hn) fun _ s₂ _ hl₂ _ => ?_
      exact encloses_assignEach htyper (hctx₁.mono hl₂.run.grown) targets rest
    cases targets with
    | nil =>
      unfold TypingM.assignEach
      refine .bind' (encloses_nodeOf htyper hctx e) fun _ s₁ _ hl₁ _ => ?_
      exact encloses_assignEach htyper (hctx.mono hl₁.run.grown) [] rest
    | cons target targets =>
      cases target with
      | constant name =>
        unfold TypingM.assignEach
        exact .bind' (encloses_lift (contains_constantFor htyper hctx name e)) fun _ s₁ _ hl₁ _ =>
          encloses_assignEach htyper (hctx.mono hl₁.run.grown) targets rest
      | slot name => exact assigned (.slot name) targets
      | localVar name => exact assigned (.localVar name) targets

end

/-- Typing with a bound on the nesting of bodies and constants. -/
theorem typerWithin_contains (depth : Nat) : (TypingM.typerWithin depth).Contains := by
  induction depth with
  | zero => exact fun _ _ _ _ => .throw' fun _ => trivial
  | succ depth ih => exact fun _ _ e hctx => encloses_nodeOf ih hctx e

end FlowTyping
