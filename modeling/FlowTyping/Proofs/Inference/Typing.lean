import FlowTyping.Proofs.Inference.Resolving

/-
  Typing expressions keeps a run sound

  One lemma for each helper and, by induction on the expression, for the nodes
  of expressions. Along with its node an expression gets nodes for all instance
  variables that it assigns. So typing with any bound on nested bodies is sound
  (`typerWithin_sound`).
-/
namespace FlowTyping

open Catalog

variable {typer : Typer} {stage : Stage} {due : List Task} {r : Run} {s : Typing} {ctx : Context}
  {active : List Frame} {n d : Node} {place : Place} {mark : Mark}

/-! ## Constants and paths -/

theorem keeps_putConstant (t : Ty) (hn : r.Valid n) :
    (running stage).Keeps r
      (modify fun r => { r with constantNodes := r.constantNodes.put t n } : RunM Unit)
      fun _ _ => True :=
  .modify' (fun hr => ⟨(hr.putConstant t hn).1, (hr.putConstant t hn).2, trivial⟩) (.of_sites rfl)

theorem keeps_constantNode (htyper : typer.Sound) (t : Ty) :
    (running ⟨due, active, none⟩).Keeps r (RunM.constantNode typer active t) fun n r' => r'.Valid n := by
  unfold RunM.constantNode
  refine .of_good fun hr => .get' ?_
  split
  · next n hknown => exact .pure' fun hr => hr.constantNodes t n hknown
  · refine keeps_catalog ?_
    split
    · next name container value hshape =>
      have hcontainer : r.catalog.Definite container := hr.store.catalog.shapes t container
        (by rw [show r.store.catalog.shape t = _ from hshape]; exact List.mem_singleton_self _)
      refine .bind' (keeps_freshNode value.place) fun n r₁ _ hl₁ hn => ?_
      refine .bind' (keeps_putConstant t hn.1) fun _ r₂ hr₂ hl₂ _ => ?_
      -- the value is typed in the namespace of the constant, with the root as `self`
      have hmain : r₂.catalog.Definite .main := hr₂.store.catalog.builtin (by decide)
      have hctx : (⟨.main, container, none, false, active⟩ : Context).Fits r₂ :=
        ⟨hmain, (hl₁.trans hl₂).toGrows.definite hcontainer, fun body hbody => by cases hbody⟩
      have hvalue : (running ⟨due, active, none⟩).Keeps r₂ (RunM.inFreshScopes
          (typer ⟨.main, container, none, false, active⟩ value)) fun v r' => r'.Valid v :=
        keeps_inFreshScopes (.mono (htyper due ⟨.empty, r₂⟩ _ value hctx) fun _ _ _ _ hv => hv.1)
      refine .bind' hvalue fun valueNode r₃ _ hl₃ hvalue => ?_
      refine .bind' (keeps_bind ((hl₂.trans hl₃).bindable hn) hvalue) fun _ r₄ _ hl₄ _ => ?_
      exact .pure' fun _ => (hl₂.trans (hl₃.trans hl₄)).toGrows.valid hn.1
    · exact keeps_fail (.notConstant _)

theorem keeps_newConstant (hctx : ctx.Fits r) (name : String) (value : Expr) :
    (running stage).Keeps r
      (modifyGet fun r => (r.catalog.newConstant name value ctx.home).map id r.withCatalog : RunM Ty)
      fun _ _ => True :=
  .modifyGet' (fun hr => by
    obtain ⟨hr₁, hl₁⟩ := hr.withCatalog (Sound.newConstant_extends r.catalog name value ctx.home)
      (hr.store.catalog.declares_newConstant name value hctx.home).sound
      (.newConstant r.catalog name value ctx.home)
    exact ⟨hr₁, hl₁, trivial⟩) (.of_sites rfl)

theorem keeps_constantFor (htyper : typer.Sound) (hctx : ctx.Fits r) (name : String)
    (value : Expr) :
    (running (ctx.stage due)).Keeps r (RunM.constantFor typer ctx name value) fun n r' => r'.Valid n := by
  unfold RunM.constantFor
  refine keeps_catalog ?_
  split
  · next known _ => exact .pure_bind' (keeps_constantNode htyper known)
  · exact .bind' (keeps_newConstant hctx name value) fun t _ _ _ _ => keeps_constantNode htyper t

theorem keeps_pathNode (htyper : typer.Sound) (path : List String)
    (place : Place) :
    (running (ctx.stage due)).Keeps r (RunM.pathNode typer ctx path place) fun n r' => r'.Valid n := by
  unfold RunM.pathNode
  refine keeps_catalog (.bind' (keeps_ofExcept fun e he =>
    Run.stops_of_mistake (mistake_of_lookUp he)) fun t r₁ _ hl₁ ht => ?_)
  obtain ⟨rfl, ht⟩ := ht
  split
  · exact keeps_constantNode htyper t
  · split
    · next metaclass hmetaclass =>
      exact .mono (keeps_sharedNode (definite_of_metaclass? hmetaclass)) fun _ _ _ _ h => h.2.1
    · exact keeps_fail (.unresolved _ _ _)

/-! ## Slots, joins and arrays -/

theorem keeps_readSlot (owner : Ty) (name : String) (place : Place) :
    (running stage).Keeps r (RunM.readSlot owner name place) fun n r' => r'.Valid n := by
  have hread : (running stage).Keeps r
      (modify fun r => { r with slotReads := r.slotReads.push ⟨owner, name, place⟩ } : RunM Unit)
      fun _ _ => True :=
    .modify' (fun hr => by
      have hsame : Run.Sound stage.due { r with slotReads := r.slotReads.push ⟨owner, name, place⟩ } ∧
          r.Leads { r with slotReads := r.slotReads.push ⟨owner, name, place⟩ } :=
        hr.congr rfl rfl rfl rfl rfl rfl rfl rfl
      exact ⟨hsame.1, hsame.2, trivial⟩) (.of_sites rfl)
  exact .bind' hread fun _ _ _ _ _ => .mono (keeps_slotNode owner name) fun _ _ _ _ h => h.1.1

theorem keeps_bindEach {ds : List Node} (hn : r.Bindable n) (hds : ∀ d ∈ ds, r.Valid d) :
    (running stage).Keeps r (ds.forM (RunM.bind n)) fun _ _ => True := by
  induction ds generalizing r with
  | nil => exact .pure' fun _ => trivial
  | cons d ds ih =>
    show (running stage).Keeps r (RunM.bind n d >>= fun _ => ds.forM (RunM.bind n)) _
    refine .bind' (keeps_bind hn (hds d List.mem_cons_self)) fun _ r₁ _ hl₁ _ => ?_
    exact ih (hl₁.bindable hn) fun e he => hl₁.toGrows.valid (hds e (List.mem_cons_of_mem d he))

theorem keeps_joinNode {ds : List Node} (hds : ∀ d ∈ ds, r.Valid d) :
    (running stage).Keeps r (RunM.joinNode place ds) fun n r' => r'.Valid n := by
  refine .bind' (keeps_freshNode place) fun n r₁ _ hl₁ hn => ?_
  refine .bind' (keeps_bindEach hn fun d hd => hl₁.toGrows.valid (hds d hd)) fun _ r₂ _ hl₂ _ => ?_
  exact .pure' fun _ => hl₂.toGrows.valid hn.1

/-- A generic value on a new node. -/
theorem keeps_newHolder {template : Ty} {observed : List (String × Node)}
    (htemplate : r.catalog.Template template) (hobserved : ∀ b ∈ observed, r.Valid b.2) :
    (running stage).Keeps r (do
      let holder ← RunM.freshNode place
      discard (RunM.onStore (Store.install template observed holder))
      pure holder) fun n r' => r'.Valid n := by
  intro hr
  obtain ⟨q, s, hinstall⟩ := Store.exists_install (s := (r.freshNode .plain place).2.store)
    htemplate.templateOf_eq observed (r.freshNode .plain place).1
  refine Discipline.Keeps.of_ok ?_ (hr.installFresh htemplate.definite hobserved hinstall)
    (.of_sites rfl) hr
  exact Steps.bind_ok.mpr ⟨_, _, Steps.modifyGet_ok.mpr ⟨rfl, rfl⟩, Steps.bind_ok.mpr ⟨.unit, _,
    Steps.discard_ok.mpr ⟨q, onStore_ok.mpr ⟨s, hinstall, rfl⟩⟩, rfl⟩⟩

theorem keeps_arrayNode {element : Node} (helement : r.Valid element) :
    (running stage).Keeps r (RunM.arrayNode place element) fun n r' => r'.Valid n := by
  refine .bind' (keeps_freshAddress place) fun buffer r₁ _ hl₁ hbuffer => ?_
  refine .bind' (keeps_bindReady hbuffer (hl₁.toGrows.valid helement)) fun _ r₂ hr₂ hl₂ _ => ?_
  refine keeps_newHolder hr₂.array fun b hb => ?_
  obtain rfl := List.mem_singleton.mp hb
  exact hl₂.toGrows.valid hbuffer.valid

theorem keeps_bindBlock {parameters arguments : List Node}
    (hparameters : ∀ n ∈ parameters, r.Bindable n) (harguments : ∀ n ∈ arguments, r.Valid n) :
    (running stage).Keeps r (RunM.bindBlock parameters arguments) fun _ _ => True := by
  induction parameters generalizing r arguments with
  | nil => exact .pure' fun _ => trivial
  | cons parameter parameters ih =>
    -- the value is the next argument or `nil`
    have rest : ∀ (value : Node) (r₁ : Run), r.Leads r₁ → r₁.Valid value →
        (running stage).Keeps r₁ (do
          RunM.bind parameter value
          RunM.bindBlock parameters arguments.tail) fun _ _ => True := by
      intro value r₁ hl₁ hvalue
      refine .bind' (keeps_bind (hl₁.bindable (hparameters parameter List.mem_cons_self)) hvalue)
        fun _ r₂ _ hl₂ _ => ?_
      have hl := hl₁.trans hl₂
      exact ih (fun n hn => hl.bindable (hparameters n (List.mem_cons_of_mem _ hn)))
        fun n hn => hl.toGrows.valid (harguments n (List.mem_of_mem_tail hn))
    unfold RunM.bindBlock
    cases arguments with
    | nil => exact .bind' keeps_sharedNil fun value r₁ _ hl₁ hvalue => rest value r₁ hl₁ hvalue
    | cons n arguments =>
      exact .of_good fun hr => .pure_bind'
        (rest n r (.refl hr.store hr.balanced) (harguments n List.mem_cons_self))

/-! ## Local variables -/

theorem keeps_readVariable (name : String) (place : Place) :
    (typing stage).Keeps s (TypingM.readVariable name place) fun n s' => s'.run.Valid n := by
  unfold TypingM.readVariable
  refine .get' ?_
  split
  · next n hn => exact .pure' fun hs => (hs.scopes.find hn).1
  · exact keeps_liftFail (.unresolved _ _ _)

theorem keeps_writtenVariable (name : String) :
    (typing stage).Keeps s (TypingM.writtenVariable name) fun n s' => s'.run.Bindable n := by
  unfold TypingM.writtenVariable
  refine .get' ?_
  split
  · next n hn => exact .pure' fun hs => hs.scopes.find hn
  · refine .bind' (keeps_lift (keeps_freshNode .synthesized)) fun n s₁ _ _ hn => ?_
    refine .bind' (keeps_define hn) fun _ s₂ _ hl₂ _ => ?_
    exact .pure' fun _ => hl₂.bindable hn

/-- The instance variables among targets. -/
def slotNames : List Target → List String :=
  List.filterMap fun
    | .slot name => some name
    | _ => none

theorem keeps_assign {target : Target} (hn : s.run.Valid n) :
    (typing stage).Keeps s (TypingM.assign ctx target n) fun _ s' =>
      s'.run.Slotted ctx.receiver (slotNames [target]) := by
  unfold TypingM.assign
  cases target with
  | localVar name =>
    refine .bind' (keeps_writtenVariable name) fun var s₁ _ hl₁ hvar => ?_
    exact .mono (keeps_lift (keeps_bind hvar (hl₁.toGrows.valid hn)))
      fun _ _ _ _ _ name hname => by cases hname
  | slot name =>
    refine .bind' (keeps_lift (keeps_slotNode ctx.receiver name)) fun slot s₁ _ hl₁ hslot => ?_
    refine .mono (keeps_lift (keeps_bind hslot.1 (hl₁.toGrows.valid hn))) fun _ s₂ _ hl₂ _ => ?_
    intro other hother
    obtain rfl : other = name := by simpa [slotNames] using hother
    exact ⟨slot, hl₂.toGrows.slotNodes _ _ hslot.2⟩
  | constant name => exact .pure' fun _ name hname => by cases hname

theorem slotted_append {owner : Ty} {names names' : List String} (h : r.Slotted owner names)
    (h' : r.Slotted owner names') : r.Slotted owner (names ++ names') := by
  intro name hname
  rcases List.mem_append.mp hname with hname | hname
  · exact h name hname
  · exact h' name hname

theorem slotted_nil {owner : Ty} : r.Slotted owner [] := fun name hname => by cases hname

theorem slotNames_cons (target : Target) (targets : List Target) :
    slotNames (target :: targets) = slotNames [target] ++ slotNames targets := by
  cases target <;> rfl

theorem keeps_assignMissing (htyper : typer.Sound) (hctx : ctx.Fits s.run)
    (targets : List Target) :
    (typing (ctx.stage due)).Keeps s (TypingM.assignMissing typer ctx mark targets) fun _ s' =>
      s'.run.Slotted ctx.receiver (slotNames targets) := by
  induction targets generalizing s with
  | nil => exact .pure' fun _ => slotted_nil
  | cons target targets ih =>
    -- what is done for a target that is no constant
    have assigned : ∀ target : Target, (typing (ctx.stage due)).Keeps s (do
        TypingM.assign ctx target (← RunM.sharedNil)
        TypingM.assignMissing typer ctx mark targets) fun _ s' =>
          s'.run.Slotted ctx.receiver (slotNames (target :: targets)) := by
      intro target
      refine .bind' (keeps_lift keeps_sharedNil) fun value s₁ _ hl₁ hvalue => ?_
      refine .bind' (keeps_assign hvalue) fun _ s₂ _ hl₂ hslot => ?_
      refine .mono (ih ((hl₁.trans hl₂).contextFits hctx)) fun _ s₃ _ hl₃ hrest => ?_
      rw [slotNames_cons]
      exact slotted_append (hl₃.toGrows.slotted hslot) hrest
    cases target with
    | constant name =>
      have hconstant : (typing (ctx.stage due)).Keeps s
          (discard (RunM.constantFor typer ctx name (.missing mark)) : TypingM Unit)
          fun _ _ => True :=
        .discard' (keeps_lift (keeps_constantFor htyper hctx name (.missing mark)))
          fun _ _ _ _ _ => trivial
      exact .bind' hconstant fun _ s₁ _ hl₁ _ => ih (hl₁.contextFits hctx)
    | localVar name => exact assigned (.localVar name)
    | slot name => exact assigned (.slot name)

theorem keeps_blockParameters (names : List String) :
    (typing stage).Keeps s (TypingM.blockParameters place names) fun ns s' =>
      ∀ n ∈ ns, s'.run.Bindable n := by
  induction names generalizing s with
  | nil => exact .pure' fun _ n hn => by cases hn
  | cons name names ih =>
    refine .bind' (keeps_lift (keeps_freshNode place)) fun n s₁ _ _ hn => ?_
    refine .bind' (keeps_define hn) fun _ s₂ _ hl₂ _ => ?_
    refine .bind' ih fun ns s₃ _ hl₃ hns => .pure' fun _ m hm => ?_
    rcases List.mem_cons.mp hm with rfl | hm
    · exact (hl₂.trans hl₃).bindable hn
    · exact hns m hm

/-! ## Results and declarations -/

theorem keeps_record {names : List String} (hn : s.run.Valid n)
    (hslots : s.run.Slotted ctx.receiver names) :
    (typing stage).Keeps s (TypingM.record ctx mark n) fun n s' =>
      s'.run.Valid n ∧ s'.run.Slotted ctx.receiver names := by
  have hkept : (typing stage).Keeps s (modify fun s =>
      { s with run := { s.run with recorded := s.run.recorded.put mark.id n } } : TypingM Unit)
      fun _ _ => True :=
    .modify' (fun hs => by
      have hsame : Run.Sound stage.due { s.run with recorded := s.run.recorded.put mark.id n } ∧
          s.run.Leads { s.run with recorded := s.run.recorded.put mark.id n } :=
        hs.run.congr rfl rfl rfl rfl rfl rfl rfl rfl
      exact ⟨⟨hsame.1, hs.scopes.leads hsame.2⟩, hsame.2, trivial⟩) (Run.Nests.of_sites rfl)
  unfold TypingM.record
  split
  · refine .bind' hkept fun _ s₁ _ hl₁ _ => .pure' fun _ => ?_
    exact ⟨hl₁.toGrows.valid hn, hl₁.toGrows.slotted hslots⟩
  · exact .pure' fun _ => ⟨hn, hslots⟩

theorem keeps_inDeclaration (name : String)
    {typeBody : Context → TypingM Node}
    (h : ∀ inner (s' : Typing), inner.Fits s'.run →
      (typing (inner.stage due)).Keeps s' (typeBody inner) fun _ _ => True) :
    (typing (ctx.stage due)).Keeps s (TypingM.inDeclaration ctx name typeBody) fun n s' => s'.run.Valid n := by
  unfold TypingM.inDeclaration
  refine .of_good fun hs => keeps_liftCatalog ?_
  refine .bind' (keeps_lift (keeps_ofExcept fun e he =>
    Run.stops_of_mistake (mistake_of_declared he))) fun t s₁ hs₁ hl₁ ht => ?_
  obtain ⟨heq, ht⟩ := ht
  have hdefinite : s₁.run.catalog.Definite t :=
    hl₁.toGrows.definite (hs.run.store.catalog.declared ht)
  have hinner : (TypingM.declarationContext ctx s.run.catalog t).Fits s₁.run := by
    refine ⟨?_, hdefinite, fun body hbody => by cases hbody⟩
    show s₁.run.catalog.Definite ((s.run.catalog.metaclass? t).getD t)
    cases hmetaclass : s.run.catalog.metaclass? t with
    | some metaclass => exact hl₁.toGrows.definite (definite_of_metaclass? hmetaclass)
    | none => exact hdefinite
  have hbody : (running (ctx.stage due)).Keeps s₁.run (RunM.inFreshScopes
      (typeBody (TypingM.declarationContext ctx s.run.catalog t))) fun _ _ => True :=
    keeps_inFreshScopes (h _ ⟨.empty, s₁.run⟩ hinner)
  exact .bind' (keeps_lift hbody) fun _ s₂ _ _ _ => keeps_lift keeps_sharedNil

/-! ## Expressions -/

/-- An expression whose parts have been typed gets its node. -/
theorem keeps_recorded {x : TypingM Node} {names : List String}
    (hx : (typing stage).Keeps s x fun n s' => s'.run.Valid n ∧ s'.run.Slotted ctx.receiver names) :
    (typing stage).Keeps s (x >>= TypingM.record ctx mark) fun n s' =>
      s'.run.Valid n ∧ s'.run.Slotted ctx.receiver names :=
  .bind' hx fun _ _ _ _ h => keeps_record h.1 h.2

/-- An expression without parts. -/
theorem keeps_leaf {x : TypingM Node}
    (hx : (typing stage).Keeps s x fun n s' => s'.run.Valid n) :
    (typing stage).Keeps s (x >>= TypingM.record ctx mark) fun n s' =>
      s'.run.Valid n ∧ s'.run.Slotted ctx.receiver [] :=
  keeps_recorded (.mono hx fun _ _ _ _ h => ⟨h, slotted_nil⟩)

theorem keeps_nil : (typing stage).Keeps s (Typing.lift RunM.sharedNil) fun n s' => s'.run.Valid n :=
  keeps_lift keeps_sharedNil

/-- The value of an expression is assigned to a target that is no constant. -/
theorem keeps_assignment {x : TypingM Node} {names : List String} {target : Target}
    (hx : (typing stage).Keeps s x fun n s' => s'.run.Valid n ∧ s'.run.Slotted ctx.receiver names) :
    (typing stage).Keeps s (do
      let n ← x
      TypingM.assign ctx target n
      TypingM.record ctx mark n) fun n s' =>
        s'.run.Valid n ∧ s'.run.Slotted ctx.receiver (names ++ slotNames [target]) := by
  refine .bind' hx fun n s₁ _ hl₁ hn => ?_
  refine .bind' (keeps_assign hn.1) fun _ s₂ _ hl₂ hslot => ?_
  exact keeps_record (hl₂.toGrows.valid hn.1) (slotted_append (hl₂.toGrows.slotted hn.2) hslot)

/-- A new call whose receiver, arguments and block have been typed. -/
theorem keeps_newCall (htyper : typer.Sound) (hctx : ctx.Fits s.run) {name : String}
    {receiver : Option Node} {arguments : List Node} {block : Option BlockFlow}
    {names : List String} (hreceiver : ∀ n ∈ receiver, s.run.Valid n)
    (harguments : ∀ n ∈ arguments, s.run.Valid n)
    (hblock : ∀ flow, block = some flow → flow.Fits s.run)
    (hslots : s.run.Slotted ctx.receiver names) :
    (typing (ctx.stage due)).Keeps s (do
      let result ← RunM.freshNode mark.place
      RunM.enterCall typer
        ⟨name, mark.place, receiver, arguments, block, ctx.receiver, result, [], ctx.active⟩
      TypingM.record ctx mark result) fun n s' =>
        s'.run.Valid n ∧ s'.run.Slotted ctx.receiver names := by
  let call : CallSite := ⟨name, mark.place, receiver, arguments, block, ctx.receiver,
    (s.run.freshNode .plain mark.place).1, [], ctx.active⟩
  have hwatched : ∀ m ∈ call.watched, s.run.Valid m := by
    intro m hm
    rcases List.mem_append.mp hm with hm | hm
    · exact hreceiver m (Option.mem_toList.mp hm)
    · exact harguments m hm
  have hentered : (running (ctx.stage due)).Keeps s.run
      (RunM.freshNode mark.place >>= fun _ => RunM.enterCall typer call)
      fun _ r' => r'.Valid call.result :=
    keeps_enterCall htyper rfl rfl hwatched hctx.receiver hblock
  have hcall : (typing (ctx.stage due)).Keeps s
      (Typing.lift (RunM.freshNode mark.place >>= fun _ => RunM.enterCall typer call) >>= fun _ =>
        TypingM.record ctx mark call.result) fun n s' =>
        s'.run.Valid n ∧ s'.run.Slotted ctx.receiver names :=
    .bind' (keeps_lift hentered) fun _ s₁ _ hl₁ hn =>
      keeps_record hn (hl₁.toGrows.slotted hslots)
  refine .of_eq hcall ?_
  -- lifted one after the other or both at once
  show (Typing.lift (RunM.enterCall typer call) >>= fun _ =>
    TypingM.record ctx mark call.result) ⟨s.scopes, (s.run.freshNode .plain mark.place).2⟩ = _
  rw [Steps.bind_eq, Steps.bind_eq]
  rfl

/-- A `yield` whose arguments have been typed: in a block's body they are bound to its parameters. -/
theorem keeps_yielding (hctx : ctx.Fits s.run) {arguments : List Expr}
    (harguments : (typing (ctx.stage due)).Keeps s (TypingM.nodesOf typer ctx arguments) fun ns s' =>
      (∀ n ∈ ns, s'.run.Valid n) ∧
        s'.run.Slotted ctx.receiver (Expr.assignedAll arguments)) :
    (typing (ctx.stage due)).Keeps s (TypingM.nodeOf typer ctx (.yielding mark arguments)) fun n s' =>
      s'.run.Valid n ∧ s'.run.Slotted ctx.receiver (Expr.assignedAll arguments) := by
  unfold TypingM.nodeOf
  split
  · exact keeps_liftFail (.unresolved _ _ _)
  · next block hblock =>
    refine .bind' harguments fun ns s₁ _ hl₁ hns => ?_
    have hfits := hl₁.blockFits (hctx.block hblock)
    refine .bind' (keeps_lift (keeps_bindBlock hfits.parameters hns.1)) fun _ s₂ _ hl₂ _ => ?_
    have hresult : ∀ d ∈ [block.result], s₂.run.Valid d := by
      simp [hl₂.toGrows.valid hfits.result]
    exact keeps_recorded (.mono (keeps_lift (keeps_joinNode hresult))
      fun n s₃ _ hl₃ hn => ⟨hn, (hl₂.trans hl₃).toGrows.slotted hns.2⟩)

/-- A return whose value has been typed: the result of the body, if there is one, is bound to it. -/
theorem keeps_returning (hctx : ctx.Fits s.run) {value : Option Expr}
    (hvalue : (typing (ctx.stage due)).Keeps s (TypingM.nodeOrNil typer ctx value) fun n s' =>
      s'.run.Valid n ∧ s'.run.Slotted ctx.receiver (Expr.assignedOption value)) :
    (typing (ctx.stage due)).Keeps s (TypingM.nodeOf typer ctx (.returning mark value)) fun n s' =>
      s'.run.Valid n ∧ s'.run.Slotted ctx.receiver (Expr.assignedOption value) := by
  unfold TypingM.nodeOf
  refine .bind' hvalue fun n s₁ _ hl₁ hn => ?_
  -- the new node of the return itself
  have rest : ∀ s₂ : Typing, s₁.run.Leads s₂.run → (typing (ctx.stage due)).Keeps s₂
      (Typing.lift (RunM.freshNode mark.place) >>= TypingM.record ctx mark) fun n s' =>
        s'.run.Valid n ∧ s'.run.Slotted ctx.receiver (Expr.assignedOption value) :=
    fun s₂ hl₂ => keeps_recorded (.mono (keeps_lift (keeps_freshNode mark.place))
      fun _ s₃ _ hl₃ hfresh => ⟨hfresh.1, (hl₂.trans hl₃).toGrows.slotted hn.2⟩)
  split
  · next body hbody =>
    have hfits := hl₁.contextFits hctx
    exact .bind' (keeps_lift (keeps_bind (hfits.body body hbody).result hn.1))
      fun _ s₂ _ hl₂ _ => rest s₂ hl₂
  · exact .of_good fun hs₁ => rest s₁ (.refl hs₁.run.store hs₁.run.balanced)

/-- The node of an array's elements is bound to the type that the array is written with, before
`rest` goes on. -/
theorem keeps_writtenElements (hctx : ctx.Fits s.run) (hn : s.run.Bindable n) (written : TypeName)
    {rest : TypingM Node} {goal : Node → Typing → Prop}
    (hrest : ∀ s' : Typing, s.run.Leads s'.run → (typing (ctx.stage due)).Keeps s' rest goal) :
    (typing (ctx.stage due)).Keeps s (do
      let c ← RunM.catalog
      let t ← RunM.ofExcept (c.writtenType written ctx.home (some ctx.receiver) place)
      RunM.bind n (← RunM.sharedNode t)
      rest) goal := by
  refine .of_good fun hs => keeps_liftCatalog ?_
  refine .bind' (keeps_lift (keeps_ofExcept fun e he =>
    Run.stops_of_mistake (mistake_of_writtenType he))) fun t s₁ _ hl₁ ht => ?_
  have htype : s₁.run.catalog.Definite t := hl₁.toGrows.definite
    (hs.run.store.catalog.writtenType hctx.home.1
      (fun receiver h => by cases h; exact hctx.receiver) ht.2)
  refine .bind' (keeps_lift (keeps_sharedNode htype)) fun shared s₂ _ hl₂ hshared => ?_
  have hl := hl₁.trans hl₂
  exact .bind' (keeps_lift (keeps_bind (hl.bindable hn) hshared.2.1))
    fun _ s₃ _ hl₃ _ => hrest s₃ (hl.trans hl₃)

/-- An array whose elements can be typed, with their type written or not. -/
theorem keeps_array (hctx : ctx.Fits s.run) {elements : List Expr} {written : Option TypeName}
    (helements : ∀ (s' : Typing) (element : Node), ctx.Fits s'.run → s'.run.Bindable element →
      (typing (ctx.stage due)).Keeps s' (TypingM.typeElements typer ctx element elements) fun _ s'' =>
        s''.run.Slotted ctx.receiver (Expr.assignedAll elements)) :
    (typing (ctx.stage due)).Keeps s (TypingM.nodeOf typer ctx (.array mark elements written)) fun n s' =>
      s'.run.Valid n ∧ s'.run.Slotted ctx.receiver (Expr.assignedAll elements) := by
  unfold TypingM.nodeOf
  refine .bind' (keeps_lift (keeps_freshNode mark.place)) fun element s₁ _ hl₁ helement => ?_
  have hctx₁ := hl₁.contextFits hctx
  -- what follows the written type
  have rest : ∀ s₂ : Typing, s₁.run.Leads s₂.run → (typing (ctx.stage due)).Keeps s₂ (do
      TypingM.typeElements typer ctx element elements
      TypingM.record ctx mark (← RunM.arrayNode mark.place element)) fun n s' =>
        s'.run.Valid n ∧ s'.run.Slotted ctx.receiver (Expr.assignedAll elements) := by
    intro s₂ hl₂
    have helement₂ := hl₂.bindable helement
    refine .bind' (helements s₂ element (hl₂.contextFits hctx₁) helement₂) fun _ s₃ _ hl₃ hslots => ?_
    exact keeps_recorded (.mono (keeps_lift (keeps_arrayNode (hl₃.toGrows.valid helement₂.1)))
      fun _ s₄ _ hl₄ hn => ⟨hn, hl₄.toGrows.slotted hslots⟩)
  split
  · next written =>
    exact keeps_writtenElements hctx₁ helement written rest
  · exact .of_good fun hs₁ => rest s₁ (.refl hs₁.run.store hs₁.run.balanced)

mutual

theorem keeps_nodeOf {typer : Typer} {due : List Task} {s : Typing} {ctx : Context}
    (htyper : typer.Sound) (hctx : ctx.Fits s.run) (e : Expr) :
    (typing (ctx.stage due)).Keeps s (TypingM.nodeOf typer ctx e) fun n s' =>
      s'.run.Valid n ∧ s'.run.Slotted ctx.receiver e.assigned := by
  cases e with
  | literal mark kind =>
    unfold TypingM.nodeOf
    refine .of_good fun hs => keeps_leaf ?_
    have hkind : s.run.catalog.Definite kind.type :=
      hs.run.store.catalog.builtin (by cases kind <;> decide)
    exact .mono (keeps_lift (keeps_sharedNode hkind)) fun _ _ _ _ h => h.2.1
  | localVar mark name =>
    unfold TypingM.nodeOf
    exact keeps_leaf (keeps_readVariable name mark.place)
  | slot mark name =>
    unfold TypingM.nodeOf
    exact keeps_leaf (keeps_lift (keeps_readSlot ctx.receiver name mark.place))
  | self mark =>
    unfold TypingM.nodeOf
    exact keeps_leaf (.mono (keeps_lift (keeps_sharedNode hctx.receiver)) fun _ _ _ _ h => h.2.1)
  | path mark names =>
    unfold TypingM.nodeOf
    exact keeps_leaf (keeps_lift (keeps_pathNode htyper names mark.place))
  | assign mark target value =>
    cases target with
    | constant name =>
      unfold TypingM.nodeOf
      exact keeps_leaf (keeps_lift (keeps_constantFor htyper hctx name value))
    | slot name =>
      unfold TypingM.nodeOf
      exact keeps_assignment (keeps_nodeOf htyper hctx value)
    | localVar name =>
      unfold TypingM.nodeOf
      refine .mono (keeps_assignment (keeps_nodeOf htyper hctx value)) fun n s' _ _ h => ?_
      rwa [show slotNames [.localVar name] = [] from rfl, List.append_nil] at h
  | assignMany mark targets values =>
    unfold TypingM.nodeOf
    refine .bind' (keeps_assignEach htyper hctx targets values) fun _ s₁ _ _ hslots => ?_
    refine keeps_recorded (.mono keeps_nil fun n s₂ _ hl₂ hn => ⟨hn, hl₂.toGrows.slotted hslots⟩)
  | sequence mark items =>
    unfold TypingM.nodeOf
    refine .bind' (keeps_nodesOf htyper hctx items) fun ns s₁ _ _ hns => ?_
    split
    · next n hlast => exact keeps_record (hns.1 n (List.mem_of_getLast? hlast)) hns.2
    · exact keeps_recorded (.mono keeps_nil fun n s₂ _ hl₂ hn => ⟨hn, hl₂.toGrows.slotted hns.2⟩)
  | branch mark condition accepted refused =>
    unfold TypingM.nodeOf
    refine .bind' (keeps_nodeOf htyper hctx condition) fun _ s₁ _ hl₁ hc => ?_
    have hctx₁ := hl₁.contextFits hctx
    refine .bind' (keeps_nodeOf htyper hctx₁ accepted) fun a s₂ _ hl₂ ha => ?_
    refine .bind' (keeps_nodeOrNil htyper (hl₂.contextFits hctx₁) refused)
      fun b s₃ _ hl₃ hb => ?_
    have hjoined : ∀ d ∈ [a, b], s₃.run.Valid d := by
      simp [hl₃.toGrows.valid ha.1, hb.1]
    refine keeps_recorded (.mono (keeps_lift (keeps_joinNode hjoined)) fun n s₄ _ hl₄ hn => ⟨hn, ?_⟩)
    exact slotted_append (slotted_append ((hl₂.trans (hl₃.trans hl₄)).toGrows.slotted hc.2)
      ((hl₃.trans hl₄).toGrows.slotted ha.2)) (hl₄.toGrows.slotted hb.2)
  | loop mark condition body =>
    unfold TypingM.nodeOf
    refine .bind' (keeps_nodeOf htyper hctx condition) fun _ s₁ _ hl₁ hc => ?_
    refine .bind' (keeps_nodeOf htyper (hl₁.contextFits hctx) body) fun _ s₂ _ hl₂ hb => ?_
    refine keeps_recorded (.mono keeps_nil fun n s₃ _ hl₃ hn => ⟨hn, ?_⟩)
    exact slotted_append ((hl₂.trans hl₃).toGrows.slotted hc.2) (hl₃.toGrows.slotted hb.2)
  | call mark receiver name arguments block =>
    unfold TypingM.nodeOf
    refine .bind' (keeps_nodeOfOption htyper hctx receiver) fun receiver s₁ _ hl₁ hreceiver => ?_
    have hctx₁ := hl₁.contextFits hctx
    refine .bind' (keeps_nodesOf htyper hctx₁ arguments) fun arguments s₂ _ hl₂ harguments => ?_
    have hctx₂ := hl₂.contextFits hctx₁
    refine .bind' (keeps_blockOf htyper hctx₂ mark.place block) fun block s₃ _ hl₃ hblock => ?_
    refine keeps_newCall htyper (hl₃.contextFits hctx₂)
      (fun n hn => (hl₂.trans hl₃).toGrows.valid (hreceiver.1 n hn))
      (fun n hn => hl₃.toGrows.valid (harguments.1 n hn)) hblock.1 ?_
    exact slotted_append (slotted_append ((hl₂.trans hl₃).toGrows.slotted hreceiver.2)
      (hl₃.toGrows.slotted harguments.2)) hblock.2
  | yielding mark arguments => exact keeps_yielding hctx (keeps_nodesOf htyper hctx arguments)
  | returning mark value => exact keeps_returning hctx (keeps_nodeOrNil htyper hctx value)
  | array mark elements of =>
    exact keeps_array hctx fun s' element hctx' helement =>
      keeps_typeElements htyper hctx' helement elements
  | addressOf mark value =>
    unfold TypingM.nodeOf
    refine .bind' (keeps_nodeOf htyper hctx value) fun n s₁ _ _ hn => ?_
    refine .bind' (keeps_lift (keeps_freshAddress mark.place)) fun address s₂ _ hl₂ haddress => ?_
    refine .bind' (keeps_lift (keeps_bindReady haddress (hl₂.toGrows.valid hn.1)))
      fun _ s₃ _ hl₃ _ => ?_
    exact keeps_record (hl₃.toGrows.valid haddress.1) ((hl₂.trans hl₃).toGrows.slotted hn.2)
  | classDef mark name superclass generic body =>
    unfold TypingM.nodeOf
    refine keeps_leaf (keeps_inDeclaration name fun inner s' hinner => ?_)
    exact .mono (keeps_nodeOf htyper hinner body) fun _ _ _ _ _ => trivial
  | moduleDef mark name body =>
    unfold TypingM.nodeOf
    refine keeps_leaf (keeps_inDeclaration name fun inner s' hinner => ?_)
    exact .mono (keeps_nodeOf htyper hinner body) fun _ _ _ _ _ => trivial
  | methodDef mark name onMetaclass params body =>
    unfold TypingM.nodeOf
    exact keeps_leaf keeps_nil
  | recordDef mark name fields =>
    unfold TypingM.nodeOf
    exact keeps_leaf keeps_nil
  | inclusion mark names =>
    unfold TypingM.nodeOf
    exact keeps_leaf keeps_nil

theorem keeps_nodesOf {typer : Typer} {due : List Task} {s : Typing} {ctx : Context}
    (htyper : typer.Sound) (hctx : ctx.Fits s.run) (es : List Expr) :
    (typing (ctx.stage due)).Keeps s (TypingM.nodesOf typer ctx es) fun ns s' =>
      (∀ n ∈ ns, s'.run.Valid n) ∧ s'.run.Slotted ctx.receiver (Expr.assignedAll es) := by
  cases es with
  | nil => exact .pure' fun _ => ⟨fun n hn => (by cases hn), slotted_nil⟩
  | cons e rest =>
    refine .bind' (keeps_nodeOf htyper hctx e) fun n s₁ _ hl₁ hn => ?_
    refine .bind' (keeps_nodesOf htyper (hl₁.contextFits hctx) rest) fun ns s₂ _ hl₂ hns => ?_
    refine .pure' fun _ => ⟨fun m hm => ?_, slotted_append (hl₂.toGrows.slotted hn.2) hns.2⟩
    rcases List.mem_cons.mp hm with rfl | hm
    · exact hl₂.toGrows.valid hn.1
    · exact hns.1 m hm

theorem keeps_nodeOfOption {typer : Typer} {due : List Task} {s : Typing} {ctx : Context}
    (htyper : typer.Sound) (hctx : ctx.Fits s.run) (o : Option Expr) :
    (typing (ctx.stage due)).Keeps s (TypingM.nodeOfOption typer ctx o) fun n s' =>
      (∀ m ∈ n, s'.run.Valid m) ∧ s'.run.Slotted ctx.receiver (Expr.assignedOption o) := by
  cases o with
  | none => exact .pure' fun _ => ⟨fun m hm => (by cases hm), slotted_nil⟩
  | some e =>
    refine .bind' (keeps_nodeOf htyper hctx e) fun n s₁ _ hl₁ hn => ?_
    exact .pure' fun _ => ⟨fun m hm => (by cases hm; exact hn.1), hn.2⟩

theorem keeps_nodeOrNil {typer : Typer} {due : List Task} {s : Typing} {ctx : Context}
    (htyper : typer.Sound) (hctx : ctx.Fits s.run) (o : Option Expr) :
    (typing (ctx.stage due)).Keeps s (TypingM.nodeOrNil typer ctx o) fun n s' =>
      s'.run.Valid n ∧ s'.run.Slotted ctx.receiver (Expr.assignedOption o) := by
  cases o with
  | none => exact .mono keeps_nil fun _ _ _ _ h => ⟨h, slotted_nil⟩
  | some e => exact keeps_nodeOf htyper hctx e

theorem keeps_blockOf {typer : Typer} {due : List Task} {s : Typing} {ctx : Context}
    (htyper : typer.Sound) (hctx : ctx.Fits s.run) (place : Place)
    (block : Option (List String × Expr)) :
    (typing (ctx.stage due)).Keeps s (TypingM.blockOf typer ctx place block) fun b s' =>
      (∀ flow, b = some flow → flow.Fits s'.run) ∧
        s'.run.Slotted ctx.receiver (Expr.assignedBlock block) := by
  cases block with
  | none => exact .pure' fun _ => ⟨fun flow h => (by cases h), slotted_nil⟩
  | some block =>
    obtain ⟨names, body⟩ := block
    unfold TypingM.blockOf
    refine keeps_inScope (fun b r' => (∀ flow : BlockFlow, b = some flow → flow.Fits r') ∧
      r'.Slotted ctx.receiver body.assigned) ?_
    refine .bind' (keeps_blockParameters names) fun ns s₁ _ hl₁ hns => ?_
    refine .bind' (keeps_nodeOf htyper (hl₁.contextFits hctx) body) fun n s₂ _ hl₂ hn => ?_
    refine .pure' fun _ => ⟨fun flow h => ?_, hn.2⟩
    cases h
    exact ⟨fun m hm => hl₂.bindable (hns m hm), hn.1⟩

theorem keeps_typeElements {typer : Typer} {due : List Task} {s : Typing} {ctx : Context}
    {element : Node} (htyper : typer.Sound) (hctx : ctx.Fits s.run)
    (helement : s.run.Bindable element) (es : List Expr) :
    (typing (ctx.stage due)).Keeps s (TypingM.typeElements typer ctx element es) fun _ s' =>
      s'.run.Slotted ctx.receiver (Expr.assignedAll es) := by
  cases es with
  | nil => exact .pure' fun _ => slotted_nil
  | cons e rest =>
    refine .bind' (keeps_nodeOf htyper hctx e) fun n s₁ _ hl₁ hn => ?_
    refine .bind' (keeps_lift (keeps_bind (hl₁.bindable helement) hn.1)) fun _ s₂ _ hl₂ _ => ?_
    have hl := hl₁.trans hl₂
    refine .mono (keeps_typeElements htyper (hl.contextFits hctx) (hl.bindable helement) rest)
      fun _ s₃ _ hl₃ hrest => ?_
    exact slotted_append ((hl₂.trans hl₃).toGrows.slotted hn.2) hrest

theorem keeps_assignEach {typer : Typer} {due : List Task} {s : Typing} {ctx : Context}
    {mark : Mark} (htyper : typer.Sound) (hctx : ctx.Fits s.run) (targets : List Target)
    (es : List Expr) :
    (typing (ctx.stage due)).Keeps s (TypingM.assignEach typer ctx mark targets es) fun _ s' =>
      s'.run.Slotted ctx.receiver (Expr.assignedEach targets es) := by
  cases es with
  | nil =>
    unfold TypingM.assignEach Expr.assignedEach
    exact keeps_assignMissing htyper hctx targets
  | cons e rest =>
    -- what is done for a target that is no constant
    have assigned : ∀ (target : Target) (targets : List Target),
        (typing (ctx.stage due)).Keeps s (do
          let n ← TypingM.nodeOf typer ctx e
          TypingM.assign ctx target n
          TypingM.assignEach typer ctx mark targets rest) fun _ s' =>
            s'.run.Slotted ctx.receiver
              (e.assigned ++ slotNames [target] ++ Expr.assignedEach targets rest) := by
      intro target targets
      refine .bind' (keeps_nodeOf htyper hctx e) fun n s₁ _ hl₁ hn => ?_
      refine .bind' (keeps_assign hn.1) fun _ s₂ _ hl₂ hslot => ?_
      refine .mono (keeps_assignEach htyper ((hl₁.trans hl₂).contextFits hctx) targets rest)
        fun _ s₃ _ hl₃ hrest => ?_
      exact slotted_append (slotted_append ((hl₂.trans hl₃).toGrows.slotted hn.2)
        (hl₃.toGrows.slotted hslot)) hrest
    cases targets with
    | nil =>
      unfold TypingM.assignEach Expr.assignedEach
      refine .bind' (keeps_nodeOf htyper hctx e) fun _ s₁ _ hl₁ hn => ?_
      refine .mono (keeps_assignEach htyper (hl₁.contextFits hctx) [] rest)
        fun _ s₂ _ hl₂ hrest => ?_
      exact slotted_append (hl₂.toGrows.slotted hn.2) hrest
    | cons target targets =>
      cases target with
      | constant name =>
        unfold TypingM.assignEach Expr.assignedEach
        exact .bind' (keeps_lift (keeps_constantFor htyper hctx name e)) fun _ s₁ _ hl₁ _ =>
          keeps_assignEach htyper (hl₁.contextFits hctx) targets rest
      | slot name =>
        refine .mono (assigned (.slot name) targets) fun _ s' _ _ h => ?_
        rwa [List.append_assoc] at h
      | localVar name =>
        refine .mono (assigned (.localVar name) targets) fun _ s' _ _ h => ?_
        rwa [show slotNames [.localVar name] = [] from rfl, List.append_nil] at h

end

/-- Typing with a bound on the nesting of bodies and constants. -/
theorem typerWithin_sound (depth : Nat) : (TypingM.typerWithin depth).Sound := by
  induction depth with
  | zero => exact fun _ _ _ _ _ => .throw' fun _ => trivial
  | succ depth ih => exact fun _ _ _ e hctx => keeps_nodeOf ih hctx e

end FlowTyping
