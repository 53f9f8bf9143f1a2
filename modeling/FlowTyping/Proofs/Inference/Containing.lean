import FlowTyping.Proofs.Inference.Calls
import FlowTyping.Proofs.Inference.Entries

/-
  Calls keep a run contained

  The disciplines of runs and of typing that stay contained, and the steps of
  `RunM` and `TypingM` that follow them. What a step leaves comes from what it
  began with by steps on valid handles, whether it fails or not.

  For a way to type bodies that keeps a run contained, so does everything that a
  call does (`contains_rebindCall`). The nodes that it is bound to are nodes of
  the run.
-/
namespace FlowTyping

open Catalog

/-- The nodes of local variables. -/
def Scopes.handles (s : Scopes) : List Handle :=
  (s.inner :: s.outer).flatMap fun table => table.entries.map fun entry => .node entry.2

def BodyFlow.handles (flow : BodyFlow) : List Handle :=
  .node flow.result :: flow.block.toList.flatMap BlockFlow.handles

def Context.handles (ctx : Context) : List Handle :=
  .type ctx.receiver :: .type ctx.home :: ctx.body.toList.flatMap BodyFlow.handles

namespace Typing

/-- A contained run and local variables with nodes of it. -/
structure Contained (s : Typing) : Prop where
  run : s.run.Contained
  scopes : s.run.arenas.Stores s.scopes.handles

structure Proceeds (s s' : Typing) : Prop where
  contained : s'.Contained
  run : s.run.Proceeds s'.run

end Typing

/-- The discipline of a run that stays contained. -/
def containing : Discipline Halt Run where
  Good := Run.Contained
  Leads := Run.Proceeds
  Fails _ _ _ := True
  Enters r r' := r.Contained → r.Proceeds r'
  refl _ h := .refl h
  trans _ _ _ h h' := h.trans h'
  fails _ _ _ _ _ h := h
  entersNothing _ h := .refl h
  entersMore _ _ _ h h' hr := (h hr).trans (h' (h hr).contained)

/-- The discipline of typing that stays contained. -/
def enclosing : Discipline Halt Typing where
  Good := Typing.Contained
  Leads := Typing.Proceeds
  Fails _ _ _ := True
  Enters s s' := s.Contained → s.Proceeds s'
  refl _ h := ⟨h, .refl h.run⟩
  trans _ _ _ h h' := ⟨h'.contained, h.run.trans h'.run⟩
  fails _ _ _ _ _ h := h
  entersNothing _ h := ⟨h, .refl h.run⟩
  entersMore _ _ _ h h' hs :=
    ⟨(h' (h hs).contained).contained, (h hs).run.trans (h' (h hs).contained).run⟩

/-- A way to type expressions that keeps a run contained. -/
def Typer.Contains (typer : Typer) : Prop :=
  ∀ (s : Typing) (ctx : Context) (e : Expr), s.run.arenas.Stores ctx.handles →
    enclosing.Keeps s (typer ctx e) fun n s' => n.index < s'.run.graph.size

namespace Scopes

variable {scopes : Scopes} {a : Arenas} {n : Node}

theorem stores_iff : a.Stores scopes.handles ↔
    ∀ table ∈ scopes.inner :: scopes.outer, ∀ entry ∈ table.entries, entry.2.index < a.nodes := by
  simp [handles]

theorem stores_empty : a.Stores empty.handles := by
  simp [handles, empty, Table.empty]

theorem stores_push (h : a.Stores scopes.handles) : a.Stores scopes.push.handles := by
  simpa [handles, push, Table.empty] using h

theorem stores_pop (h : a.Stores scopes.handles) : a.Stores (scopes.pop?.getD scopes).handles := by
  unfold pop?
  split
  · exact h
  · next scope rest hrest =>
    exact stores_iff.mpr fun table ht => stores_iff.mp h table (List.mem_cons_of_mem _ (hrest ▸ ht))

theorem stores_define (h : a.Stores scopes.handles) (name : String) (hn : n.index < a.nodes) :
    a.Stores (scopes.define name n).handles := by
  refine stores_iff.mpr fun table ht entry hentry => ?_
  rcases List.mem_cons.mp ht with rfl | ht
  · rcases Table.mem_put hentry with rfl | hentry
    · exact hn
    · exact stores_iff.mp h _ List.mem_cons_self entry hentry
  · exact stores_iff.mp h table (List.mem_cons_of_mem _ ht) entry hentry

theorem lt_of_find (h : a.Stores scopes.handles) {name : String} (hn : scopes.find name = some n) :
    n.index < a.nodes := by
  obtain ⟨table, ht, hget⟩ := List.exists_of_findSome?_eq_some hn
  exact stores_iff.mp h table ht _ (Table.mem_of_get? hget)

end Scopes

namespace Run.Proceeds

variable {r r' : Run} {n : Node} {t : Ty} {call : Site}

theorem node (h : r.Proceeds r') (hn : n.index < r.graph.size) : n.index < r'.graph.size :=
  Nat.lt_of_lt_of_le hn h.grown.nodes

theorem type (h : r.Proceeds r') (ht : t.index < r.catalog.size) : t.index < r'.catalog.size :=
  Nat.lt_of_lt_of_le ht h.grown.types

theorem site (h : r.Proceeds r') (hs : call.index < r.sites.size) : call.index < r'.sites.size :=
  Nat.lt_of_lt_of_le hs h.grown.sites

end Run.Proceeds

/-! ## Steps of a run -/

namespace Run.Contained

variable {r : Run} {n d : Node} {t : Ty}

theorem proceeds_store (h : r.Contained) (act : Store.Act) (hact : r.arenas.Stores act.handles) :
    r.Proceeds (r.withStore (act.after r.store)) :=
  (Acts.store act hact).proceeds h

theorem proceeds_enter (h : r.Contained) (e : Entry) (he : r.arenas.Stores e.handles) :
    r.Proceeds (r.enter e) :=
  (Acts.enter e he).proceeds h

theorem catalog (h : r.Contained) : r.catalog.Within r.arenas := h.store.catalog

theorem graph (h : r.Contained) : r.graph.Within r.arenas := h.store.graph

theorem builtin (h : r.Contained) (ht : t ∈ Ty.builtins.map (·.2)) : t.index < r.catalog.size :=
  h.catalog.builtin ht

theorem proceeds_add (h : r.Contained) (kind : CellKind) (type : Option Ty) (place : Place)
    (htype : ∀ t, type = some t → t.index < r.catalog.size) :
    r.Proceeds (r.withGraph (r.graph.add kind type place).2) ∧
      (r.graph.add kind type place).1.index <
        (r.withGraph (r.graph.add kind type place).2).graph.size := by
  refine ⟨h.proceeds_store (.add kind type place) ?_, Graph.size_lt_size_add _ _ _ _⟩
  exact Arenas.stores_map.mpr fun t ht => htype t (Option.mem_toList.mp ht)

theorem proceeds_bind (h : r.Contained) (hn : n.index < r.graph.size) (hd : d.index < r.graph.size) :
    r.Proceeds (r.bind n d) :=
  h.proceeds_store (.bind n d) (by simpa [Store.Act.handles] using ⟨hn, hd⟩)

theorem proceeds_unbind (h : r.Contained) (hn : n.index < r.graph.size)
    (hd : d.index < r.graph.size) : r.Proceeds (r.unbind n d) :=
  h.proceeds_store (.unbind n d) (by simpa [Store.Act.handles] using ⟨hn, hd⟩)

theorem proceeds_request (h : r.Contained) (request : Request) (hknows : r.catalog.Knows request) :
    r.Proceeds (r.withCatalog (r.catalog.perform request)) :=
  h.proceeds_store (.request request) (Arenas.stores_map.mpr hknows)

theorem proceeds_sharedNode (h : r.Contained) (ht : t.index < r.catalog.size) :
    r.Proceeds (r.sharedNode t).2 ∧ (r.sharedNode t).1.index < (r.sharedNode t).2.graph.size := by
  unfold Run.sharedNode
  split
  · next n hn =>
    have hentry := h.entries (.sharedNode t n) (Table.mem_of_get? hn)
    exact ⟨.refl h, hentry (.node n) (by simp [Entry.handles])⟩
  · obtain ⟨hadded, hnew⟩ := h.proceeds_add .plain (some t) .synthesized
      fun u hu => Option.some.inj hu ▸ ht
    refine ⟨hadded.trans (hadded.contained.proceeds_enter (.sharedNode t _) ?_), hnew⟩
    simpa [Entry.handles] using ⟨ht, hnew⟩

theorem proceeds_slotNode (h : r.Contained) {owner : Ty} (howner : owner.index < r.catalog.size)
    (name : String) : r.Proceeds (r.slotNode owner name).2 ∧
      (r.slotNode owner name).1.index < (r.slotNode owner name).2.graph.size := by
  unfold Run.slotNode
  split
  · next n hn =>
    have hentry := h.entries (.slotNode (owner, name) n) (Table.mem_of_get? hn)
    exact ⟨.refl h, hentry (.node n) (by simp [Entry.handles])⟩
  · obtain ⟨hadded, hnew⟩ := h.proceeds_add .plain none .synthesized (by simp)
    -- the node is entered after it has been bound to that of a type by declaration
    have hentered : ∀ r', (r.freshNode .plain .synthesized).2.Proceeds r' →
        ∀ r'' : Run, r'' = r'.enter (.slotNode (owner, name) (r.freshNode .plain .synthesized).1) →
          r.Proceeds r'' ∧ (r.freshNode .plain .synthesized).1.index < r''.graph.size := by
      rintro r' hr' _ rfl
      have hl := hadded.trans hr'
      refine ⟨hl.trans (hl.contained.proceeds_enter (.slotNode (owner, name) _) ?_), hr'.node hnew⟩
      simpa [Entry.handles] using ⟨hl.type howner, hr'.node hnew⟩
    dsimp only
    split
    · next declared hslot =>
      have hdeclared : declared.index < (r.freshNode .plain .synthesized).2.catalog.size :=
        hadded.contained.catalog.lt_of_slot? hslot
      obtain ⟨hshared, hseed⟩ := hadded.contained.proceeds_sharedNode hdeclared
      exact hentered _ (hshared.trans (hshared.contained.proceeds_bind (hshared.node hnew) hseed)) _ rfl
    · exact hentered _ (.refl hadded.contained) _ rfl

end Run.Contained

variable {α β : Type} {r : Run} {s : Typing} {n d : Node} {t owner : Ty} {place : Place} {typer : Typer}
  {ctx : Context} {arguments : List Ty} {site : Site} {active : List Frame} {id : MethodHandle}

theorem contains_modify {f : Run → Run} (h : r.Contained → r.Proceeds (f r)) :
    containing.Keeps r (modify f : RunM Unit) fun _ _ => True :=
  .modify' (fun hr => ⟨(h hr).contained, h hr, trivial⟩) h

theorem contains_modifyGet {f : Run → α × Run} {post : α → Run → Prop}
    (h : r.Contained → r.Proceeds (f r).2 ∧ post (f r).1 (f r).2) :
    containing.Keeps r (modifyGet f : RunM α) post :=
  .modifyGet' (fun hr => ⟨(h hr).1.contained, (h hr).1, (h hr).2⟩) fun hr => (h hr).1

theorem contains_fail {e : TypingError} {post : α → Run → Prop} :
    containing.Keeps r (RunM.fail e) post :=
  .throw' fun _ => trivial

theorem contains_ofExcept (x : Except TypingError α) :
    containing.Keeps r (RunM.ofExcept x) fun a r' => r = r' ∧ x = .ok a := by
  cases x with
  | ok a => exact .pure' fun _ => ⟨rfl, rfl⟩
  | error e => exact contains_fail

theorem contains_catalog {f : Catalog → RunM β} {post : β → Run → Prop}
    (h : containing.Keeps r (f r.catalog) post) : containing.Keeps r (RunM.catalog >>= f) post :=
  .of_eq h rfl

theorem contains_siteAt {f : CallSite → RunM β} {post : β → Run → Prop}
    (h : containing.Keeps r (f (r.site site)) post) :
    containing.Keeps r (RunM.siteAt site >>= f) post :=
  .of_eq h rfl

theorem contains_freshNode (place : Place) :
    containing.Keeps r (RunM.freshNode place) fun n r' => n.index < r'.graph.size :=
  contains_modifyGet fun hr => hr.proceeds_add .plain none place (by simp)

theorem contains_freshAddress (place : Place) :
    containing.Keeps r (RunM.freshAddress place) fun n r' => n.index < r'.graph.size :=
  contains_modifyGet fun hr => hr.proceeds_add .pointer none place (by simp)

theorem contains_sharedNode (ht : t.index < r.catalog.size) :
    containing.Keeps r (RunM.sharedNode t) fun n r' => n.index < r'.graph.size :=
  contains_modifyGet fun hr => hr.proceeds_sharedNode ht

theorem contains_sharedNil :
    containing.Keeps r RunM.sharedNil fun n r' => n.index < r'.graph.size :=
  .of_good fun hr => contains_sharedNode (hr.builtin (by decide))

theorem contains_slotNode (howner : owner.index < r.catalog.size) (name : String) :
    containing.Keeps r (RunM.slotNode owner name) fun n r' => n.index < r'.graph.size :=
  contains_modifyGet fun hr => hr.proceeds_slotNode howner name

theorem contains_bind (hn : n.index < r.graph.size) (hd : d.index < r.graph.size) :
    containing.Keeps r (RunM.bind n d) fun _ _ => True :=
  contains_modify fun hr => hr.proceeds_bind hn hd

theorem contains_enter (e : Entry) (he : r.Contained → r.arenas.Stores e.handles) :
    containing.Keeps r (modify fun r => r.enter e : RunM Unit) fun _ _ => True :=
  contains_modify fun hr => hr.proceeds_enter e (he hr)

/-- A step on the store. -/
theorem contains_onStore {act : StoreM α} {post : α → Run → Prop}
    (hleft : r.Contained → r.Proceeds (r.withStore (Steps.left (act r.store))))
    (hpost : r.Contained → ∀ a s, act r.store = .ok a s → post a (r.withStore s)) :
    containing.Keeps r (RunM.onStore act) post := by
  intro hr
  have hproceeds := hleft hr
  unfold RunM.onStore
  refine ⟨fun a r' hok => ?_, fun _ _ _ => trivial, fun _ => ?_⟩
  · obtain ⟨s, hs, rfl⟩ := onStore_ok.mp hok
    rw [hs] at hproceeds
    exact ⟨hproceeds.contained, hproceeds, hpost hr a s hs⟩
  · cases hact : act r.store with
    | ok a s => rwa [hact] at hproceeds
    | error e s => rwa [hact] at hproceeds

/-! ## Steps of typing -/

theorem encloses_lift {act : RunM α} {post : α → Run → Prop} (h : containing.Keeps s.run act post) :
    enclosing.Keeps s (Typing.lift act) fun a s' => post a s'.run := by
  intro hs
  obtain ⟨hok, -, henters⟩ := h hs.run
  have hscopes : ∀ run, s.run.Proceeds run → s.Proceeds ⟨s.scopes, run⟩ := fun run hrun =>
    ⟨⟨hrun.contained, hs.scopes.mono hrun.grown⟩, hrun⟩
  refine ⟨fun a s' hact => ?_, fun _ _ _ => trivial, fun _ => ?_⟩
  · obtain ⟨run, hrun, rfl⟩ := lift_ok.mp hact
    obtain ⟨-, hproceeds, hpost⟩ := hok _ _ hrun
    exact ⟨(hscopes run hproceeds).contained, hscopes run hproceeds, hpost⟩
  · have hproceeds := henters hs.run
    unfold Typing.lift
    cases hact : act s.run with
    | ok a run =>
      rw [hact] at hproceeds
      exact hscopes run hproceeds
    | error halt run =>
      rw [hact] at hproceeds
      exact hscopes run hproceeds

theorem contains_inFreshScopes {act : TypingM α} {post : α → Run → Prop}
    (h : enclosing.Keeps ⟨.empty, r⟩ act fun a s' => post a s'.run) :
    containing.Keeps r (RunM.inFreshScopes act) post := by
  intro hr
  obtain ⟨hok, -, henters⟩ := h ⟨hr, Scopes.stores_empty⟩
  refine ⟨fun a r' hact => ?_, fun _ _ _ => trivial, fun _ => ?_⟩
  · unfold RunM.inFreshScopes at hact
    split at hact <;> cases hact
    next s' hact =>
    obtain ⟨hs, hproceeds, hpost⟩ := hok _ _ hact
    exact ⟨hs.run, hproceeds.run, hpost⟩
  · rw [left_inFreshScopes]
    exact (henters ⟨hr, Scopes.stores_empty⟩).run

theorem contains_framed {frame : Frame} {act : RunM α} {post : α → Run → Prop}
    (h : containing.Keeps r act post) : containing.Keeps r (RunM.framed frame act) post := by
  intro hr
  obtain ⟨hok, -, henters⟩ := h hr
  refine ⟨fun a r' hact => ?_, fun _ _ _ => trivial, ?_⟩
  · unfold RunM.framed at hact
    split at hact
    · cases hact
    · exact hok a r' hact
  · rw [left_framed]
    exact henters

theorem encloses_inScope {act : TypingM α} (post : α → Run → Prop)
    (h : enclosing.Keeps ⟨s.scopes.push, s.run⟩ act fun a s' => post a s'.run) :
    enclosing.Keeps s (TypingM.inScope act) fun a s' => post a s'.run := by
  intro hs
  have hpushed : Typing.Contained ⟨s.scopes.push, s.run⟩ := ⟨hs.run, Scopes.stores_push hs.scopes⟩
  obtain ⟨hok, -, henters⟩ := h hpushed
  have hclosed : ∀ s' : Typing, Typing.Proceeds ⟨s.scopes.push, s.run⟩ s' →
      s.Proceeds ⟨s'.scopes.pop?.getD s'.scopes, s'.run⟩ := fun s' hs' =>
    ⟨⟨hs'.contained.run, Scopes.stores_pop hs'.contained.scopes⟩, hs'.run⟩
  refine ⟨fun a s' hact => ?_, fun _ _ _ => trivial, fun _ => ?_⟩
  · unfold TypingM.inScope at hact
    dsimp only at hact
    split at hact <;> cases hact
    next s₁ hact =>
    obtain ⟨-, hproceeds, hpost⟩ := hok _ _ hact
    exact ⟨(hclosed _ hproceeds).contained, hclosed _ hproceeds, hpost⟩
  · have hproceeds := henters hpushed
    unfold TypingM.inScope
    dsimp only
    cases hact : act ⟨s.scopes.push, s.run⟩ with
    | ok a s₁ =>
      rw [hact] at hproceeds
      exact hclosed _ hproceeds
    | error halt s₁ =>
      rw [hact] at hproceeds
      exact hclosed _ hproceeds

theorem encloses_catalog {f : Catalog → TypingM β} {post : β → Typing → Prop}
    (h : enclosing.Keeps s (f s.run.catalog) post) :
    enclosing.Keeps s (Typing.lift RunM.catalog >>= f) post :=
  .of_eq h rfl

theorem encloses_fail {e : TypingError} {post : α → Typing → Prop} :
    enclosing.Keeps s (Typing.lift (RunM.fail e)) post :=
  .mono (encloses_lift (@contains_fail _ _ _ fun _ _ => False)) fun _ _ _ _ h => h.elim

theorem encloses_define (name : String) (hn : n.index < s.run.graph.size) :
    enclosing.Keeps s
      (modify fun s => { s with scopes := s.scopes.define name n } : TypingM Unit)
      fun _ _ => True :=
  .modify' (fun hs => ⟨⟨hs.run, Scopes.stores_define hs.scopes name hn⟩,
      ⟨⟨hs.run, Scopes.stores_define hs.scopes name hn⟩, .refl hs.run⟩, trivial⟩)
    fun hs => ⟨⟨hs.run, Scopes.stores_define hs.scopes name hn⟩, .refl hs.run⟩

/-! ## Handles of records -/

theorem stores_call {a : Arenas} {call : CallSite} : a.Stores call.handles ↔
    call.caller.index < a.types ∧ call.result.index < a.nodes ∧
      ((∀ n ∈ call.receiver, n.index < a.nodes) ∧ (∀ n ∈ call.arguments, n.index < a.nodes) ∧
        ∀ n ∈ call.targets, n.index < a.nodes) ∧
      ∀ flow ∈ call.block, a.Stores flow.handles := by
  simp [CallSite.handles, and_assoc]

theorem stores_context {a : Arenas} : a.Stores ctx.handles ↔
    ctx.receiver.index < a.types ∧ ctx.home.index < a.types ∧
      ∀ body ∈ ctx.body, body.result.index < a.nodes ∧ ∀ flow ∈ body.block, a.Stores flow.handles := by
  simp [Context.handles, BodyFlow.handles]

theorem stores_block {a : Arenas} {flow : BlockFlow} : a.Stores flow.handles ↔
    flow.result.index < a.nodes ∧ ∀ n ∈ flow.parameters, n.index < a.nodes := by
  simp [BlockFlow.handles]

/-! ## Instances -/

theorem encloses_typeParameters (htyper : typer.Contains) {ps : List Parameter}
    (hctx : s.run.arenas.Stores ctx.handles) (harguments : ∀ t ∈ arguments, t.index < s.run.catalog.size) :
    enclosing.Keeps s (RunM.typeParameters typer ctx place ps arguments) fun _ _ => True := by
  induction ps generalizing s arguments with
  | nil => exact .pure' fun _ => trivial
  | cons p ps ih =>
    -- what is done with the value of the first parameter, wherever it comes from
    have rest : ∀ (value : Node) (s₁ : Typing), s.run.Proceeds s₁.run →
        value.index < s₁.run.graph.size → enclosing.Keeps s₁ (do
          let var ← RunM.freshNode place
          RunM.bind var value
          modify fun s => { s with scopes := s.scopes.define p.name var }
          RunM.typeParameters typer ctx place ps arguments.tail) fun _ _ => True := by
      intro value s₁ hl₁ hvalue
      refine .bind' (encloses_lift (contains_freshNode place)) fun var s₂ _ hl₂ hvar => ?_
      refine .bind' (encloses_lift (contains_bind hvar (hl₂.run.node hvalue)))
        fun _ s₃ _ hl₃ _ => ?_
      refine .bind' (encloses_define p.name (hl₃.run.node hvar)) fun _ s₄ _ hl₄ _ => ?_
      have hl := hl₁.trans (hl₂.run.trans (hl₃.run.trans hl₄.run))
      exact ih (hctx.mono hl.grown) fun t ht => hl.type (harguments t (List.mem_of_mem_tail ht))
    unfold RunM.typeParameters
    cases arguments with
    | cons t _ =>
      exact .bind' (encloses_lift (contains_sharedNode (harguments t List.mem_cons_self)))
        fun value s₁ _ hl₁ hvalue => rest value s₁ hl₁.run hvalue
    | nil =>
      cases p.fallback with
      | some fallback =>
        exact .bind' (htyper s ctx fallback hctx) fun value s₁ _ hl₁ hvalue =>
          rest value s₁ hl₁.run hvalue
      | none =>
        exact .bind' (@encloses_fail _ _ _ fun _ _ => False) fun _ _ _ _ h => h.elim

theorem contains_typeBody (htyper : typer.Contains) {method : Method} (body : Expr) {flow : BodyFlow}
    (active : List Frame)
    (howner : owner.index < r.catalog.size) (hmethod : method.owner.index < r.catalog.size)
    (harguments : ∀ t ∈ arguments, t.index < r.catalog.size)
    (hflow : r.arenas.Stores flow.handles) :
    containing.Keeps r (RunM.typeBody typer owner method body arguments flow active)
      fun _ _ => True := by
  refine contains_catalog (.of_good fun hr => ?_)
  have hctx : r.arenas.Stores
      (⟨owner, r.catalog.subject method.owner, some flow, false, active⟩ : Context).handles := by
    simpa [Context.handles] using ⟨howner, hr.catalog.lt_subject hmethod, hflow⟩
  refine contains_inFreshScopes ?_
  refine .bind' (encloses_typeParameters (s := ⟨.empty, r⟩) htyper hctx harguments)
    fun _ s₁ _ hl₁ _ => ?_
  refine .bind' (htyper s₁ _ body (hctx.mono hl₁.run.grown)) fun value s₂ _ hl₂ hvalue => ?_
  have hresult : flow.result.index < r.graph.size := hflow (.node flow.result) List.mem_cons_self
  exact encloses_lift (contains_bind ((hl₁.run.trans hl₂.run).node hresult) hvalue)

/-- The handles of a call that has been entered. -/
theorem Run.Contained.call (h : r.Contained) (hs : site.index < r.sites.size) :
    (r.site site).caller.index < r.catalog.size ∧ (r.site site).result.index < r.graph.size ∧
      ((∀ n ∈ (r.site site).receiver, n.index < r.graph.size) ∧
        (∀ n ∈ (r.site site).arguments, n.index < r.graph.size) ∧
        ∀ n ∈ (r.site site).targets, n.index < r.graph.size) ∧
      ∀ flow ∈ (r.site site).block, r.arenas.Stores flow.handles :=
  stores_call.mp (h.site site hs)

theorem contains_instantiateMethod (htyper : typer.Contains) (hs : site.index < r.sites.size)
    (howner : owner.index < r.catalog.size) (hid : id.index < r.arenas.methods)
    (harguments : ∀ t ∈ arguments, t.index < r.catalog.size) :
    containing.Keeps r (RunM.instantiateMethod typer active site owner id arguments)
      fun n r' => n.index < r'.graph.size := by
  unfold RunM.instantiateMethod
  refine contains_siteAt (.get' ?_)
  dsimp only
  have hkey : r.arenas.Stores
      (⟨owner, id, arguments, (r.site site).block.map fun _ => site⟩ : Invocation).handles := by
    simp only [Invocation.handles, Arenas.stores_cons, Arenas.stores_append, Arenas.stores_map,
      Arenas.holds_type, Arenas.holds_method, Arenas.holds_site]
    refine ⟨howner, hid, harguments, fun other hother => ?_⟩
    obtain ⟨-, -, rfl⟩ := Option.map_eq_some_iff.mp (Option.mem_toList.mp hother)
    exact hs
  split
  · next n hknown =>
    refine .pure' fun hr => ?_
    exact hr.entries (.result _ n) (Table.mem_of_get? hknown) (.node n) List.mem_cons_self
  · refine contains_catalog (.of_good fun hr => ?_)
    have hmethod : ∀ t ∈ (r.catalog.method id).types, t.index < r.catalog.size :=
      fun t ht => hr.catalog.lt_of_method ht
    split
    · next b hbody =>
      have hb : ∀ t ∈ b.types, t.index < r.catalog.size := fun t ht =>
        hmethod t (List.mem_append_right _ (by rw [hbody]; exact ht))
      refine .bind' (contains_ofExcept _) fun t r₁ _ _ ht => ?_
      obtain ⟨rfl, ht⟩ := ht
      have ht := hr.catalog.lt_of_builtinType howner harguments hb ht
      refine .bind' (contains_sharedNode ht) fun n r₂ _ hl₂ hn => ?_
      refine .bind' (contains_enter (.result _ n) fun _ => ?_) fun _ r₃ _ hl₃ _ => ?_
      · exact Arenas.stores_cons.mpr ⟨hn, hkey.mono hl₂.grown⟩
      · exact .pure' fun _ => hl₃.node hn
    · next body hbody =>
      refine .bind' (contains_freshNode _) fun n r₁ _ hl₁ hn => ?_
      -- the instance is entered in two tables
      refine .bind' (contains_modify fun hr₁ => ?_) fun _ r₂ _ hl₂ _ => ?_
      · have hentered := hr₁.proceeds_enter (.result ⟨owner, id, arguments,
          (r.site site).block.map fun _ => site⟩ n) (Arenas.stores_cons.mpr ⟨hn, hkey.mono hl₁.grown⟩)
        exact hentered.trans (hentered.contained.proceeds_enter
          (.typed ⟨r.catalog.instanceText owner (r.catalog.method id).name arguments, n⟩)
          (by simpa [Entry.handles] using hentered.node hn))
      · have hl := hl₁.trans hl₂
        have hflow : r₂.arenas.Stores (⟨n, (r.site site).block⟩ : BodyFlow).handles := by
          simp only [BodyFlow.handles, Arenas.stores_cons, Arenas.stores_flatMap, Option.mem_toList]
          exact ⟨hl₂.node hn, fun flow hflow => ((hr.call hs).2.2.2 flow hflow).mono hl.grown⟩
        have hbody := contains_typeBody htyper body (⟨r.catalog.instanceText owner
          (r.catalog.method id).name arguments, (r.site site).place⟩ :: active)
          (hl.type howner) (hl.type (hmethod _ List.mem_cons_self))
          (fun t ht => hl.type (harguments t ht)) hflow
        exact .bind' (contains_framed hbody) fun _ r₃ _ hl₃ _ => .pure' fun _ => (hl₂.trans hl₃).node hn

/-! ## New values -/

theorem contains_install {observed : List (String × Node)} {holder : Node}
    (ht : t.index < r.catalog.size)
    (hobserved : r.Contained → ∀ b ∈ observed, b.2.index < r.graph.size)
    (hholder : holder.index < r.graph.size) :
    containing.Keeps r (RunM.onStore (Store.install t observed holder)) fun _ _ => True := by
  refine contains_onStore (fun hr => ?_) fun _ _ _ _ => trivial
  refine hr.proceeds_store (.install t observed holder) ?_
  simp only [Store.Act.handles, Arenas.stores_cons, Arenas.stores_map]
  exact ⟨ht, hholder, hobserved hr⟩

theorem contains_runInitializer (htyper : typer.Contains) (hs : site.index < r.sites.size)
    (howner : owner.index < r.catalog.size) (harguments : ∀ t ∈ arguments, t.index < r.catalog.size) :
    containing.Keeps r (RunM.runInitializer typer active site owner arguments) fun _ _ => True := by
  unfold RunM.runInitializer
  refine contains_siteAt (contains_catalog (.of_good fun hr => ?_))
  split
  · next id hid =>
    exact .discard' (contains_instantiateMethod htyper hs howner (hr.catalog.lt_of_select (.inl hid))
      harguments) fun _ _ _ _ _ => trivial
  · split
    · exact .pure' fun _ => trivial
    · exact contains_fail

theorem lt_of_slotNodesOf (h : r.Contained) {b : String × Node} (hb : b ∈ RunM.slotNodesOf r owner) :
    b.2.index < r.graph.size := by
  obtain ⟨entry, hentry, heq⟩ := List.mem_filterMap.mp hb
  split at heq
  · cases heq
    exact h.entries (.slotNode entry.1 entry.2) hentry (.node entry.2) (by simp [Entry.handles])
  · cases heq

theorem contains_construct (htyper : typer.Contains) (hs : site.index < r.sites.size)
    (ht : t.index < r.catalog.size) (harguments : ∀ t ∈ arguments, t.index < r.catalog.size) :
    containing.Keeps r (RunM.construct typer active site t arguments)
      fun n r' => n.index < r'.graph.size := by
  unfold RunM.construct
  refine contains_catalog ?_
  split
  · exact .bind' (contains_runInitializer htyper hs ht harguments) fun _ r₁ _ hl₁ _ =>
      contains_sharedNode (hl₁.type ht)
  · refine .get' ?_
    split
    · next n hknown =>
      refine .pure' fun hr => ?_
      exact hr.entries (.construction _ n) (Table.mem_of_get? hknown) (.node n) List.mem_cons_self
    · refine contains_siteAt (.bind' (contains_freshNode _) fun n r₁ _ hl₁ hn => ?_)
      refine .bind' (contains_enter (.construction (site, arguments) n) fun _ => ?_)
        fun _ r₂ _ hl₂ _ => ?_
      · simp only [Entry.handles, Arenas.stores_cons, Arenas.stores_map]
        exact ⟨hn, hl₁.site hs, fun u hu => hl₁.type (harguments u hu)⟩
      have hl₁₂ := hl₁.trans hl₂
      -- the type of the value's own
      have hown : containing.Keeps r₂ (modifyGet fun r =>
          (r.catalog.specialize t []).map id r.withCatalog : RunM Ty)
          fun own r' => own.index < r'.catalog.size :=
        contains_modifyGet fun hr₂ => ⟨hr₂.proceeds_request (.copy t []) fun u hu => by
          obtain rfl := List.mem_singleton.mp hu
          exact hl₁₂.type ht, (hr₂.store.catalog.specialize (hl₁₂.type ht) (by simp)).2⟩
      refine .bind' hown fun own r₃ _ hl₃ hown => ?_
      have hl₁₃ := hl₁₂.trans hl₃
      refine .bind' (contains_runInitializer htyper (hl₁₃.site hs) hown
        fun u hu => hl₁₃.type (harguments u hu)) fun _ r₄ _ hl₄ _ => ?_
      have hn₄ := (hl₂.trans (hl₃.trans hl₄)).node hn
      have hinstalled : containing.Keeps r₄ (discard
          (RunM.onStore (Store.install t (RunM.slotNodesOf r₄ own) n)) : RunM Unit) fun _ _ => True :=
        .discard' (contains_install ((hl₁₃.trans hl₄).type ht)
          (fun hr₄ b hb => lt_of_slotNodesOf hr₄ hb) hn₄) fun _ _ _ _ _ => trivial
      exact .get' (.bind' hinstalled fun _ r₅ _ hl₅ _ => .pure' fun _ => hl₅.node hn₄)

/-! ## Resolving a call -/

theorem contains_dispatch (htyper : typer.Contains) (hs : site.index < r.sites.size)
    (howner : owner.index < r.catalog.size) (harguments : ∀ t ∈ arguments, t.index < r.catalog.size) :
    containing.Keeps r (RunM.dispatch typer active site owner arguments)
      fun n r' => n.index < r'.graph.size := by
  unfold RunM.dispatch
  refine contains_siteAt (contains_catalog (.of_good fun hr => ?_))
  rcases dispatch_cases r.catalog (r.site site) owner arguments with
    ⟨o, id, heq, ho, hid⟩ | ⟨t, heq, ht⟩ | ⟨miss, heq⟩
  · rw [heq]
    have ho : o.index < r.catalog.size := by
      rcases ho with rfl | rfl
      · exact howner
      · exact hr.builtin (by decide)
    exact contains_instantiateMethod htyper hs ho (hr.catalog.lt_of_select (.inl hid)) harguments
  · rw [heq]
    exact contains_construct htyper hs (definite_of_constructed ht).1 harguments
  · rw [heq]
    exact contains_fail

theorem contains_dispatchAll (htyper : typer.Contains) {combinations : List (Ty × List Ty)}
    {targets : List Node} (hs : site.index < r.sites.size)
    (hcombinations : ∀ one ∈ combinations, one.1.index < r.catalog.size ∧
      ∀ t ∈ one.2, t.index < r.catalog.size)
    (htargets : ∀ n ∈ targets, n.index < r.graph.size) :
    containing.Keeps r (RunM.dispatchAll typer active site combinations targets)
      fun new r' => ∀ n ∈ new, n.index < r'.graph.size := by
  induction combinations generalizing r targets with
  | nil => exact .pure' fun _ => htargets
  | cons one rest ih =>
    obtain ⟨howner, harguments⟩ := hcombinations one List.mem_cons_self
    refine .bind' (contains_dispatch htyper hs howner harguments) fun n r₁ _ hl₁ hn => ?_
    refine ih (hl₁.site hs) (fun o ho => ?_) fun m hm => ?_
    · obtain ⟨howner, harguments⟩ := hcombinations o (List.mem_cons_of_mem _ ho)
      exact ⟨hl₁.type howner, fun t ht => hl₁.type (harguments t ht)⟩
    · rcases Graph.mem_addOnce.mp hm with rfl | hm
      · exact hn
      · exact hl₁.node (htargets m hm)

/-- What the members of the types of a call's nodes combine to. -/
theorem Run.Contained.lt_of_combinations (h : r.Contained) {call : CallSite}
    (hcaller : call.caller.index < r.catalog.size) {all : List (Ty × List Ty)}
    (hall : r.combinations call = some all) :
    ∀ one ∈ all, one.1.index < r.catalog.size ∧ ∀ t ∈ one.2, t.index < r.catalog.size := by
  have hholds : ∀ t n, r.Holds t n → t.index < r.catalog.size := by
    rintro t n ⟨u, hu, ht⟩
    exact h.catalog.lt_of_members (h.graph.lt_of_typeAt hu) ht
  intro one hone
  have hchooses := (Run.mem_combinations hall).mp hone
  refine ⟨?_, fun t ht => ?_⟩
  · have howner := hchooses.owner
    cases hreceiver : call.receiver with
    | none =>
      rw [hreceiver] at howner
      exact howner ▸ hcaller
    | some n =>
      rw [hreceiver] at howner
      exact hholds _ n howner
  · obtain ⟨n, -, hn⟩ := exists_of_forall₂_mem hchooses.arguments ht
    exact hholds t n hn

/-- A call is bound to the nodes of its targets one by one. -/
theorem Run.Contained.proceeds_retarget (h : r.Contained) (hs : site.index < r.sites.size)
    {targets : List Node} (htargets : ∀ n ∈ targets, n.index < r.graph.size) :
    r.Proceeds (RunM.retarget r site targets) := by
  obtain ⟨-, hresult, ⟨-, -, hold⟩, -⟩ := h.call hs
  have hsteps : ∀ (step : Run → Node → Run) (ns : List Node) (r₁ : Run), r.Proceeds r₁ →
      (∀ n ∈ ns, n.index < r.graph.size) →
      (∀ r₂ n, r.Proceeds r₂ → n.index < r.graph.size → r₂.Proceeds (step r₂ n)) →
      r.Proceeds (ns.foldl step r₁) := by
    intro step ns r₁ hr₁ hns hstep
    refine List.foldlRecOn ns step (motive := r.Proceeds) hr₁ ?_
    exact fun r₂ hr₂ n hn => hr₂.trans (hstep r₂ n hr₂ (hns n hn))
  unfold RunM.retarget
  have hunbound := hsteps (fun r₂ n => r₂.unbind (r.site site).result n)
    ((r.site site).targets.filter fun n => !targets.contains n) r (.refl h)
    (fun n hn => hold n (List.mem_filter.mp hn).1)
    fun r₂ n hr₂ hn => hr₂.contained.proceeds_unbind (hr₂.node hresult) (hr₂.node hn)
  have hbound := hsteps (fun r₂ n => r₂.bind (r.site site).result n)
    (targets.filter fun n => !(r.site site).targets.contains n) _ hunbound
    (fun n hn => htargets n (List.mem_filter.mp hn).1)
    fun r₂ n hr₂ hn => hr₂.contained.proceeds_bind (hr₂.node hresult) (hr₂.node hn)
  refine hbound.trans ((Run.Acts.retarget site targets ?_).proceeds hbound.contained)
  simp only [Arenas.stores_cons, Arenas.stores_map]
  exact ⟨hbound.site hs, fun n hn => hbound.node (htargets n hn)⟩

theorem contains_rebindCall (htyper : typer.Contains) (hs : site.index < r.sites.size) :
    containing.Keeps r (RunM.rebindCall typer active site) fun _ _ => True := by
  unfold RunM.rebindCall
  refine .get' (.of_good fun hr => ?_)
  split
  · exact .pure' fun _ => trivial
  · next all hall =>
    have hnone : ∀ n ∈ ([] : List Node), n.index < r.graph.size := by simp
    refine .bind' (contains_dispatchAll htyper hs (hr.lt_of_combinations (hr.call hs).1 hall) hnone)
      fun targets r₁ _ hl₁ htargets => ?_
    exact contains_modify fun hr₁ => hr₁.proceeds_retarget (hl₁.site hs) htargets

theorem contains_enterCall (htyper : typer.Contains) {call : CallSite}
    (hcall : r.arenas.Stores call.handles) :
    containing.Keeps r (RunM.enterCall typer call) fun _ _ => True := by
  unfold RunM.enterCall
  have hentered : containing.Keeps r (modifyGet fun r =>
      ((⟨r.sites.size⟩ : Site), r.enter (.call call)) : RunM Site)
      fun site r' => site.index < r'.sites.size :=
    contains_modifyGet fun hr => ⟨hr.proceeds_enter (.call call) hcall, by simp [Run.enter]⟩
  exact .bind' hentered fun site r₁ _ _ hsite => contains_rebindCall htyper hsite

end FlowTyping
