import FlowTyping.Proofs.Flow.Preserving
import FlowTyping.Proofs.Inference.Casting
import FlowTyping.Proofs.Inference.Defaults
import FlowTyping.Proofs.Inference.Keeping
import FlowTyping.Proofs.Yields

/-
  Yields find a block

  A definition is entered under keys that say whether its body yields, and a call
  selects only definitions whose keys say that it has a block. So an instance of
  a definition that yields is made for a call with a block, which its body is
  typed with, and an instance of any other one for a call without
  (`Run.Guarded`). A yield that finds no block stands outside of all method
  bodies.

  Steps of a run and of typing keep to this (`guarding`). Each function of the
  typing is gone through once; what an expression is typed in says which of its
  yields must be excused (`Context.surroundings`).
-/
namespace FlowTyping

open Catalog Steps

/-! ## What is guarded -/

/-- A definition says of itself whether it yields. The yields that it contains outside of the bodies
of methods are among `P`. -/
structure Method.Guarded (P : Mark → Prop) (m : Method) : Prop where
  builtin : ∀ b, m.body = .builtin b → m.yields = false
  code : ∀ body, m.body = .code body → m.yields = body.yields ∧ Exposes P .method body.yieldsAt
  fallbacks : ∀ p ∈ m.parameters, ∀ e ∈ p.fallback, Exposes P .fallback e.yieldsAt

/-- So do all definitions, and the values of constants. -/
structure Catalog.Guarded (P : Mark → Prop) (c : Catalog) : Prop where
  methods : ∀ id, (c.method id).Guarded P
  constants : ∀ t name container value, c.shape t = .constant name container value →
    Exposes P .constant value.yieldsAt

/-- A definition stands under keys that say whether it yields. -/
def Catalog.Keyed (c : Catalog) : Prop :=
  ∀ k, ∀ entry ∈ (c.classTable k).methods.entries, ∀ overload ∈ entry.2.entries,
    overload.1.yields = (c.method overload.2).yields

/-- The instances of definitions that yield were made for calls with a block, and the others were
not. -/
structure Run.Guarded (P : Mark → Prop) (r : Run) : Prop where
  catalog : r.catalog.Guarded P
  keyed : r.catalog.Keyed
  results : ∀ key n, r.results.get? key = some n →
    key.site.isSome = (r.catalog.method key.method).yields ∧
      ∀ site ∈ key.site, (r.site site).block.isSome = true

/-- Definitions stay as they are, and calls keep their blocks. -/
structure Run.Minds (r r' : Run) : Prop where
  methods : r'.catalog.methods = r.catalog.methods
  blocks : ∀ site, (r.site site).block.isSome = true → (r'.site site).block = (r.site site).block

/-- An error is not that of a yield without a block, or it is that of one of the yields `P`. -/
def TypingError.Excused (P : Mark → Prop) (e : TypingError) : Prop :=
  ∀ name, e.origin.problem = .unresolved .block name →
    ∃ mark, P mark ∧ e.origin = .located (.unresolved .block "yield") mark.place

def Halt.Excused (P : Mark → Prop) : Halt → Prop
  | .failed e => e.Excused P
  | _ => True

/-- What the yields of an expression that is typed in a context stand in, as far as it matters to
them: the body of a method that was given a block, or not. -/
def Context.surroundings (ctx : Context) : Surroundings :=
  if ctx.block.isSome then .method else .program

namespace Run

variable {P : Mark → Prop} {r r₁ r' : Run}

theorem Minds.refl (r : Run) : r.Minds r := ⟨rfl, fun _ _ => rfl⟩

theorem Minds.trans (h : r.Minds r₁) (h' : r₁.Minds r') : r.Minds r' where
  methods := h'.methods.trans h.methods
  blocks site hblock := by
    have heq := h.blocks site hblock
    exact (h'.blocks site (heq ▸ hblock)).trans heq

theorem Minds.method (h : r.Minds r') (id : MethodHandle) :
    r'.catalog.method id = r.catalog.method id :=
  method_congr h.methods id

/-- A run differs from another one in nothing that matters to blocks. -/
structure Spares (r r' : Run) : Prop where
  catalog : r.catalog.Preserves r'.catalog
  results : r'.results = r.results
  sites : r'.sites = r.sites

namespace Spares

theorem refl (r : Run) : r.Spares r := ⟨.refl _, rfl, rfl⟩

theorem trans (h : r.Spares r₁) (h' : r₁.Spares r') : r.Spares r' :=
  ⟨h.catalog.trans h'.catalog, h'.results.trans h.results, h'.sites.trans h.sites⟩

theorem site (h : r.Spares r') (site : Site) : r'.site site = r.site site := by
  unfold Run.site
  rw [h.sites]

theorem minds (h : r.Spares r') : r.Minds r' :=
  ⟨h.catalog.methods, fun site _ => by rw [h.site]⟩

end Spares

end Run

namespace Catalog

variable {P : Mark → Prop} {c c' : Catalog} {owner : Ty} {q : Query} {id : MethodHandle}

theorem Guarded.of_methods_eq (h : c.Guarded P) (hmethods : c'.methods = c.methods)
    (hconstants : ∀ t name container value, c'.shape t = .constant name container value →
      Exposes P .constant value.yieldsAt) : c'.Guarded P :=
  ⟨fun id => method_congr hmethods id ▸ h.methods id, hconstants⟩

theorem Guarded.modifyClass (h : c.Guarded P) (k : ClassHandle) (f : ClassTable → ClassTable) :
    (c.modifyClass k f).Guarded P := ⟨h.methods, h.constants⟩

/-- An entry may be added, with a class table or without. -/
theorem Guarded.push (h : c.Guarded P) {s : Shape} (classes : Array ClassTable)
    (hs : ∀ name container value, s = .constant name container value →
      Exposes P .constant value.yieldsAt) :
    Catalog.Guarded P { c with shapes := c.shapes.push s, classes := classes } := by
  refine ⟨h.methods, fun t name container value ht => ?_⟩
  change (c.push s).2.shape t = _ at ht
  rw [shape_push] at ht
  split at ht
  · exact hs name container value ht
  · exact h.constants t name container value ht

theorem Guarded.enterName (h : c.Guarded P) (scope : Ty) (name : String) (t : Ty) :
    (c.enterName scope name t).Guarded P := by
  unfold Catalog.enterName
  split
  · exact h.modifyClass _ _
  · exact h

theorem Guarded.newConstant (h : c.Guarded P) (name : String) {value : Expr} (container : Ty)
    (hvalue : Exposes P .constant value.yieldsAt) :
    (c.newConstant name value container).2.Guarded P := by
  have hpushed : (c.push (.constant name container value)).2.Guarded P :=
    h.push c.classes fun _ _ _ heq => by cases heq; exact hvalue
  exact hpushed.enterName container name ⟨c.size⟩

theorem Keyed.congr (h : c.Keyed) (hmethods : c'.methods = c.methods)
    (htables : ∀ k, (c'.classTable k).methods = (c.classTable k).methods) : c'.Keyed := by
  intro k entry hentry overload hoverload
  rw [htables] at hentry
  rw [method_congr hmethods]
  exact h k entry hentry overload hoverload

/-- Definitions that stand under their keys do so as to blocks. -/
theorem Callable.keyed (h : c.Callable) : c.Keyed := fun k entry hentry overload hoverload =>
  (mem_methodKeys_iff.mp (h.keys k entry hentry overload hoverload).2).1

/-- What a call selects takes a block exactly if the call has one. -/
theorem Keyed.yields_of_select (h : c.Keyed) (hid : c.select owner q = .ok id) :
    (c.method id).yields = q.yields := by
  obtain ⟨t, -, hverdict⟩ := List.mem_filterMap.mp (mem_of_firstSelected hid)
  obtain ⟨overloads, hoverloads, hselect⟩ := Option.map_eq_some_iff.mp hverdict
  obtain ⟨table, htable, hname⟩ := Option.bind_eq_some_iff.mp hoverloads
  obtain ⟨k, -, rfl⟩ := Option.map_eq_some_iff.mp htable
  obtain ⟨key, hkey, hfits⟩ := exists_key_of_selectAmong hselect
  have hyields := h k _ (Table.mem_of_get? hname) _ hkey
  exact hyields.symm.trans (beq_iff_eq.mp (Bool.and_eq_true _ _ ▸ hfits).1)

/-- What a call uses takes a block exactly if the call has one. -/
theorem Keyed.yields_of_uses {call : CallSite} {arguments : List Ty} {self : Ty} (h : c.Keyed)
    (huses : c.Uses call owner arguments self id) :
    (c.method id).yields = call.block.isSome := by
  rcases huses with huses | ⟨-, huses⟩
  · exact h.yields_of_select (select_of_dispatch huses)
  · exact h.yields_of_select huses

end Catalog

namespace Run.Guarded

variable {P : Mark → Prop} {r r' : Run}

theorem spares (h : r.Guarded P) (hs : r.Spares r') : r'.Guarded P where
  catalog := h.catalog.of_methods_eq hs.catalog.methods fun t name container value ht =>
    h.catalog.constants t name container value (hs.catalog.constants t name container value ht)
  keyed := h.keyed.congr hs.catalog.methods fun k => by
    unfold classTable
    rw [hs.catalog.classes]
  results key n hn := by
    rw [hs.results] at hn
    obtain ⟨hyields, hblock⟩ := h.results key n hn
    refine ⟨hs.minds.method key.method ▸ hyields, fun site hsite => ?_⟩
    rw [hs.site]
    exact hblock site hsite

/-- A constant may be declared whose value is guarded. -/
theorem newConstant (h : r.Guarded P) (name : String) {value : Expr} (container : Ty)
    (hvalue : Exposes P .constant value.yieldsAt) :
    (r.withCatalog (r.catalog.newConstant name value container).2).Guarded P := by
  have hextends := Sound.newConstant_extends r.catalog name value container
  refine ⟨h.catalog.newConstant name container hvalue, h.keyed.congr hextends.methods fun k => ?_,
    fun key n hn => ?_⟩
  · obtain ⟨types, htypes⟩ := hextends.classTable k
    change ((r.catalog.newConstant name value container).2.classTable k).methods = _
    rw [htypes]
  · obtain ⟨hyields, hblock⟩ := h.results key n hn
    exact ⟨method_congr hextends.methods key.method ▸ hyields, hblock⟩

end Run.Guarded

/-! ## The disciplines -/

/-- Guarded runs, seen in the states of some steps. -/
def guarding {σ : Type} (P : Mark → Prop) (view : σ → Run) : Discipline Halt σ where
  Good s := (view s).Guarded P
  Leads s s' := (view s).Minds (view s')
  Fails _ halt _ := halt.Excused P
  Enters s s' := (view s).Guarded P → (view s').Guarded P
  refl _ _ := .refl _
  trans _ _ _ h h' := h.trans h'
  fails _ _ _ _ _ h := h
  entersNothing _ := id
  entersMore _ _ _ h h' := h' ∘ h

/-- A step that a guarded run stays guarded in. -/
def Guards {σ α : Type} (P : Mark → Prop) (view : σ → Run) (s : σ) (act : EStateM Halt σ α) : Prop :=
  (guarding P view).Keeps s act fun _ _ => True

/-- A way to type expressions that a guarded run stays guarded in, for expressions whose yields are
excused. -/
def Typer.Guards (P : Mark → Prop) (typer : Typer) : Prop :=
  ∀ (s : Typing) (ctx : Context) (e : Expr), Exposes P ctx.surroundings e.yieldsAt →
    FlowTyping.Guards P Typing.run s (typer ctx e)

namespace Guards

variable {σ α β : Type} {P : Mark → Prop} {view : σ → Run} {s : σ} {act : EStateM Halt σ α}

theorem pure' (a : α) : Guards P view s (pure a : EStateM Halt σ α) :=
  Discipline.Keeps.pure' fun _ => trivial

theorem bind' {f : α → EStateM Halt σ β} (hact : Guards P view s act)
    (hf : ∀ a s', (view s).Minds (view s') → Guards P view s' (f a)) :
    Guards P view s (act >>= f) :=
  Discipline.Keeps.bind' hact fun a s' _ hl _ => hf a s' hl

theorem discard' (hact : Guards P view s act) : Guards P view s (discard act) :=
  Discipline.Keeps.discard' hact fun _ _ _ _ _ => trivial

theorem get' {f : σ → EStateM Halt σ α} (h : Guards P view s (f s)) :
    Guards P view s ((get : EStateM Halt σ σ) >>= f) :=
  Discipline.Keeps.get' h

/-- A state that is guarded after a change that keeps definitions and blocks. -/
theorem modify' {f : σ → σ} (hgood : (view s).Guarded P → (view (f s)).Guarded P)
    (hminds : (view s).Minds (view (f s))) :
    Guards P view s (modify f : EStateM Halt σ PUnit) :=
  Discipline.Keeps.modify' (fun h => ⟨hgood h, hminds, trivial⟩) hgood

theorem modifyGet' {f : σ → α × σ} (hgood : (view s).Guarded P → (view (f s).2).Guarded P)
    (hminds : (view s).Minds (view (f s).2)) :
    Guards P view s (modifyGet f : EStateM Halt σ α) :=
  Discipline.Keeps.modifyGet' (fun h => ⟨hgood h, hminds, trivial⟩) hgood

theorem throw' {halt : Halt} (h : halt.Excused P) :
    Guards P view s (throw halt : EStateM Halt σ α) :=
  Discipline.Keeps.throw' fun _ => h

theorem forM' {f : β → EStateM Halt σ Unit} (h : ∀ b s', Guards P view s' (f b)) (bs : List β) :
    Guards P view s (bs.forM f) := by
  induction bs generalizing s with
  | nil => exact pure' ()
  | cons b bs ih => exact bind' (h b s) fun _ _ _ => ih

end Guards

variable {α β : Type} {P : Mark → Prop} {r : Run} {s : Typing} {typer : Typer} {ctx : Context}
  {active : List Frame} {site : Site} {owner t : Ty} {place : Place} {mark : Mark}
  {arguments : List Ty} {selected : MethodHandle}

/-! ## Errors that are not of blocks -/

theorem excused_located {problem : Problem} (h : ∀ name, problem ≠ .unresolved .block name) :
    (TypingError.located problem place).Excused P :=
  fun name heq => absurd heq (h name)

theorem excused_fault (f : Fault) : (TypingError.fault f).Excused P :=
  fun _ heq => by cases heq

theorem excused_lookUp {c : Catalog} {path : List String} {scope : Ty} {what : Sought}
    {e : TypingError} (hwhat : what ≠ .block) (h : c.lookUp path scope what place = .error e) :
    e.Excused P := by
  unfold lookUp at h
  split at h
  · cases h
  · cases h
    exact excused_located fun name heq => hwhat (by cases heq; rfl)

theorem excused_writtenType {c : Catalog} {written : TypeName} {scope : Ty} {receiver : Option Ty}
    {e : TypingError} (h : c.writtenType written scope receiver place = .error e) :
    e.Excused P := by
  unfold writtenType at h
  split at h
  · exact excused_lookUp (by decide) h
  · cases h
  · cases h
    exact excused_located fun name heq => by cases heq

theorem excused_declared {c : Catalog} {scope : Ty} {name : String} {e : TypingError}
    (h : c.declared scope name = .error e) : e.Excused P := by
  unfold declared at h
  split at h
  · cases h
  · cases h
    exact excused_fault _

theorem excused_builtinType {c : Catalog} {name : String} {b : Builtin} {e : TypingError}
    (h : c.builtinType owner name b arguments place = .error e) : e.Excused P := by
  unfold builtinType at h
  cases b with
  | fixed t => cases h
  | allocate => cases h
  | firstArgument =>
    cases arguments with
    | nil =>
      cases h
      exact excused_fault _
    | cons t ts => cases h
  | _ =>
    -- what is missing is a member
    dsimp only at h
    split at h
    · cases h
    · cases h
      exact excused_located fun name heq => by cases heq

theorem excused_missError (c : Catalog) (owner : Ty) (name : String) (arguments : List Ty)
    (miss : Miss) (place : Place) : (c.missError owner name arguments miss place).Excused P := by
  cases miss <;> exact excused_located fun name heq => by cases heq

/-- An error keeps its origin within the frames of instances. -/
theorem excused_instantiating {e : TypingError} (h : e.Excused P) (signature : String) :
    (e.instantiating signature place).Excused P := h

/-! ## Steps of a run -/

theorem guards_fail {e : TypingError} (h : e.Excused P) : Guards P id r (RunM.fail e : RunM α) :=
  .throw' h

theorem guards_ofExcept {x : Except TypingError α} (h : ∀ e, x = .error e → e.Excused P) :
    Guards P id r (RunM.ofExcept x) := by
  cases x with
  | ok a => exact .pure' a
  | error e => exact guards_fail (h e rfl)

/-- A change of a run that has nothing to do with blocks. -/
theorem guards_modify {f : Run → Run} (h : ∀ r : Run, r.Spares (f r)) :
    Guards P id r (modify f : RunM Unit) :=
  .modify' (fun hr => hr.spares (h r)) (h r).minds

theorem guards_modifyGet {f : Run → α × Run} (h : ∀ r : Run, r.Spares (f r).2) :
    Guards P id r (modifyGet f : RunM α) :=
  .modifyGet' (fun hr => hr.spares (h r)) (h r).minds

theorem guards_catalog {f : Catalog → RunM β} (h : Guards P id r (f r.catalog)) :
    Guards P id r (RunM.catalog >>= f) := h.of_eq rfl

theorem guards_siteAt {f : CallSite → RunM β} (h : Guards P id r (f (r.site site))) :
    Guards P id r (RunM.siteAt site >>= f) := h.of_eq rfl

theorem Run.spares_sharedNode (r : Run) (t : Ty) : r.Spares (r.sharedNode t).2 := by
  unfold Run.sharedNode
  split <;> exact ⟨.refl _, rfl, rfl⟩

theorem Run.spares_bind (r : Run) (n d : Node) : r.Spares (r.bind n d) :=
  ⟨Store.preserves_bind r.store n d, rfl, rfl⟩

theorem Run.spares_unbind (r : Run) (n d : Node) : r.Spares (r.unbind n d) :=
  ⟨Store.preserves_unbind r.store n d, rfl, rfl⟩

theorem Run.spares_slotNode (r : Run) (owner : Ty) (name : String) :
    r.Spares (r.slotNode owner name).2 := by
  have hadded : r.Spares (r.freshNode .plain .synthesized).2 := ⟨.refl _, rfl, rfl⟩
  -- the node is entered in a table of its own
  have hentered : ∀ {r' : Run} (n : Node), r.Spares r' →
      r.Spares { r' with slotNodes := r'.slotNodes.put (owner, name) n } := fun n h =>
    ⟨h.catalog, h.results, h.sites⟩
  unfold Run.slotNode
  split
  · exact .refl r
  · dsimp only
    split
    · exact hentered _ ((hadded.trans (Run.spares_sharedNode _ _)).trans (Run.spares_bind _ _ _))
    · exact hentered _ hadded

theorem guards_freshNode (place : Place) : Guards P id r (RunM.freshNode place) :=
  guards_modifyGet fun _ => ⟨.refl _, rfl, rfl⟩

theorem guards_freshAddress (place : Place) : Guards P id r (RunM.freshAddress place) :=
  guards_modifyGet fun _ => ⟨.refl _, rfl, rfl⟩

theorem guards_sharedNode (t : Ty) : Guards P id r (RunM.sharedNode t) :=
  guards_modifyGet fun r => r.spares_sharedNode t

theorem guards_sharedNil : Guards P id r RunM.sharedNil := guards_sharedNode .nil

theorem guards_slotNode (owner : Ty) (name : String) : Guards P id r (RunM.slotNode owner name) :=
  guards_modifyGet fun r => r.spares_slotNode owner name

theorem guards_bind (n d : Node) : Guards P id r (RunM.bind n d) :=
  guards_modify fun r => r.spares_bind n d

/-- A step on the store that preserves the catalog and reports faults. -/
theorem guards_onStore {act : StoreM α}
    (hleft : r.catalog.Preserves (left (act r.store)).catalog)
    (herror : ∀ e s, act r.store = .error e s → ∃ f, e = .fault f) :
    Guards P id r (RunM.onStore act) := by
  have hspares : r.Spares (r.withStore (left (act r.store))) := ⟨hleft, rfl, rfl⟩
  intro hr
  refine ⟨fun a r' hok => ?_, fun halt r' herr => ?_, fun _ => ?_⟩
  · obtain ⟨s, hs, rfl⟩ := onStore_ok.mp hok
    rw [hs] at hspares
    exact ⟨hr.spares hspares, hspares.minds, trivial⟩
  · obtain ⟨e, s, hs, rfl, rfl⟩ := onStore_error.mp herr
    obtain ⟨f, rfl⟩ := herror e s hs
    exact excused_fault f
  · have hgood := hr.spares hspares
    unfold RunM.onStore
    cases hact : act r.store with
    | ok a s => rwa [hact] at hgood
    | error e s => rwa [hact] at hgood

theorem guards_install (template : Ty) (observed : List (String × Node)) (holder : Node) :
    Guards P id r (RunM.onStore (Store.install template observed holder)) :=
  guards_onStore (Store.preserves_install _ _ _ _) fun _ _ => Store.install_fails

theorem guards_framed {frame : Frame} {act : RunM α} (h : Guards P id r act) :
    Guards P id r (RunM.framed frame act) := by
  intro hr
  obtain ⟨hok, herror, henters⟩ := h hr
  refine ⟨fun a r' hact => ?_, fun halt r' hact => ?_, ?_⟩
  · unfold RunM.framed at hact
    split at hact
    · cases hact
    · exact hok a r' hact
  · unfold RunM.framed at hact
    split at hact
    · next e r₁ hfail =>
      cases hact
      exact excused_instantiating (herror _ _ hfail) frame.signature
    · exact herror halt r' hact
  · rw [left_framed]
    exact henters

/-! ## Steps of typing -/

theorem guards_lift {act : RunM α} (h : Guards P id s.run act) :
    Guards P Typing.run s (Typing.lift act) := by
  intro hs
  obtain ⟨hok, herror, henters⟩ := h hs
  refine ⟨fun a s' hact => ?_, fun halt s' hact => ?_, ?_⟩
  · obtain ⟨run, hrun, rfl⟩ := lift_ok.mp hact
    exact hok _ _ hrun
  · obtain ⟨run, hrun, rfl⟩ := lift_error.mp hact
    exact herror _ _ hrun
  · show s.run.Guarded P → (left (Typing.lift act s)).run.Guarded P
    rw [run_left_lift]
    exact henters

theorem guards_nil : Guards P Typing.run s (Typing.lift RunM.sharedNil) := guards_lift guards_sharedNil

theorem guards_liftCatalog {f : Catalog → TypingM β} (h : Guards P Typing.run s (f s.run.catalog)) :
    Guards P Typing.run s (Typing.lift RunM.catalog >>= f) := h.of_eq rfl

theorem guards_inFreshScopes {act : TypingM α} (h : Guards P Typing.run ⟨.empty, r⟩ act) :
    Guards P id r (RunM.inFreshScopes act) := by
  intro hr
  obtain ⟨hok, herror, henters⟩ := h hr
  refine ⟨fun a r' hact => ?_, fun halt r' hact => ?_, ?_⟩
  · unfold RunM.inFreshScopes at hact
    split at hact <;> cases hact
    next s' hact => exact hok _ _ hact
  · unfold RunM.inFreshScopes at hact
    split at hact <;> cases hact
    next s' hact => exact herror _ _ hact
  · show r.Guarded P → (left (RunM.inFreshScopes act r)).Guarded P
    rw [left_inFreshScopes]
    exact henters

theorem guards_inScope {act : TypingM α} (h : Guards P Typing.run ⟨s.scopes.push, s.run⟩ act) :
    Guards P Typing.run s (TypingM.inScope act) := by
  intro hs
  obtain ⟨hok, herror, henters⟩ := h hs
  refine ⟨fun a s' hact => ?_, fun halt s' hact => ?_, ?_⟩
  · unfold TypingM.inScope at hact
    dsimp only at hact
    split at hact <;> cases hact
    next s₁ hact =>
    obtain ⟨hgood, hminds, -⟩ := hok _ _ hact
    exact ⟨hgood, hminds, trivial⟩
  · unfold TypingM.inScope at hact
    dsimp only at hact
    split at hact <;> cases hact
    next s₁ hact => exact herror _ _ hact
  · show s.run.Guarded P → (left (TypingM.inScope act s)).run.Guarded P
    rw [run_left_inScope]
    exact henters

/-- Local variables have no part in it. -/
theorem guards_define (name : String) (n : Node) : Guards P Typing.run s
    (modify fun s => { s with scopes := s.scopes.define name n } : TypingM Unit) :=
  .modify' (fun h => h) (.refl _)

/-! ## Instances -/

theorem Context.exposes {e : Expr} {here : Surroundings} (h : Exposes P here e.yieldsAt)
    (hhere : here = .method → ctx.block.isSome = true) :
    Exposes P ctx.surroundings e.yieldsAt := by
  refine h.relabel fun heq => ?_
  unfold Context.surroundings
  rw [hhere heq]
  rfl

/-- Outside of method bodies, yields have no block in any context. -/
theorem Context.exposes_of_ne {e : Expr} {here : Surroundings} (hne : here ≠ .method)
    (h : Exposes P here e.yieldsAt) : Exposes P ctx.surroundings e.yieldsAt :=
  Context.exposes h fun heq => absurd heq hne

theorem guards_typeParameters (htyper : typer.Guards P) {ps : List Parameter}
    (hps : ∀ p ∈ ps, ∀ e ∈ p.fallback, Exposes P .fallback e.yieldsAt) (arguments : List Ty) :
    Guards P Typing.run s (RunM.typeParameters typer ctx place ps arguments) := by
  induction ps generalizing arguments s with
  | nil => exact .pure' ()
  | cons p ps ih =>
    have hrest := fun q hq => hps q (List.mem_cons_of_mem _ hq)
    -- what is done with the value of the first parameter, wherever it comes from
    have rest : ∀ (s' : Typing) (value : Node), Guards P Typing.run s' (do
        let var ← RunM.freshNode place
        RunM.bind var value
        modify fun s => { s with scopes := s.scopes.define p.name var }
        RunM.typeParameters typer ctx place ps arguments.tail : TypingM Unit) := fun s' value =>
      .bind' (guards_lift (guards_freshNode place)) fun var _ _ =>
        .bind' (guards_lift (guards_bind var value)) fun _ _ _ =>
          .bind' (guards_define p.name var) fun _ _ _ => ih hrest arguments.tail
    unfold RunM.typeParameters
    cases arguments with
    | cons t _ => exact .bind' (guards_lift (guards_sharedNode t)) fun n s' _ => rest s' n
    | nil =>
      cases hfallback : p.fallback with
      | some fallback =>
        have hexposed := hps p List.mem_cons_self fallback hfallback
        exact .bind' (htyper s ctx fallback (Context.exposes_of_ne (by decide) hexposed))
          fun n s' _ => rest s' n
      | none => exact .bind' (guards_lift (guards_fail (excused_fault _))) fun n s' _ => rest s' n

/-- The body of a definition is typed with a block exactly if it yields. -/
theorem guards_typeBody (htyper : typer.Guards P) {method : Method} {body : Expr} {flow : BodyFlow}
    (hmethod : method.Guarded P) (hbody : method.body = .code body)
    (hblock : flow.block.isSome = method.yields) :
    Guards P id r (RunM.typeBody typer owner method body arguments flow active) := by
  obtain ⟨hyields, hexposed⟩ := hmethod.code body hbody
  refine guards_catalog (guards_inFreshScopes ?_)
  refine .bind' (guards_typeParameters htyper hmethod.fallbacks arguments) fun _ s _ => ?_
  refine .bind' (htyper s _ body ?_) fun value _ _ => guards_lift (guards_bind flow.result value)
  by_cases howns : Owns body.yieldsAt
  · exact Context.exposes hexposed fun _ => (hblock.trans hyields).trans (body.yields_of_owns howns)
  · exact hexposed.of_not_owns howns

/-- The instance that a call makes is entered with the block that the call has. -/
theorem Run.Guarded.enterInstance (h : r.Guarded P) (key : Invocation) (n : Node)
    (hyields : key.site.isSome = (r.catalog.method key.method).yields)
    (hblock : ∀ site ∈ key.site, (r.site site).block.isSome = true) :
    Run.Guarded P { r with results := r.results.put key n } := by
  refine ⟨h.catalog, h.keyed, fun key' n' hn' => ?_⟩
  rcases Table.of_get?_put hn' with ⟨rfl, -⟩ | hn'
  · exact ⟨hyields, hblock⟩
  · exact h.results key' n' hn'

/-- The call that an instance is made for, if it has a block, goes on to have it. -/
theorem Run.Minds.isSome_block (h : r.Minds r₁) {other : Site}
    (hother : other ∈ (r.site site).block.map fun _ => site) :
    (r₁.site other).block.isSome = true := by
  obtain ⟨flow, hflow, rfl⟩ := Option.map_eq_some_iff.mp hother
  have hblock : (r.site site).block.isSome = true := hflow ▸ rfl
  rw [h.blocks site hblock]
  exact hblock

theorem guards_instantiateMethod (htyper : typer.Guards P)
    (hselected : (r.site site).block.isSome = (r.catalog.method selected).yields) :
    Guards P id r (RunM.instantiateMethod typer active site owner selected arguments) := by
  -- what holds of the new instance goes on to hold until it is entered
  have hlater : ∀ r₁ : Run, r.Minds r₁ →
      ((r.site site).block.map fun _ => site).isSome = (r₁.catalog.method selected).yields ∧
      ∀ other ∈ (r.site site).block.map fun _ => site, (r₁.site other).block.isSome = true :=
    fun r₁ hl => ⟨(Option.isSome_map.trans hselected).trans (by rw [hl.method]),
      fun _ => hl.isSome_block⟩
  unfold RunM.instantiateMethod
  refine guards_siteAt (.get' ?_)
  dsimp only
  split
  · exact .pure' _
  · refine guards_catalog ?_
    split
    · next b hbody =>
      refine .bind' (guards_ofExcept fun _ => excused_builtinType) fun t r₁ hl₁ => ?_
      refine .bind' (guards_sharedNode t) fun n r₂ hl₂ => ?_
      obtain ⟨hyields, hblock⟩ := hlater r₂ (hl₁.trans hl₂)
      refine .bind' (.modify' (fun h => h.enterInstance _ n hyields hblock) ⟨rfl, fun _ _ => rfl⟩)
        fun _ _ _ => .pure' n
    · next body hbody =>
      refine Discipline.Keeps.of_good fun hr => ?_
      refine Guards.bind' (guards_freshNode _) fun n r₁ hl₁ => ?_
      obtain ⟨hyields, hblock⟩ := hlater r₁ hl₁
      refine .bind' (.modify' (fun h => ?_) ⟨rfl, fun _ _ => rfl⟩) fun _ r₂ _ => ?_
      · have hentered := Run.Guarded.enterInstance h ⟨owner, selected, arguments, _⟩ n
          hyields hblock
        exact ⟨hentered.catalog, hentered.keyed, hentered.results⟩
      · refine .bind' (guards_framed ?_) fun _ _ _ => .pure' n
        exact guards_typeBody htyper (hr.catalog.methods selected) hbody hselected

/-- What a call selects at some time is instantiated for it at that time. -/
theorem guards_runInitializer (htyper : typer.Guards P) :
    Guards P id r (RunM.runInitializer typer active site owner arguments) := by
  unfold RunM.runInitializer
  refine guards_siteAt (guards_catalog ?_)
  split
  · next selected hselected =>
    refine .discard' (Discipline.Keeps.of_good fun hr => ?_)
    exact guards_instantiateMethod htyper (hr.keyed.yields_of_select hselected).symm
  · split
    · exact .pure' ()
    · exact guards_fail (excused_missError _ _ _ _ _ _)

/-! ## Calls -/

theorem guards_construct (htyper : typer.Guards P) :
    Guards P id r (RunM.construct typer active site t arguments) := by
  unfold RunM.construct
  refine guards_catalog ?_
  split
  · exact .bind' (guards_runInitializer htyper) fun _ _ _ => guards_sharedNode t
  · refine .get' ?_
    split
    · exact .pure' _
    · refine guards_siteAt (.bind' (guards_freshNode _) fun holder _ _ => ?_)
      refine .bind' (guards_modify fun _ => ⟨.refl _, rfl, rfl⟩) fun _ _ _ => ?_
      refine .bind' (guards_modifyGet fun r => ⟨.specialize r.catalog t [], rfl, rfl⟩) fun own _ _ => ?_
      refine .bind' (guards_runInitializer htyper) fun _ _ _ => .get' ?_
      exact .bind' (.discard' (guards_install t _ holder)) fun _ _ _ => .pure' holder

theorem guards_dispatch (htyper : typer.Guards P) :
    Guards P id r (RunM.dispatch typer active site owner arguments) := by
  unfold RunM.dispatch
  refine guards_siteAt (guards_catalog ?_)
  split
  · next self selected hdispatch =>
    refine Discipline.Keeps.of_good fun hr => ?_
    exact guards_instantiateMethod htyper
      (hr.keyed.yields_of_select (select_of_dispatch hdispatch)).symm
  · exact guards_construct htyper
  · exact guards_fail (excused_missError _ _ _ _ _ _)

theorem guards_dispatchAll (htyper : typer.Guards P) (combinations : List (Ty × List Ty))
    (targets : List Node) :
    Guards P id r (RunM.dispatchAll typer active site combinations targets) := by
  induction combinations generalizing targets r with
  | nil => exact .pure' targets
  | cons one rest ih => exact .bind' (guards_dispatch htyper) fun target _ _ => ih _

/-- A call that is bound anew keeps its block. -/
theorem Run.guards_retarget (r : Run) (site : Site) (targets : List Node) :
    (r.Guarded P → (RunM.retarget r site targets).Guarded P) ∧
      r.Minds (RunM.retarget r site targets) := by
  have hfold : ∀ (step : Run → Node → Run) (ns : List Node) (r₁ : Run), r.Spares r₁ →
      (∀ (r₂ : Run) (n : Node), r₂.Spares (step r₂ n)) → r.Spares (ns.foldl step r₁) :=
    fun step ns r₁ hr₁ hstep =>
      List.foldlRecOn ns step (motive := fun r₂ => r.Spares r₂) hr₁ fun r₂ hr₂ n _ =>
        hr₂.trans (hstep r₂ n)
  -- all but the targets of the call
  obtain ⟨r₁, hr₁, heq⟩ : ∃ r₁, r.Spares r₁ ∧ RunM.retarget r site targets =
      { r₁ with sites := r₁.sites.modify site.index fun call => { call with targets := targets } } :=
    ⟨_, hfold _ _ _ (hfold _ _ r (.refl r) fun r₂ n => r₂.spares_unbind _ n)
      fun r₂ n => r₂.spares_bind _ n, rfl⟩
  have hblock : ∀ other, ((RunM.retarget r site targets).site other).block =
      (r.site other).block := by
    intro other
    rw [heq, site_modify, ← hr₁.site other]
    split
    · next h => rw [h.1]
    · rfl
  rw [heq] at hblock ⊢
  refine ⟨fun h => ?_, ⟨hr₁.catalog.methods, fun other _ => hblock other⟩⟩
  have hspared := h.spares hr₁
  refine ⟨hspared.catalog, hspared.keyed, fun key n hn => ?_⟩
  obtain ⟨hyields, hblocks⟩ := hspared.results key n hn
  refine ⟨hyields, fun other hother => ?_⟩
  rw [hblock, ← hr₁.site]
  exact hblocks other hother

theorem guards_rebindCall (htyper : typer.Guards P) (site : Site) :
    Guards P id r (RunM.rebindCall typer active site) := by
  unfold RunM.rebindCall
  refine .get' ?_
  split
  · exact .pure' ()
  · next combinations _ =>
    refine .bind' (guards_dispatchAll htyper combinations []) fun targets r₁ _ => ?_
    exact .modify' (r₁.guards_retarget site targets).1 (r₁.guards_retarget (P := P) site targets).2

/-- The calls that were there keep their blocks. -/
theorem Run.minds_enterSite (r : Run) (call : CallSite) : r.Minds (r.enterSite call) := by
  refine ⟨rfl, fun site hblock => ?_⟩
  have hlt : site.index < r.sites.size := by
    refine Nat.lt_of_not_le fun hle => ?_
    unfold Run.site at hblock
    rw [Array.getElem?_eq_none hle] at hblock
    cases hblock
  rw [site_enterSite_old r call hlt]

theorem Run.Guarded.enterSite (h : r.Guarded P) (call : CallSite) : (r.enterSite call).Guarded P := by
  refine ⟨h.catalog, h.keyed, fun key n hn => ?_⟩
  obtain ⟨hyields, hblock⟩ := h.results key n hn
  refine ⟨hyields, fun site hsite => ?_⟩
  have hsite := hblock site hsite
  rwa [(r.minds_enterSite call).blocks site hsite]

theorem guards_enterCall (htyper : typer.Guards P) (call : CallSite) :
    Guards P id r (RunM.enterCall typer call) :=
  .bind' (.modifyGet' (fun h => h.enterSite call) (r.minds_enterSite call)) fun site _ _ =>
    guards_rebindCall htyper site

/-! ## Constants, slots and arrays -/

theorem guards_constantNode (htyper : typer.Guards P) (t : Ty) :
    Guards P id r (RunM.constantNode typer active t) := by
  unfold RunM.constantNode
  refine .get' ?_
  split
  · exact .pure' _
  · refine guards_catalog ?_
    split
    · next name container value hshape =>
      refine Discipline.Keeps.of_good fun hr => ?_
      have hexposed := hr.catalog.constants t name container value hshape
      refine Guards.bind' (guards_freshNode value.place) fun n _ _ => ?_
      refine .bind' (guards_modify fun _ => ⟨.refl _, rfl, rfl⟩) fun _ _ _ => ?_
      refine .bind' (guards_inFreshScopes (htyper _ _ value ?_)) fun v _ _ => ?_
      · exact Context.exposes_of_ne (by decide) hexposed
      · exact .bind' (guards_bind n v) fun _ _ _ => .pure' n
    · exact guards_fail (excused_fault _)

theorem guards_constantFor (htyper : typer.Guards P) (name : String) {value : Expr}
    (hvalue : Exposes P .constant value.yieldsAt) :
    Guards P id r (RunM.constantFor typer ctx name value) := by
  unfold RunM.constantFor
  refine guards_catalog ?_
  split
  · next known _ => exact guards_constantNode htyper known
  · refine .bind' (.modifyGet' (fun h => h.newConstant name ctx.home hvalue) ?_) fun t _ _ =>
      guards_constantNode htyper t
    exact ⟨(Sound.newConstant_extends r.catalog name value ctx.home).methods, fun _ _ => rfl⟩

theorem guards_pathNode (htyper : typer.Guards P) (path : List String) (place : Place) :
    Guards P id r (RunM.pathNode typer ctx path place) := by
  unfold RunM.pathNode
  refine guards_catalog (.bind' (guards_ofExcept fun _ => excused_lookUp (by decide)) fun t _ _ => ?_)
  split
  · exact guards_constantNode htyper t
  · split
    · exact guards_sharedNode _
    · exact guards_fail (excused_located fun name heq => by cases heq)

theorem guards_readSlot (owner : Ty) (name : String) (place : Place) :
    Guards P id r (RunM.readSlot owner name place) :=
  .bind' (guards_modify fun _ => ⟨.refl _, rfl, rfl⟩) fun _ _ _ => guards_slotNode owner name

theorem guards_joinNode (place : Place) (ds : List Node) :
    Guards P id r (RunM.joinNode place ds) :=
  .bind' (guards_freshNode place) fun n _ _ =>
    .bind' (.forM' (fun d _ => guards_bind n d) ds) fun _ _ _ => .pure' n

theorem guards_arrayNode (place : Place) (element : Node) :
    Guards P id r (RunM.arrayNode place element) :=
  .bind' (guards_freshAddress place) fun buffer _ _ => .bind' (guards_bind buffer element)
    fun _ _ _ => .bind' (guards_freshNode place) fun holder _ _ =>
      .bind' (.discard' (guards_install .array _ holder)) fun _ _ _ => .pure' holder

theorem guards_bindBlock (parameters arguments : List Node) :
    Guards P id r (RunM.bindBlock parameters arguments) := by
  induction parameters generalizing arguments r with
  | nil => exact .pure' ()
  | cons parameter parameters ih =>
    have rest : ∀ (r' : Run) (value : Node), Guards P id r' (do
        RunM.bind parameter value
        RunM.bindBlock parameters arguments.tail) := fun r' value =>
      .bind' (guards_bind parameter value) fun _ _ _ => ih arguments.tail
    unfold RunM.bindBlock
    cases arguments with
    | cons n ns => exact .bind' (.pure' n) fun value r' _ => rest r' value
    | nil => exact .bind' guards_sharedNil fun value r' _ => rest r' value

/-! ## Local variables and declarations -/

theorem guards_liftFail {e : TypingError} (h : e.Excused P) :
    Guards P Typing.run s (Typing.lift (RunM.fail e : RunM α)) := guards_lift (guards_fail h)

theorem guards_readVariable (name : String) (place : Place) :
    Guards P Typing.run s (TypingM.readVariable name place) := by
  unfold TypingM.readVariable
  refine .get' ?_
  split
  · exact .pure' _
  · exact guards_liftFail (excused_located fun name heq => by cases heq)

theorem guards_writtenVariable (name : String) :
    Guards P Typing.run s (TypingM.writtenVariable name) := by
  unfold TypingM.writtenVariable
  refine .get' ?_
  split
  · exact .pure' _
  · exact .bind' (guards_lift (guards_freshNode .synthesized)) fun n _ _ =>
      .bind' (guards_define name n) fun _ _ _ => .pure' n

theorem guards_assign (target : Target) (n : Node) :
    Guards P Typing.run s (TypingM.assign ctx target n) := by
  unfold TypingM.assign
  cases target with
  | localVar name =>
    exact .bind' (guards_writtenVariable name) fun var _ _ => guards_lift (guards_bind var n)
  | slot name =>
    exact .bind' (guards_lift (guards_slotNode ctx.receiver name)) fun slot _ _ =>
      guards_lift (guards_bind slot n)
  | constant name => exact .pure' ()

theorem guards_assignMissing (htyper : typer.Guards P) (targets : List Target) :
    Guards P Typing.run s (TypingM.assignMissing typer ctx mark targets) := by
  induction targets generalizing s with
  | nil => exact .pure' ()
  | cons target targets ih =>
    -- what is done for a target that is no constant
    have assigned : ∀ target : Target, Guards P Typing.run s (do
        TypingM.assign ctx target (← RunM.sharedNil)
        TypingM.assignMissing typer ctx mark targets) := fun target =>
      .bind' guards_nil fun value _ _ => .bind' (guards_assign target value) fun _ _ _ => ih
    cases target with
    | constant name =>
      exact .bind' (.discard' (guards_lift (guards_constantFor htyper name exposes_nil)))
        fun _ _ _ => ih
    | localVar name => exact assigned (.localVar name)
    | slot name => exact assigned (.slot name)

theorem guards_blockParameters (names : List String) :
    Guards P Typing.run s (TypingM.blockParameters place names) := by
  induction names generalizing s with
  | nil => exact .pure' []
  | cons name names ih =>
    exact .bind' (guards_lift (guards_freshNode place)) fun n _ _ =>
      .bind' (guards_define name n) fun _ _ _ => .bind' ih fun ns _ _ => .pure' (n :: ns)

theorem guards_record (n : Node) : Guards P Typing.run s (TypingM.record ctx mark n) := by
  unfold TypingM.record
  split
  · refine .bind' (.modify' (fun h => h.spares ?_) (Run.Spares.minds ?_)) fun _ _ _ => .pure' n
    · exact ⟨.refl _, rfl, rfl⟩
    · exact ⟨.refl _, rfl, rfl⟩
  · exact .pure' n

theorem guards_inDeclaration (name : String) {typeBody : Context → TypingM Node}
    (h : ∀ s' inner, Guards P Typing.run s' (typeBody inner)) :
    Guards P Typing.run s (TypingM.inDeclaration ctx name typeBody) := by
  unfold TypingM.inDeclaration
  refine guards_liftCatalog ?_
  refine .bind' (guards_lift (guards_ofExcept fun _ => excused_declared)) fun t _ _ => ?_
  exact .bind' (guards_lift (guards_inFreshScopes (h _ _))) fun _ _ _ => guards_nil

/-! ## Expressions -/

/-- An expression whose parts have been typed gets its node. -/
theorem guards_recorded {x : TypingM Node} (hx : Guards P Typing.run s x) :
    Guards P Typing.run s (x >>= TypingM.record ctx mark) :=
  .bind' hx fun n _ _ => guards_record n

/-- The value of an expression is assigned to a target that is no constant. -/
theorem guards_assignment {x : TypingM Node} (target : Target) (hx : Guards P Typing.run s x) :
    Guards P Typing.run s (do
      let n ← x
      TypingM.assign ctx target n
      TypingM.record ctx mark n) :=
  .bind' hx fun n _ _ => .bind' (guards_assign target n) fun _ _ _ => guards_record n

/-- The yields of a class or module have no block, in whatever context its body is typed. -/
theorem exposes_inner {inner : Context} {e : Expr}
    (h : Exposes P ctx.surroundings (YieldAt.nested .declaration e.yieldsAt)) :
    Exposes P inner.surroundings e.yieldsAt :=
  Context.exposes_of_ne (by decide) (exposes_nested.mp h)

mutual

theorem guards_nodeOf {typer : Typer} {ctx : Context} {s : Typing} (htyper : typer.Guards P)
    (e : Expr) (h : Exposes P ctx.surroundings e.yieldsAt) :
    Guards P Typing.run s (TypingM.nodeOf typer ctx e) := by
  cases e with
  | literal mark kind =>
    unfold TypingM.nodeOf
    exact guards_recorded (guards_lift (guards_sharedNode _))
  | localVar mark name =>
    unfold TypingM.nodeOf
    exact guards_recorded (guards_readVariable name mark.place)
  | slot mark name =>
    unfold TypingM.nodeOf
    exact guards_recorded (guards_lift (guards_readSlot _ name mark.place))
  | self mark =>
    unfold TypingM.nodeOf
    exact guards_recorded (guards_lift (guards_sharedNode _))
  | path mark names =>
    unfold TypingM.nodeOf
    exact guards_recorded (guards_lift (guards_pathNode htyper names mark.place))
  | assign mark target value =>
    cases target with
    | constant name =>
      unfold TypingM.nodeOf
      exact guards_recorded (guards_lift (guards_constantFor htyper name (exposes_nested.mp h)))
    | slot name =>
      unfold TypingM.nodeOf
      exact guards_assignment (.slot name) (guards_nodeOf htyper value h)
    | localVar name =>
      unfold TypingM.nodeOf
      exact guards_assignment (.localVar name) (guards_nodeOf htyper value h)
  | assignMany mark targets values =>
    unfold TypingM.nodeOf
    exact .bind' (guards_assignEach htyper targets values h) fun _ _ _ => guards_recorded guards_nil
  | sequence mark items =>
    unfold TypingM.nodeOf
    refine .bind' (guards_nodesOf htyper items h) fun ns _ _ => ?_
    split
    · exact guards_record _
    · exact guards_recorded guards_nil
  | branch mark condition accepted refused =>
    obtain ⟨hcondition, h⟩ := exposes_append.mp h
    obtain ⟨haccepted, hrefused⟩ := exposes_append.mp h
    unfold TypingM.nodeOf
    refine .bind' (guards_nodeOf htyper condition hcondition) fun _ _ _ => ?_
    refine .bind' (guards_nodeOf htyper accepted haccepted) fun a _ _ => ?_
    refine .bind' (guards_nodeOrNil htyper refused hrefused) fun b _ _ => ?_
    exact guards_recorded (guards_lift (guards_joinNode mark.place [a, b]))
  | loop mark condition body =>
    obtain ⟨hcondition, hbody⟩ := exposes_append.mp h
    unfold TypingM.nodeOf
    refine .bind' (guards_nodeOf htyper condition hcondition) fun _ _ _ => ?_
    exact .bind' (guards_nodeOf htyper body hbody) fun _ _ _ => guards_recorded guards_nil
  | call mark receiver name arguments block =>
    obtain ⟨hreceiver, h⟩ := exposes_append.mp h
    obtain ⟨harguments, hblock⟩ := exposes_append.mp h
    unfold TypingM.nodeOf
    refine .bind' (guards_nodeOfOption htyper receiver hreceiver) fun receiver _ _ => ?_
    refine .bind' (guards_nodesOf htyper arguments harguments) fun arguments _ _ => ?_
    refine .bind' (guards_blockOf htyper mark.place block hblock) fun block _ _ => ?_
    refine .bind' (guards_lift (guards_freshNode mark.place)) fun result _ _ => ?_
    exact .bind' (guards_lift (guards_enterCall htyper _)) fun _ _ _ => guards_record result
  | yielding mark arguments =>
    unfold TypingM.nodeOf
    split
    · next hnone =>
      -- without a block, the yield is one of those that are excused
      have hhere : ctx.surroundings ≠ .method := by
        unfold Context.surroundings
        rw [hnone]
        decide
      exact guards_liftFail fun name heq => ⟨mark, h.head hhere, rfl⟩
    · next block _ =>
      refine .bind' (guards_nodesOf htyper arguments h.tail) fun ns _ _ => ?_
      refine .bind' (guards_lift (guards_bindBlock block.parameters ns)) fun _ _ _ => ?_
      exact guards_recorded (guards_lift (guards_joinNode mark.place [block.result]))
  | returning mark value =>
    unfold TypingM.nodeOf
    refine .bind' (guards_nodeOrNil htyper value h) fun n s' _ => ?_
    -- the new node of the return itself
    have rest : ∀ s' : Typing, Guards P Typing.run s'
        (Typing.lift (RunM.freshNode mark.place) >>= TypingM.record ctx mark) := fun _ =>
      guards_recorded (guards_lift (guards_freshNode mark.place))
    split
    · next body _ =>
      exact .bind' (guards_lift (guards_bind body.result n)) fun _ s' _ => rest s'
    · exact rest s'
  | array mark elements of =>
    unfold TypingM.nodeOf
    refine .bind' (guards_lift (guards_freshNode mark.place)) fun element s' _ => ?_
    -- what follows the written type
    have rest : ∀ s' : Typing, Guards P Typing.run s' (do
        TypingM.typeElements typer ctx element elements
        TypingM.record ctx mark (← RunM.arrayNode mark.place element)) := fun _ =>
      .bind' (guards_typeElements htyper element elements h) fun _ _ _ =>
        guards_recorded (guards_lift (guards_arrayNode mark.place element))
    split
    · refine guards_liftCatalog ?_
      refine .bind' (guards_lift (guards_ofExcept fun _ => excused_writtenType)) fun t _ _ => ?_
      refine .bind' (guards_lift (guards_sharedNode t)) fun shared _ _ => ?_
      exact .bind' (guards_lift (guards_bind element shared)) fun _ s' _ => rest s'
    · exact rest s'
  | addressOf mark value =>
    unfold TypingM.nodeOf
    refine .bind' (guards_nodeOf htyper value h) fun n _ _ => ?_
    refine .bind' (guards_lift (guards_freshAddress mark.place)) fun address _ _ => ?_
    exact .bind' (guards_lift (guards_bind address n)) fun _ _ _ => guards_record address
  | classDef mark name superclass generic body =>
    unfold TypingM.nodeOf
    exact guards_recorded (guards_inDeclaration name fun s' inner =>
      guards_nodeOf htyper body (exposes_inner h))
  | moduleDef mark name body =>
    unfold TypingM.nodeOf
    exact guards_recorded (guards_inDeclaration name fun s' inner =>
      guards_nodeOf htyper body (exposes_inner h))
  | methodDef mark name onMetaclass params body =>
    unfold TypingM.nodeOf
    exact guards_recorded guards_nil
  | recordDef mark name fields =>
    unfold TypingM.nodeOf
    exact guards_recorded guards_nil
  | inclusion mark names =>
    unfold TypingM.nodeOf
    exact guards_recorded guards_nil

theorem guards_nodesOf {typer : Typer} {ctx : Context} {s : Typing} (htyper : typer.Guards P)
    (es : List Expr) (h : Exposes P ctx.surroundings (Expr.yieldsAtAll es)) :
    Guards P Typing.run s (TypingM.nodesOf typer ctx es) := by
  cases es with
  | nil => exact .pure' []
  | cons e rest =>
    obtain ⟨hfirst, hrest⟩ := exposes_append.mp h
    exact .bind' (guards_nodeOf htyper e hfirst) fun n _ _ =>
      .bind' (guards_nodesOf htyper rest hrest) fun ns _ _ => .pure' (n :: ns)

theorem guards_nodeOfOption {typer : Typer} {ctx : Context} {s : Typing} (htyper : typer.Guards P)
    (o : Option Expr) (h : Exposes P ctx.surroundings (Expr.yieldsAtOption o)) :
    Guards P Typing.run s (TypingM.nodeOfOption typer ctx o) := by
  cases o with
  | none => exact .pure' none
  | some e => exact .bind' (guards_nodeOf htyper e h) fun n _ _ => .pure' (some n)

theorem guards_nodeOrNil {typer : Typer} {ctx : Context} {s : Typing} (htyper : typer.Guards P)
    (o : Option Expr) (h : Exposes P ctx.surroundings (Expr.yieldsAtOption o)) :
    Guards P Typing.run s (TypingM.nodeOrNil typer ctx o) := by
  cases o with
  | none => exact guards_nil
  | some e => exact guards_nodeOf htyper e h

theorem guards_blockOf {typer : Typer} {ctx : Context} {s : Typing} (htyper : typer.Guards P)
    (place : Place) (block : Option (List String × Expr))
    (h : Exposes P ctx.surroundings (Expr.yieldsAtBlock block)) :
    Guards P Typing.run s (TypingM.blockOf typer ctx place block) := by
  cases block with
  | none => exact .pure' none
  | some block =>
    obtain ⟨names, body⟩ := block
    unfold TypingM.blockOf
    refine guards_inScope (.bind' (guards_blockParameters names) fun ns _ _ => ?_)
    exact .bind' (guards_nodeOf htyper body h) fun n _ _ => .pure' _

theorem guards_typeElements {typer : Typer} {ctx : Context} {s : Typing} (htyper : typer.Guards P)
    (element : Node) (es : List Expr) (h : Exposes P ctx.surroundings (Expr.yieldsAtAll es)) :
    Guards P Typing.run s (TypingM.typeElements typer ctx element es) := by
  cases es with
  | nil => exact .pure' ()
  | cons e rest =>
    obtain ⟨hfirst, hrest⟩ := exposes_append.mp h
    exact .bind' (guards_nodeOf htyper e hfirst) fun n _ _ =>
      .bind' (guards_lift (guards_bind element n)) fun _ _ _ =>
        guards_typeElements htyper element rest hrest

theorem guards_assignEach {typer : Typer} {ctx : Context} {mark : Mark} {s : Typing}
    (htyper : typer.Guards P) (targets : List Target) (es : List Expr)
    (h : Exposes P ctx.surroundings (Expr.yieldsAtEach targets es)) :
    Guards P Typing.run s (TypingM.assignEach typer ctx mark targets es) := by
  cases es with
  | nil =>
    unfold TypingM.assignEach
    exact guards_assignMissing htyper targets
  | cons e rest =>
    -- what is done for a target that is no constant
    have assigned : ∀ (target : Target) (targets : List Target),
        Exposes P ctx.surroundings e.yieldsAt →
        Exposes P ctx.surroundings (Expr.yieldsAtEach targets rest) →
        Guards P Typing.run s (do
          let n ← TypingM.nodeOf typer ctx e
          TypingM.assign ctx target n
          TypingM.assignEach typer ctx mark targets rest) := fun target targets hfirst hrest =>
      .bind' (guards_nodeOf htyper e hfirst) fun n _ _ =>
        .bind' (guards_assign target n) fun _ _ _ => guards_assignEach htyper targets rest hrest
    cases targets with
    | nil =>
      obtain ⟨hfirst, hrest⟩ := exposes_append.mp h
      unfold TypingM.assignEach
      exact .bind' (guards_nodeOf htyper e hfirst) fun _ _ _ => guards_assignEach htyper [] rest hrest
    | cons target targets =>
      cases target with
      | constant name =>
        obtain ⟨hfirst, hrest⟩ := exposes_append.mp h
        unfold TypingM.assignEach
        exact .bind' (guards_lift (guards_constantFor htyper name (exposes_nested.mp hfirst)))
          fun _ _ _ => guards_assignEach htyper targets rest hrest
      | slot name =>
        obtain ⟨hfirst, hrest⟩ := exposes_append.mp h
        exact assigned (.slot name) targets hfirst hrest
      | localVar name =>
        obtain ⟨hfirst, hrest⟩ := exposes_append.mp h
        exact assigned (.localVar name) targets hfirst hrest

end

/-- Typing with a bound on the nesting of bodies and constants stays guarded. -/
theorem guards_typerWithin (depth : Nat) : (TypingM.typerWithin depth).Guards P := by
  induction depth with
  | zero => exact fun _ _ _ _ => .throw' trivial
  | succ depth ih => exact fun _ _ e h => guards_nodeOf ih e h

end FlowTyping
