import FlowTyping.Proofs.Inference.Rounds
import FlowTyping.Proofs.Inference.Yielding

/-
  Blocks of a whole program

  What a program declares is guarded for the yields of the program that stand
  outside of the bodies of methods (`DeclareM.guards_declareProgram`). So is
  every state that its run comes through (`Attains.guarded`), and a check that
  fails for want of a block fails at one of these yields.
-/
namespace FlowTyping

open Catalog Steps

variable {P : Mark → Prop} {c : Catalog}

/-! ## Declarations -/

/-- Whether a method is one that no program text defines. -/
def Method.isBuiltin (m : Method) : Bool :=
  match m.body with
  | .builtin _ => !m.yields && m.parameters.all (·.fallback.isNone)
  | .code _ => false

theorem Method.guarded_of_isBuiltin {m : Method} (h : m.isBuiltin = true) : m.Guarded P := by
  unfold Method.isBuiltin at h
  cases hbody : m.body with
  | code body =>
    rw [hbody] at h
    cases h
  | builtin b =>
    rw [hbody, Bool.and_eq_true, Bool.not_eq_true', List.all_eq_true] at h
    refine ⟨fun _ _ => h.1, fun body heq => ?_, fun p hp e he => ?_⟩
    · rw [hbody] at heq
      cases heq
    · have hnone := h.2 p hp
      rw [he] at hnone
      cases hnone

namespace Catalog

/-- Types and methods that were never entered are no exception. -/
theorem guarded_of_entered (hshapes : ∀ s ∈ c.shapes.toList, s.isConstant = false)
    (hmethods : ∀ m ∈ c.methods.toList, m.isBuiltin = true) : c.Guarded P := by
  refine ⟨fun id => ?_, fun t name container value ht => ?_⟩
  · unfold method
    cases hm : c.methods[id.index]? with
    | none => exact Method.guarded_of_isBuiltin rfl
    | some m =>
      exact Method.guarded_of_isBuiltin
        (hmethods m (Array.mem_toList_iff.mpr (Array.mem_of_getElem? hm)))
  · rcases shape_mem_or_default c t with hmem | hle
    · have hnone := hshapes _ hmem
      rw [ht] at hnone
      cases hnone
    · rw [shape_of_size_le hle] at ht
      cases ht

theorem guarded_seeded : seeded.Guarded P :=
  guarded_of_entered (by decide +kernel) (by decide +kernel)

namespace Guarded

theorem defineMethod (h : c.Guarded P) {m : Method} (hm : m.Guarded P) :
    (c.defineMethod m).2.Guarded P := by
  have hpushed : Catalog.Guarded P { c with methods := c.methods.push m } := by
    refine ⟨fun id => ?_, h.constants⟩
    rw [Sound.method_push]
    split
    · exact hm
    · exact h.methods id
  unfold Catalog.defineMethod
  dsimp only
  split
  · exact hpushed.modifyClass _ _
  · exact hpushed

theorem defineBuiltin (h : c.Guarded P) (owner : Ty) (name : String) (builtin : Builtin)
    {parameters : List Parameter} (hparameters : parameters.all (·.fallback.isNone) = true) :
    (c.defineBuiltin owner name parameters builtin).Guarded P :=
  h.defineMethod (Method.guarded_of_isBuiltin hparameters)

theorem enterType (h : c.Guarded P) (table : ClassTable) {shape : ClassHandle → Shape}
    (hshape : ∀ k, (shape k).isConstant = false) : (c.enterType table shape).Guarded P := by
  have hpushed := h.push (s := shape ⟨c.classes.size⟩) (c.classes.push table) fun _ _ _ heq => by
    have hnone := hshape ⟨c.classes.size⟩
    rw [heq] at hnone
    cases hnone
  unfold Catalog.enterType
  dsimp only
  split
  · exact hpushed.enterName _ _ _
  · exact hpushed

theorem enterMetaclass (h : c.Guarded P) (t : Ty) (name : String) (container : Option Ty) :
    (c.enterMetaclass t name container).Guarded P := by
  have hpushed := h.push (s := .metaclass ⟨c.classes.size⟩ t)
    (c.classes.push (.bare (name ++ ":Class") container none)) nofun
  exact (hpushed.defineBuiltin t.next "name" (.fixed .string) rfl).defineBuiltin t.next
    "simple_name" (.fixed .string) rfl

/-- A class-like type is no constant. -/
theorem newClassLike (h : c.Guarded P) (name : String) (container superclass : Option Ty)
    {shape : ClassHandle → Shape} (hshape : ∀ k, (shape k).isConstant = false) :
    (c.newClassLike name container superclass shape).2.Guarded P :=
  (h.enterType _ hshape).enterMetaclass _ _ _

theorem newObject (h : c.Guarded P) (name : String) (superclass : Option Ty) (container : Ty)
    (generic : Bool) : (c.newObject name superclass container generic).2.Guarded P := by
  rw [newObject_eq]
  exact (h.newClassLike _ _ _ fun _ => rfl).defineBuiltin _ _ _ rfl

theorem newMixin (h : c.Guarded P) (name : String) (container : Option Ty) :
    (c.newMixin name container).2.Guarded P := h.newClassLike _ _ _ fun _ => rfl

theorem newRecord (h : c.Guarded P) (name : String) (fields : Table String Ty) (container : Ty) :
    (c.newRecord name fields container).2.Guarded P := by
  have hfields : ∀ (fields : List (String × Ty)) (t : Ty) {d : Catalog}, d.Guarded P →
      (fields.foldl (defineField t) d).Guarded P := by
    intro fields t
    induction fields with
    | nil => exact fun hd => hd
    | cons field fields ih =>
      exact fun hd => ih ((hd.defineBuiltin _ _ _ rfl).defineBuiltin _ _ _ rfl)
  rw [newRecord_eq]
  exact (hfields _ _ (h.newClassLike _ _ _ fun _ => rfl)).defineBuiltin _ _ _ rfl

theorem includeMixin (h : c.Guarded P) {t included : Ty} {c' : Catalog}
    (hincluded : c.includeMixin t included = .ok c') : c'.Guarded P := by
  unfold Catalog.includeMixin at hincluded
  split at hincluded
  · cases hincluded
  · split at hincluded
    · cases hincluded
    · cases hincluded
      exact h.modifyClass _ _

end Guarded

end Catalog

/-! ## The declarations of a program -/

namespace DeclareM

/-- The discipline of declarations whose yields are excused. -/
def guarding (P : Mark → Prop) : Discipline TypingError Catalog where
  Good c := c.Guarded P
  Leads _ _ := True
  Fails _ e _ := e.Excused P
  Enters _ _ := True
  refl _ _ := trivial
  trans _ _ _ _ _ := trivial
  fails _ _ _ _ _ h := h
  entersNothing _ := trivial
  entersMore _ _ _ _ _ := trivial

/-- A declaration that a guarded catalog stays guarded in. -/
def Guards {α : Type} (P : Mark → Prop) (c : Catalog) (act : DeclareM α) : Prop :=
  (guarding P).Keeps c act fun _ _ => True

variable {α : Type} {scope t : Ty} {place : Place} {e : TypingError} {mark : Mark}
  {here : Surroundings}

theorem guards_ofExcept {x : Except TypingError α} (h : ∀ e, x = .error e → e.Excused P) :
    (guarding P).Keeps c (ofExcept x) fun a _ => x = .ok a := by
  cases x with
  | ok a => exact .pure' fun _ => rfl
  | error e => exact .throw' fun _ => h e rfl

theorem guards_declare {f : Catalog → α × Catalog} (h : c.Guarded P → (f c).2.Guarded P) :
    Guards P c (modifyGet f) :=
  .modifyGet' (fun hc => ⟨h hc, trivial, trivial⟩) trivial

theorem guards_redeclare {f : Catalog → Catalog} (h : c.Guarded P → (f c).Guarded P) :
    Guards P c (modify f) :=
  .modify' (fun hc => ⟨h hc, trivial, trivial⟩) trivial

theorem guards_openClass (name : String) (superclass : Option (List String)) (generic : Bool) :
    Guards P c (openClass scope name superclass generic place) := by
  unfold openClass
  refine .get' ?_
  split
  · exact .pure' fun _ => trivial
  · have created : ∀ (c : Catalog) (parent : Ty),
        Guards P c (modifyGet (·.newObject name (some parent) scope generic)) :=
      fun c parent => guards_declare fun h => h.newObject _ _ _ _
    cases superclass with
    | some path =>
      exact .bind' (guards_ofExcept fun _ => excused_lookUp (by decide))
        fun parent _ _ _ _ => created _ parent
    | none => exact created c .object

theorem guards_openModule (name : String) : Guards P c (openModule scope name) := by
  unfold openModule
  refine .get' ?_
  split
  · exact .pure' fun _ => trivial
  · exact guards_declare fun h => h.newMixin _ _

theorem excused_fieldTypes {fields : List (String × TypeName)}
    (h : fieldTypes c scope place fields = .error e) : e.Excused P := by
  obtain ⟨field, -, hfield⟩ := mem_of_mapM_error h
  exact excused_writtenType (map_error.mp hfield)

theorem guards_enterRecord (name : String) (fields : List (String × TypeName)) :
    Guards P c (enterRecord scope name fields place) :=
  .get' (.bind' (guards_ofExcept fun _ => excused_fieldTypes) fun _ _ _ _ _ =>
    guards_redeclare fun h => h.newRecord _ _ _)

theorem excused_includedModule {path : List String}
    (h : includedModule c path scope place = .error e) : e.Excused P := by
  unfold includedModule at h
  cases hfound : c.lookUp path scope .moduleName place with
  | error e =>
    rw [hfound] at h
    cases h
    exact excused_lookUp (by decide) hfound
  | ok t =>
    rw [hfound] at h
    simp only [bind, Except.bind] at h
    split at h
    · cases h
    · cases h
      exact excused_located fun name heq => by cases heq

theorem excused_includeMixin {included : Ty} (h : c.includeMixin t included = .error e) :
    (e.withPlace place).Excused P := by
  unfold includeMixin at h
  split at h
  · cases h
    exact fun name heq => by cases heq
  · split at h
    · cases h
      exact fun name heq => by cases heq
    · cases h

theorem guards_enterInclusion (path : List String) :
    Guards P c (enterInclusion scope path place) := by
  unfold enterInclusion
  refine .get' (.bind' (guards_ofExcept fun _ => excused_includedModule) fun included c _ _ _ => ?_)
  refine .get' (.of_good fun hc => ?_)
  cases hmixin : c.includeMixin scope included with
  | error e => exact .throw' fun _ => excused_includeMixin hmixin
  | ok d => exact .of_ok rfl ⟨hc.includeMixin hmixin, trivial, trivial⟩ trivial

theorem guards_enterConstant (name : String) {value : Expr}
    (h : Exposes P .constant value.yieldsAt) : Guards P c (enterConstant scope name value) := by
  refine guards_redeclare fun hc => ?_
  split
  · exact hc
  · exact hc.newConstant _ _ h

theorem guards_enterConstants (targets : List Target) (values : List Expr)
    (h : Exposes P here (Expr.yieldsAtEach targets values)) :
    Guards P c (enterConstants scope mark targets values) := by
  induction targets generalizing c values with
  | nil => exact .pure' fun _ => trivial
  | cons target targets ih =>
    cases values with
    | nil =>
      -- what is missing is taken to be `nil`
      have hrest : Exposes P here (Expr.yieldsAtEach targets []) := by
        unfold Expr.yieldsAtEach
        exact exposes_nil
      cases target with
      | constant name => exact .bind' (guards_enterConstant name exposes_nil) fun _ _ _ _ _ => ih _ hrest
      | localVar _ => exact ih _ hrest
      | slot _ => exact ih _ hrest
    | cons value values =>
      cases target with
      | constant name =>
        obtain ⟨hvalue, hrest⟩ := exposes_append.mp h
        exact .bind' (guards_enterConstant name (exposes_nested.mp hvalue)) fun _ _ _ _ _ => ih _ hrest
      | localVar _ => exact ih _ (exposes_append.mp h).2
      | slot _ => exact ih _ (exposes_append.mp h).2

mutual

theorem guards_typePass {c : Catalog} {scope : Ty} {here : Surroundings} (e : Expr)
    (h : Exposes P here e.yieldsAt) : Guards P c (typePass scope e) := by
  cases e with
  | sequence mark items => exact guards_typePassAll items h
  | classDef mark name superclass generic body =>
    exact .bind' (guards_openClass name superclass generic) fun _ _ _ _ _ =>
      guards_typePass body (exposes_nested.mp h)
  | moduleDef mark name body =>
    exact .bind' (guards_openModule name) fun _ _ _ _ _ =>
      guards_typePass body (exposes_nested.mp h)
  | recordDef mark name fields => exact guards_enterRecord name fields
  | inclusion mark path => exact guards_enterInclusion path
  | assign mark target value =>
    cases target with
    | constant name => exact guards_enterConstant name (exposes_nested.mp h)
    | localVar _ => exact .pure' fun _ => trivial
    | slot _ => exact .pure' fun _ => trivial
  | assignMany mark targets values => exact guards_enterConstants targets values h
  | _ => exact .pure' fun _ => trivial

theorem guards_typePassAll {c : Catalog} {scope : Ty} {here : Surroundings} (items : List Expr)
    (h : Exposes P here (Expr.yieldsAtAll items)) : Guards P c (typePassAll scope items) := by
  cases items with
  | nil => exact .pure' fun _ => trivial
  | cons item rest =>
    obtain ⟨hitem, hrest⟩ := exposes_append.mp h
    exact .bind' (guards_typePass item hitem) fun _ _ _ _ _ => guards_typePassAll rest hrest

end

theorem excused_restriction {written : Option TypeName}
    (h : restriction c scope place written = .error e) : e.Excused P := by
  cases written with
  | none => cases h
  | some written =>
    cases written with
    | receiver => cases h
    | path path => exact excused_lookUp (by decide) (map_error.mp h)

theorem excused_parameters {written : List (WrittenParameter Expr)}
    (h : parameters c scope place written = .error e) : e.Excused P := by
  obtain ⟨w, -, hw⟩ := mem_of_mapM_error h
  exact excused_restriction (map_error.mp hw)

theorem excused_methodOwner {onMetaclass : Bool} (h : methodOwner c scope onMetaclass = .error e) :
    e.Excused P := by
  unfold methodOwner at h
  split at h
  · split at h
    · cases h
    · cases h
      exact excused_fault _
  · cases h

theorem exposes_default {written : List (WrittenParameter Expr)}
    (h : Exposes P here (Expr.yieldsAtDefaults written)) {w : WrittenParameter Expr}
    (hw : w ∈ written) {fallback : Expr} (hfallback : w.fallback = some fallback) :
    Exposes P .fallback fallback.yieldsAt := by
  induction written with
  | nil => cases hw
  | cons v written ih =>
    obtain ⟨hfirst, hrest⟩ := exposes_append.mp h
    rcases List.mem_cons.mp hw with rfl | hw
    · have hfirst := exposes_nested.mp hfirst
      rwa [hfallback] at hfirst
    · exact ih hrest hw

/-- A parameter has the default that is written. -/
theorem fallback_of_parameters {written : List (WrittenParameter Expr)} {ps : List Parameter}
    (h : parameters c scope place written = .ok ps) {p : Parameter} (hp : p ∈ ps) :
    ∃ w ∈ written, w.fallback = p.fallback := by
  obtain ⟨w, hw, heq⟩ := mem_of_mapM_ok h p hp
  obtain ⟨r, -, rfl⟩ := map_ok.mp heq
  exact ⟨w, hw, rfl⟩

theorem guards_enterMethodOf (name : String) (onMetaclass : Bool)
    {params : List (WrittenParameter Expr)} {body : Expr}
    (hparams : Exposes P here (Expr.yieldsAtDefaults params))
    (hbody : Exposes P .method body.yieldsAt) :
    Guards P c (enterMethodOf scope name onMetaclass params body place) := by
  unfold enterMethodOf
  refine .get' (.bind' (guards_ofExcept fun _ => excused_methodOwner) fun owner _ _ _ _ => ?_)
  refine .bind' (guards_ofExcept fun _ => excused_parameters) fun ps _ _ _ hps => ?_
  refine guards_redeclare fun hc => hc.defineMethod ⟨nofun, fun e he => ?_, fun p hp e he => ?_⟩
  · cases he
    exact ⟨rfl, hbody⟩
  · obtain ⟨w, hw, heq⟩ := fallback_of_parameters hps hp
    exact exposes_default hparams hw (heq.trans he)

/-- What the method pass does in a class or module. -/
theorem guards_inDeclared (name : String) {f : Ty → DeclareM Unit}
    (h : ∀ (d : Catalog) t, Guards P d (f t)) :
    Guards P c (do f (← ofExcept ((← get).declared scope name))) :=
  .get' (.bind' (guards_ofExcept fun _ => excused_declared) fun t d _ _ _ => h d t)

mutual

theorem guards_methodPass {c : Catalog} {scope : Ty} {here : Surroundings} (e : Expr)
    (h : Exposes P here e.yieldsAt) : Guards P c (methodPass scope e) := by
  cases e with
  | sequence mark items => exact guards_methodPassAll items h
  | classDef mark name superclass generic body =>
    exact guards_inDeclared name fun _ _ => guards_methodPass body (exposes_nested.mp h)
  | moduleDef mark name body =>
    exact guards_inDeclared name fun _ _ => guards_methodPass body (exposes_nested.mp h)
  | methodDef mark name onMetaclass params body =>
    obtain ⟨hparams, hbody⟩ := exposes_append.mp h
    exact guards_enterMethodOf name onMetaclass hparams (exposes_nested.mp hbody)
  | _ => exact .pure' fun _ => trivial

theorem guards_methodPassAll {c : Catalog} {scope : Ty} {here : Surroundings} (items : List Expr)
    (h : Exposes P here (Expr.yieldsAtAll items)) : Guards P c (methodPassAll scope items) := by
  cases items with
  | nil => exact .pure' fun _ => trivial
  | cons item rest =>
    obtain ⟨hitem, hrest⟩ := exposes_append.mp h
    exact .bind' (guards_methodPass item hitem) fun _ _ _ _ _ => guards_methodPassAll rest hrest

end

theorem guards_declareProgram (program : Expr) :
    Guards program.Unenclosed c (declareProgram program) :=
  .bind' (guards_typePass program program.exposes_program) fun _ _ _ _ _ =>
    guards_methodPass program program.exposes_program

end DeclareM

/-! ## Settling -/

variable {typer : Typer} {options : Options} {program : Expr} {r : Run} {site : Site}

theorem guards_inFramesOf {α : Type} {act : RunM α} (h : Guards P id r act) :
    Guards P id r (RunM.inFramesOf site act) := by
  intro hr
  obtain ⟨hok, herror, henters⟩ := h hr
  -- an error keeps its origin within any number of frames
  have hwrapped : ∀ (frames : List Frame) (e : TypingError), e.Excused P →
      (frames.foldl (fun e frame => e.instantiating frame.signature frame.place) e).Excused P := by
    intro frames
    induction frames with
    | nil => exact fun e he => he
    | cons frame frames ih => exact fun e he => ih _ (excused_instantiating he frame.signature)
  refine ⟨fun a r' hact => ?_, fun halt r' hact => ?_, ?_⟩
  · exact hok a r' (inFramesOf_ok hact)
  · unfold RunM.inFramesOf at hact
    split at hact
    · next e r₁ hfail =>
      cases hact
      exact hwrapped _ e (herror _ _ hfail)
    · exact herror halt r' hact
  · rw [left_inFramesOf]
    exact henters

theorem guards_wake (htyper : typer.Guards P) (w : Wake) :
    Guards P id r (RunM.wake typer options w) := by
  cases w with
  | site site => exact guards_inFramesOf (guards_rebindCall htyper site)
  | provisional t =>
    exact guards_onStore (Store.preserves_refresh _ _ _) fun _ _ => Store.refresh_fails

theorem guards_propagate : Guards P id r (RunM.onStore Store.propagate) :=
  guards_onStore (Store.preserves_propagate _) fun _ _ => Store.propagate_fails

theorem guards_settleWithin (htyper : typer.Guards P) (rounds : Nat) :
    Guards P id r (RunM.settleWithin typer options rounds) := by
  induction rounds generalizing r with
  | zero => exact .throw' trivial
  | succ rounds ih =>
    unfold RunM.settleWithin
    refine .bind' guards_propagate fun wakes _ _ => ?_
    split
    · exact .pure' ()
    · exact .bind' (.forM' (fun w _ => guards_wake htyper w) wakes) fun _ _ _ => ih

theorem guards_typeProgram (htyper : typer.Guards program.Unenclosed) :
    Guards program.Unenclosed id r (RunM.typeProgram typer program) :=
  guards_inFreshScopes (htyper _ _ program program.exposes_program)

theorem guards_settleProgram (options : Options) (program : Expr) :
    Guards program.Unenclosed id r (RunM.settleProgram options program) := by
  have htyper := guards_typerWithin (P := program.Unenclosed) options.depthLimit
  refine .bind' (guards_typeProgram htyper) fun n _ _ => ?_
  exact .bind' (.get' (guards_settleWithin htyper _)) fun _ _ _ => .pure' n

/-- A run begins without instances. -/
theorem Run.guarded_start (hdeclare : DeclareM.declareProgram program .seeded = .ok () c)
    (options : Options) : (Run.start c options).Guarded program.Unenclosed where
  catalog := ((DeclareM.guards_declareProgram program guarded_seeded).ok () c hdeclare).1
  keyed := ((DeclareM.declareProgram_declares hdeclare).callable callable_seeded).keyed
  results _ _ hn := by cases hn

variable {taken : Nat} {waiting : Option (List Wake)}

/-- All states of a run are guarded, also those in which it stops. -/
theorem Attains.guarded (h : Attains options program taken waiting r) :
    r.Guarded program.Unenclosed := by
  have htyper := guards_typerWithin (P := program.Unenclosed) options.depthLimit
  induction h with
  | @typed c n r hdeclare h =>
    exact ((guards_typeProgram htyper (Run.guarded_start hdeclare options)).ok n r h).1
  | @untyped c halt r hdeclare h =>
    have hstart := Run.guarded_start hdeclare options
    have henters : (left (RunM.typeProgram _ program (.start c options))).Guarded _ :=
      (guards_typeProgram htyper hstart).enters hstart
    rwa [h] at henters
  | @propagated taken r wakes s _ h ih =>
    exact (guards_propagate ih).ok wakes _ (onStore_ok.mpr ⟨s, h, rfl⟩) |>.1
  | @exhausted taken r e s _ h ih =>
    have henters := (guards_propagate ih).enters ih
    rwa [onStore_error.mpr ⟨e, s, h, rfl, rfl⟩] at henters
  | @reacted taken r r' w wakes _ h ih => exact ((guards_wake htyper w ih).ok () r' h).1
  | @stopped taken r r' w wakes halt _ h ih =>
    have henters : (left (RunM.wake _ options w r)).Guarded _ := (guards_wake htyper w ih).enters ih
    rwa [h] at henters

theorem excused_of_defect {e : TypingError} (h : r.defect = some e) : e.Excused P := by
  unfold Run.defect at h
  split at h
  · cases h
    exact excused_located fun name heq => by cases heq
  · split at h
    · cases h
    · cases h
      exact excused_fault _

/-- A check that fails for want of a block does so at a yield outside of all method bodies. -/
theorem excused_of_check {e : TypingError} (h : check program options = .error (.failed e)) :
    e.Excused program.Unenclosed := by
  unfold check at h
  cases hdeclare : DeclareM.declareProgram program .seeded with
  | error e' c =>
    rw [hdeclare] at h
    cases h
    exact (DeclareM.guards_declareProgram program guarded_seeded).error _ c hdeclare
  | ok u c =>
    rw [hdeclare] at h
    dsimp only at h
    cases hcheck : RunM.checkDeclared options program (.start c options) with
    | ok checked r => rw [hcheck] at h; cases h
    | error halt r =>
      rw [hcheck] at h
      cases h
      have hsettle := guards_settleProgram options program (Run.guarded_start hdeclare options)
      rcases checkDeclared_error hcheck with hstopped | ⟨result, r', e', -, hdefect, heq⟩
      · exact hsettle.error _ r hstopped
      · cases heq
        exact excused_of_defect hdefect

/-! ## Instances and calls -/

/-- Whether what a definition stands for yields. What no program text defines does not. -/
def Body.yields : Body → Bool
  | .builtin _ => false
  | .code body => body.yields

theorem Method.Guarded.yields_body {m : Method} (h : m.Guarded P) : m.body.yields = m.yields := by
  cases hbody : m.body with
  | builtin b => exact (h.builtin b hbody).symm
  | code body => exact (h.code body hbody).1.symm

/-- Yields find a block. A check that fails for want of one does so at a yield in top-level code, in
the body of a class or module, in the value of a constant or in the default of a parameter, so a
yield in the body of a definition finds one while an instance of it is typed. For in every state
that a run comes through, also where it stops, an instance of a definition whose body yields was
made for a call with a block, and one of any other definition for a call without; and a call uses
only definitions of its own kind, as methods and as initializers. -/
theorem yields_find_blocks (program : Expr) (options : Options) :
    (∀ e name, check program options = .error (.failed e) →
      e.origin.problem = .unresolved .block name →
      ∃ s mark, s ≠ Surroundings.method ∧ (s, mark) ∈ program.yieldsIn ∧
        e.origin = .located (.unresolved .block "yield") mark.place) ∧
    ∀ taken waiting r, Attains options program taken waiting r →
      (∀ key n, r.results.get? key = some n →
        key.site.isSome = (r.catalog.method key.method).body.yields ∧
        ∀ site ∈ key.site, (r.site site).block.isSome = true) ∧
      ∀ call owner arguments self id, r.catalog.Uses call owner arguments self id →
        call.block.isSome = (r.catalog.method id).body.yields := by
  refine ⟨fun e name h hproblem => ?_, fun taken waiting r h => ?_⟩
  · obtain ⟨mark, ⟨s, hne, hmem⟩, horigin⟩ := excused_of_check h name hproblem
    exact ⟨s, mark, hne, hmem, horigin⟩
  · have hguarded := h.guarded
    refine ⟨fun key n hn => ?_, fun call owner arguments self id huses => ?_⟩
    · obtain ⟨hyields, hblock⟩ := hguarded.results key n hn
      exact ⟨hyields.trans (hguarded.catalog.methods key.method).yields_body.symm, hblock⟩
    · rw [(hguarded.catalog.methods id).yields_body]
      exact (hguarded.keyed.yields_of_uses huses).symm

section
open Sample

/-- A method that yields is called with a block. -/
def calledWithBlock : Expr := lines [
  method "each" [] (.yielding mark [int]),
  .call mark none "each" [] (some (["x"], var "x"))]

/-- And there is a yield outside of it. -/
def yieldsAtTop : Expr := lines [calledWithBlock, .yielding ⟨1, .synthesized⟩ []]

end

theorem yieldsAtTop_stops : (stoppedRun yieldsAtTop ⟨100, 5, 8, 5⟩).any (fun (e, _) =>
    e.origin.problem == .unresolved .block "yield") = true := by
  decide +kernel

theorem calledWithBlock_instantiates : (settledRun calledWithBlock ⟨100, 5, 8, 5⟩).any (fun (_, r) =>
    r.results.entries.any fun entry => (r.results.get? entry.1).isSome && entry.1.site.isSome &&
      r.catalog.dispatch (r.site ⟨0⟩) .main [] == .method .main entry.1.method) = true := by
  decide +kernel

/-- The method that yields is instantiated for the call with a block, which uses it. The yield
outside of it fails. -/
theorem yields_find_blocks_called :
    (∃ e s mark, check yieldsAtTop ⟨100, 5, 8, 5⟩ = .error (.failed e) ∧
      s ≠ Surroundings.method ∧ (s, mark) ∈ yieldsAtTop.yieldsIn ∧
      e.origin = .located (.unresolved .block "yield") mark.place) ∧
    ∃ taken r key n, Attains ⟨100, 5, 8, 5⟩ calledWithBlock taken (some []) r ∧
      r.results.get? key = some n ∧ (r.catalog.method key.method).body.yields = true ∧
      (r.site ⟨0⟩).block.isSome = true := by
  constructor
  · obtain ⟨⟨e, t⟩, hstopped, hproblem⟩ := Option.any_eq_true _ _ |>.mp yieldsAtTop_stops
    have hcheck := check_of_stoppedRun hstopped
    obtain ⟨s, mark, hne, hmem, horigin⟩ :=
      (yields_find_blocks yieldsAtTop ⟨100, 5, 8, 5⟩).1 e _ hcheck (beq_iff_eq.mp hproblem)
    exact ⟨e, s, mark, hcheck, hne, hmem, horigin⟩
  · obtain ⟨⟨n, r⟩, hsettled, hany⟩ := Option.any_eq_true _ _ |>.mp calledWithBlock_instantiates
    obtain ⟨⟨key, value⟩, -, hentry⟩ := List.any_eq_true.mp hany
    simp only [Bool.and_eq_true, beq_iff_eq, Option.isSome_iff_exists] at hentry
    obtain ⟨⟨⟨value', hget⟩, ⟨site, hsite⟩⟩, hdispatch⟩ := hentry
    obtain ⟨taken, hattains⟩ := (settles_of_settledRun hsettled).attains
    obtain ⟨hresults, hcalls⟩ :=
      (yields_find_blocks calledWithBlock ⟨100, 5, 8, 5⟩).2 _ _ _ hattains
    have hyields := (hresults key value' hget).1
    rw [hsite] at hyields
    have hblock := hcalls (r.site ⟨0⟩) .main [] .main key.method (.inl hdispatch)
    exact ⟨taken, r, key, value', hattains, hget, hyields.symm, hblock.trans hyields.symm⟩

end FlowTyping
