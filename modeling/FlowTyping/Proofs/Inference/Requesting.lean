import FlowTyping.Proofs.Catalog.Contained
import FlowTyping.Proofs.Inference.Declare

/-
  The declaration passes are requests

  Whatever a program declares, it declares by requests about types that are
  entered, one after the other, up to the end of the passes or to the first
  declaration that fails (`develops_declareProgram`).
-/
namespace FlowTyping

namespace Catalog

/-- Requests about entered types, in any number and order. -/
def Requests : Catalog → Catalog → Prop :=
  Relation.ReflTransGen fun c c' => ∃ r, c.Knows r ∧ c.perform r = c'

/-- The second catalog is contained and comes from the first one by requests. -/
structure Develops (c c' : Catalog) : Prop extends c.Carries 0 0 c' where
  requests : c.Requests c'

variable {c c' c'' : Catalog} {t : Ty}

namespace Develops

theorem refl (h : c.Contained 0 0) : c.Develops c := ⟨.refl h, .refl⟩

theorem trans (h : c.Develops c') (h' : c'.Develops c'') : c.Develops c'' :=
  ⟨h.toCarries.trans h'.toCarries, h.requests.trans h'.requests⟩

theorem type (h : c.Develops c') (ht : t.index < c.size) : t.index < c'.size :=
  Nat.lt_of_lt_of_le ht h.grown.types

end Develops

theorem Contained.develops (h : c.Contained 0 0) (r : Request) (hr : c.Knows r) :
    c.Develops (c.perform r) :=
  ⟨h.perform hr, .single ⟨r, hr, rfl⟩⟩

end Catalog

namespace DeclareM

open Steps Catalog

/-- The discipline of declarations that are requests. -/
def requesting : Discipline TypingError Catalog where
  Good := Contained 0 0
  Leads := Develops
  Fails _ _ _ := True
  Enters c c' := c.Contained 0 0 → c.Develops c'
  refl _ h := .refl h
  trans _ _ _ h h' := h.trans h'
  fails _ _ _ _ _ h := h
  entersNothing _ h := .refl h
  entersMore _ _ _ h h' hc := (h hc).trans (h' (h hc).contained)

variable {α β : Type} {c c' : Catalog} {scope t : Ty} {place : Place}

theorem requests_ofExcept (x : Except TypingError α) :
    requesting.Keeps c (ofExcept x) fun a c' => c = c' ∧ x = .ok a := by
  cases x with
  | ok a => exact .pure' fun _ => ⟨rfl, rfl⟩
  | error e => exact .throw' fun _ => trivial

theorem requests_modify {f : Catalog → Catalog} (h : c.Contained 0 0 → c.Develops (f c)) :
    requesting.Keeps c (modify f) fun _ _ => True :=
  .modify' (fun hc => ⟨(h hc).contained, h hc, trivial⟩) h

theorem requests_modifyGet {f : Catalog → α × Catalog} {post : α → Catalog → Prop}
    (h : c.Contained 0 0 → c.Develops (f c).2 ∧ post (f c).1 (f c).2) :
    requesting.Keeps c (modifyGet f) post :=
  .modifyGet' (fun hc => ⟨(h hc).1.contained, h hc⟩) fun hc => (h hc).1

/-! ## The type pass -/

theorem requests_openClass (hscope : scope.index < c.size) {name : String}
    {superclass : Option (List String)} {generic : Bool} :
    requesting.Keeps c (openClass scope name superclass generic place) fun t c' =>
      t.index < c'.size := by
  unfold openClass
  refine .get' ?_
  cases hknown : c.nestedType scope name with
  | some known => exact .pure' fun hc => Within.lt_of_nestedType hc hknown
  | none =>
    -- whichever the superclass is, the class is made below it
    have created : ∀ {parent : Ty}, parent.index < c.size →
        requesting.Keeps c (modifyGet (·.newObject name (some parent) scope generic))
          fun t c' => t.index < c'.size := by
      intro parent hparent
      refine requests_modifyGet fun hc => ?_
      refine ⟨hc.develops (.object name (some parent) scope generic) ?_, ?_⟩
      · simpa [Knows, Request.mentions] using ⟨hparent, hscope⟩
      · rw [Contained.size_newObject]
        exact Nat.lt_add_of_pos_right (by decide)
    cases superclass with
    | some path =>
      refine .bind' (requests_ofExcept _) ?_
      rintro parent _ hc - ⟨rfl, hfound⟩
      exact created (Within.lt_of_lookUp hc (Nat.le_refl _) hscope hfound)
    | none => exact .of_good fun hc => created (hc.builtin (by decide))

theorem requests_openModule (hscope : scope.index < c.size) {name : String} :
    requesting.Keeps c (openModule scope name) fun t c' => t.index < c'.size := by
  unfold openModule
  refine .get' ?_
  cases hknown : c.nestedType scope name with
  | some known => exact .pure' fun hc => Within.lt_of_nestedType hc hknown
  | none =>
    refine requests_modifyGet fun hc => ⟨hc.develops (.mixin name (some scope)) ?_, ?_⟩
    · simpa [Knows, Request.mentions] using hscope
    · unfold newMixin
      rw [Contained.size_newClassLike]
      exact Nat.lt_add_of_pos_right (by decide)

theorem requests_enterRecord (hscope : scope.index < c.size) {name : String}
    {fields : List (String × TypeName)} :
    requesting.Keeps c (enterRecord scope name fields place) fun _ _ => True := by
  unfold enterRecord
  refine .get' (.bind' (requests_ofExcept _) ?_)
  rintro types _ hc - ⟨rfl, htypes⟩
  refine requests_modify fun hc => hc.develops (.record name types scope) fun u hu => ?_
  rcases List.mem_append.mp hu with hu | hu
  · obtain ⟨field, hfield, rfl⟩ := List.mem_map.mp hu
    obtain ⟨written, -, hwritten⟩ := mem_of_mapM_ok htypes field hfield
    obtain ⟨v, hv, rfl⟩ := map_ok.mp hwritten
    exact Within.lt_of_writtenType hc (Nat.le_refl _) hscope (fun r hr => by cases hr) hv
  · obtain rfl := List.mem_singleton.mp hu
    exact hscope

theorem lookUp_of_includedModule {path : List String}
    (h : includedModule c path scope place = .ok t) :
    c.lookUp path scope .moduleName place = .ok t := by
  unfold includedModule at h
  cases hfound : c.lookUp path scope .moduleName place with
  | error e => rw [hfound] at h; cases h
  | ok v =>
    rw [hfound] at h
    simp only [bind, Except.bind] at h
    split at h <;> cases h
    rfl

theorem requests_enterInclusion (hscope : scope.index < c.size) {path : List String} :
    requesting.Keeps c (enterInclusion scope path place) fun _ _ => True := by
  unfold enterInclusion
  refine .get' (.bind' (requests_ofExcept _) ?_)
  rintro included _ hc - ⟨rfl, hincluded⟩
  refine .get' ?_
  cases hmixin : c.includeMixin scope included with
  | error e => exact .throw' fun _ => trivial
  | ok d =>
    have hknown := Within.lt_of_lookUp hc (Nat.le_refl _) hscope (lookUp_of_includedModule hincluded)
    have hdevelops := hc.develops (.inclusion scope included)
      (by simpa [Knows, Request.mentions] using ⟨hscope, hknown⟩)
    have hperform : c.perform (.inclusion scope included) = d := by
      show (c.includeMixin scope included).toOption.getD c = d
      rw [hmixin]
      rfl
    rw [hperform] at hdevelops
    exact .of_ok rfl ⟨hdevelops.contained, hdevelops, trivial⟩ fun _ => hdevelops

theorem requests_enterConstant (hscope : scope.index < c.size) {name : String} {value : Expr} :
    requesting.Keeps c (enterConstant scope name value) fun _ _ => True := by
  refine requests_modify fun hc => ?_
  split
  · exact .refl hc
  · refine hc.develops (.constant name value scope) fun u hu => ?_
    obtain rfl := List.mem_singleton.mp hu
    exact hscope

theorem requests_enterConstants (hscope : scope.index < c.size) {mark : Mark}
    {targets : List Target} {values : List Expr} :
    requesting.Keeps c (enterConstants scope mark targets values) fun _ _ => True := by
  induction targets generalizing c values with
  | nil => exact .pure' fun _ => trivial
  | cons target targets ih =>
    cases target with
    | constant name =>
      exact .bind' (requests_enterConstant hscope) fun _ _ _ hl _ => ih (hl.type hscope)
    | localVar _ => exact ih hscope
    | slot _ => exact ih hscope

mutual

theorem requests_typePass {c : Catalog} {scope : Ty} (hscope : scope.index < c.size) (e : Expr) :
    requesting.Keeps c (typePass scope e) fun _ _ => True := by
  cases e with
  | sequence mark items => exact requests_typePassAll hscope items
  | classDef mark name superclass generic body =>
    exact .bind' (requests_openClass hscope) fun _ _ _ _ ht => requests_typePass ht body
  | moduleDef mark name body =>
    exact .bind' (requests_openModule hscope) fun _ _ _ _ ht => requests_typePass ht body
  | recordDef mark name fields => exact requests_enterRecord hscope
  | inclusion mark path => exact requests_enterInclusion hscope
  | assign mark target value =>
    cases target with
    | constant name => exact requests_enterConstant hscope
    | localVar _ => exact .pure' fun _ => trivial
    | slot _ => exact .pure' fun _ => trivial
  | assignMany mark targets values => exact requests_enterConstants hscope
  | _ => exact .pure' fun _ => trivial

theorem requests_typePassAll {c : Catalog} {scope : Ty} (hscope : scope.index < c.size)
    (items : List Expr) : requesting.Keeps c (typePassAll scope items) fun _ _ => True := by
  cases items with
  | nil => exact .pure' fun _ => trivial
  | cons item rest =>
    exact .bind' (requests_typePass hscope item) fun _ _ _ hl _ =>
      requests_typePassAll (hl.type hscope) rest

end

/-! ## The method pass -/

theorem lt_of_parameters (hc : c.Contained 0 0) (hscope : scope.index < c.size)
    {written : List (WrittenParameter Expr)} {ps : List Parameter}
    (h : parameters c scope place written = .ok ps) :
    ∀ v ∈ restrictedTypes (ps.map (·.restriction)), v.index < c.size := by
  intro v hv
  obtain ⟨p, hp, heq⟩ := List.mem_map.mp (Sound.mem_restrictedTypes.mp hv)
  obtain ⟨w, -, hw⟩ := mem_of_mapM_ok h p hp
  obtain ⟨r, hr, rfl⟩ := map_ok.mp hw
  obtain rfl : r = some (.type v) := heq
  cases hwritten : w.type with
  | none => rw [hwritten] at hr; cases hr
  | some written =>
    rw [hwritten] at hr
    cases written with
    | receiver => cases hr
    | path path =>
      obtain ⟨found, hfound, heq⟩ := map_ok.mp hr
      cases heq
      exact Within.lt_of_lookUp hc (Nat.le_refl _) hscope hfound

theorem lt_of_methodOwner (hscope : scope.index < c.size) {onMetaclass : Bool}
    (h : methodOwner c scope onMetaclass = .ok t) : t.index < c.size := by
  unfold methodOwner at h
  split at h
  · split at h
    · next v hv =>
      cases h
      exact (definite_of_metaclass? hv).1
    · cases h
  · cases h
    exact hscope

theorem requests_enterMethodOf (hscope : scope.index < c.size) {name : String} {onMetaclass : Bool}
    {params : List (WrittenParameter Expr)} {body : Expr} :
    requesting.Keeps c (enterMethodOf scope name onMetaclass params body place)
      fun _ _ => True := by
  unfold enterMethodOf
  refine .get' (.bind' (requests_ofExcept _) ?_)
  rintro owner _ - - ⟨rfl, howner⟩
  refine .bind' (requests_ofExcept _) ?_
  rintro ps _ hc - ⟨rfl, hps⟩
  refine requests_modify fun hc => hc.develops
    (.method ⟨name, owner, ps, body.yields, .code body, place⟩) fun v hv => ?_
  rcases List.mem_append.mp hv with hv | hv
  · rcases List.mem_cons.mp hv with rfl | hv
    · exact lt_of_methodOwner hscope howner
    · exact lt_of_parameters hc hscope hps v hv
  · cases hv

/-- What the method pass does in a class or module. -/
theorem requests_inDeclared {name : String} {f : Ty → DeclareM β} {post : β → Catalog → Prop}
    (h : ∀ t, t.index < c.size → requesting.Keeps c (f t) post) :
    requesting.Keeps c (do f (← ofExcept ((← get).declared scope name))) post := by
  refine .get' (.bind' (requests_ofExcept _) ?_)
  rintro t _ hc - ⟨rfl, ht⟩
  exact h t (Within.lt_of_declared hc ht)

mutual

theorem requests_methodPass {c : Catalog} {scope : Ty} (hscope : scope.index < c.size) (e : Expr) :
    requesting.Keeps c (methodPass scope e) fun _ _ => True := by
  cases e with
  | sequence mark items => exact requests_methodPassAll hscope items
  | classDef mark name superclass generic body =>
    exact requests_inDeclared fun t ht => requests_methodPass ht body
  | moduleDef mark name body => exact requests_inDeclared fun t ht => requests_methodPass ht body
  | methodDef mark name onMetaclass params body => exact requests_enterMethodOf hscope
  | _ => exact .pure' fun _ => trivial

theorem requests_methodPassAll {c : Catalog} {scope : Ty} (hscope : scope.index < c.size)
    (items : List Expr) : requesting.Keeps c (methodPassAll scope items) fun _ _ => True := by
  cases items with
  | nil => exact .pure' fun _ => trivial
  | cons item rest =>
    exact .bind' (requests_methodPass hscope item) fun _ _ _ hl _ =>
      requests_methodPassAll (hl.type hscope) rest

end

/-- The declarations of a program are requests, on top of the built-in types. -/
theorem develops_declareProgram (program : Expr) :
    seeded.Develops (left (declareProgram program .seeded)) := by
  have hseeded := contained_seeded 0 0
  have hmain : Ty.main.index < seeded.size := hseeded.builtin (by decide)
  have hpasses : requesting.Keeps .seeded (declareProgram program) fun _ _ => True :=
    .bind' (requests_typePass hmain program) fun _ _ _ hl _ =>
      requests_methodPass (hl.type hmain) program
  exact (hpasses hseeded).enters hseeded

end DeclareM

end FlowTyping
