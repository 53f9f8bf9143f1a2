import FlowTyping.Proofs.Catalog.Lookup
import FlowTyping.Proofs.Steps

/-
  The declaration passes keep a catalog sound

  Every declaration of a program names definite types only, since they are
  looked up. So the catalog in which a program is typed is sound and has no
  provisional types (`declareProgram_declares`). Declarations that fail report a
  mistake in the text (`declareProgram_mistake`).
-/
namespace FlowTyping

namespace DeclareM

open Steps Catalog

/-- The discipline of declarations. -/
def declaring : Discipline TypingError Catalog where
  Good c := c.Sound ∧ c.Plain
  Leads c c' := c.Declares c'
  Fails _ e _ := Mistake e
  Enters _ _ := True
  refl _ hc := .refl hc.1
  trans _ _ _ h₁ h₂ := h₁.trans h₂
  fails _ _ _ _ _ h := h
  entersNothing _ := trivial
  entersMore _ _ _ _ _ := trivial

variable {α β : Type} {c c' : Catalog} {scope t : Ty} {place : Place} {e : TypingError}

theorem keeps_ofExcept {x : Except TypingError α} (herror : ∀ e, x = .error e → Mistake e) :
    declaring.Keeps c (ofExcept x) fun a c' => c = c' ∧ x = .ok a := by
  cases x with
  | ok a => exact .pure' fun _ => ⟨rfl, rfl⟩
  | error e => exact .throw' fun _ => herror e rfl

theorem keeps_declare {f : Catalog → α × Catalog} {post : α → Catalog → Prop}
    (h : c.Sound → c.Declares (f c).2 ∧ post (f c).1 (f c).2) :
    declaring.Keeps c (modifyGet f) post :=
  .modifyGet' (fun hc => ⟨⟨(h hc.1).1.sound, (h hc.1).1.plain hc.2⟩, h hc.1⟩) trivial

theorem keeps_redeclare {f : Catalog → Catalog} (h : c.Sound → c.Declares (f c)) :
    declaring.Keeps c (modify f) fun _ _ => True :=
  .modify' (fun hc => ⟨⟨(h hc.1).sound, (h hc.1).plain hc.2⟩, h hc.1, trivial⟩) trivial

/-! ## The type pass -/

theorem keeps_openClass (hscope : c.Definite scope) {name : String}
    {superclass : Option (List String)} {generic : Bool} :
    declaring.Keeps c (openClass scope name superclass generic place) fun t c' =>
      c'.Definite t := by
  unfold openClass
  refine .get' ?_
  cases hknown : c.nestedType scope name with
  | some known => exact .pure' fun hc => hc.1.nestedType hknown
  | none =>
    -- whichever the superclass is, the class is made below it
    have created : ∀ {parent : Ty}, c.Definite parent →
        declaring.Keeps c (modifyGet (·.newObject name (some parent) scope generic))
          fun t c' => c'.Definite t := fun hparent =>
      keeps_declare fun hc =>
        hc.declares_newObject name generic (fun v hv => by cases hv; exact hparent) hscope
    cases superclass with
    | some path =>
      refine .bind' (keeps_ofExcept fun _ => mistake_of_lookUp) ?_
      rintro parent _ hc - ⟨rfl, hfound⟩
      exact created (hc.1.lookUp hscope.1 hfound)
    | none => exact .of_good fun hc => created (hc.1.builtin (by decide))

theorem keeps_openModule (hscope : c.Definite scope) {name : String} :
    declaring.Keeps c (openModule scope name) fun t c' => c'.Definite t := by
  unfold openModule
  refine .get' ?_
  cases hknown : c.nestedType scope name with
  | some known => exact .pure' fun hc => hc.1.nestedType hknown
  | none =>
    exact keeps_declare fun hc => hc.declares_newMixin name fun v hv => by cases hv; exact hscope

theorem fieldTypes_mistake {fields : List (String × TypeName)}
    (h : fieldTypes c scope place fields = .error e) : Mistake e := by
  obtain ⟨field, -, hfield⟩ := mem_of_mapM_error h
  exact mistake_of_writtenType (map_error.mp hfield)

theorem fieldTypes_definite (hc : c.Sound) (hscope : c.Definite scope)
    {fields : List (String × TypeName)} {types : List (String × Ty)}
    (h : fieldTypes c scope place fields = .ok types) : ∀ field ∈ types, c.Definite field.2 := by
  intro field hfield
  obtain ⟨written, -, hwritten⟩ := mem_of_mapM_ok h field hfield
  obtain ⟨v, hv, rfl⟩ := map_ok.mp hwritten
  exact hc.writtenType hscope.1 (fun r hr => by cases hr) hv

theorem keeps_enterRecord (hscope : c.Definite scope) {name : String}
    {fields : List (String × TypeName)} :
    declaring.Keeps c (enterRecord scope name fields place) fun _ _ => True := by
  unfold enterRecord
  refine .get' (.bind' (keeps_ofExcept fun _ => fieldTypes_mistake) ?_)
  rintro types _ - - ⟨rfl, htypes⟩
  refine keeps_redeclare fun hc => hc.declares_newRecord name (fun field hfield => ?_) hscope
  rcases Table.mem_putAll hfield with hfield | hfield
  · exact fieldTypes_definite hc hscope htypes field hfield
  · cases hfield

theorem includedModule_definite (hc : c.Sound) (hscope : c.Definite scope) {path : List String}
    (h : includedModule c path scope place = .ok t) : c.Definite t := by
  unfold includedModule at h
  cases hfound : c.lookUp path scope .moduleName place with
  | error e => rw [hfound] at h; cases h
  | ok v =>
    rw [hfound] at h
    have hv := hc.lookUp hscope.1 hfound
    simp only [bind, Except.bind] at h
    split at h
    · cases h
      exact hv
    · cases h

theorem includedModule_mistake {path : List String}
    (h : includedModule c path scope place = .error e) : Mistake e := by
  unfold includedModule at h
  cases hfound : c.lookUp path scope .moduleName place with
  | error e =>
    rw [hfound] at h
    cases h
    exact mistake_of_lookUp hfound
  | ok v =>
    rw [hfound] at h
    simp only [bind, Except.bind] at h
    split at h
    · cases h
    · cases h
      exact .unresolved _ _ _

/-- Only what has a class table includes modules, since the search from anything else finds at most
that itself. -/
theorem exists_cls?_of_includedModule (hplain : c.Plain) {path : List String}
    (h : includedModule c path scope place = .ok t) : ∃ k, c.cls? scope = some k := by
  refine Option.ne_none_iff_exists'.mp fun hnone => ?_
  unfold includedModule at h
  cases hfound : c.lookUp path scope .moduleName place with
  | error e => rw [hfound] at h; cases h
  | ok v =>
    unfold lookUp at hfound
    split at hfound <;> cases hfound
    next hfind =>
    obtain rfl := eq_of_find hplain hnone hfind
    simp only [lookUp, hfind, bind, Except.bind] at h
    split at h
    · next k hmixin =>
      rw [cls?, resolvedShape, hplain.resolve_eq, hmixin] at hnone
      cases hnone
    · cases h

theorem keeps_enterInclusion (hscope : c.Definite scope) {path : List String} :
    declaring.Keeps c (enterInclusion scope path place) fun _ _ => True := by
  unfold enterInclusion
  refine .get' (.bind' (keeps_ofExcept fun _ => includedModule_mistake) ?_)
  rintro included _ hc - ⟨rfl, hincluded⟩
  refine .get' ?_
  cases hmixin : c.includeMixin scope included with
  | error e =>
    refine .throw' fun _ => ?_
    obtain ⟨k, hk⟩ := exists_cls?_of_includedModule hc.2 hincluded
    unfold includeMixin at hmixin
    split at hmixin
    · cases hmixin
      exact .cyclicAncestry _ _ _
    · split at hmixin
      · next hnone => rw [hnone] at hk; cases hk
      · cases hmixin
  | ok d =>
    have hdeclares := hc.1.declares_includeMixin
      (includedModule_definite hc.1 hscope hincluded) hmixin
    exact .of_ok rfl ⟨⟨hdeclares.sound, hdeclares.plain hc.2⟩, hdeclares, trivial⟩ trivial

theorem keeps_enterConstant (hscope : c.Definite scope) {name : String} {value : Expr} :
    declaring.Keeps c (enterConstant scope name value) fun _ _ => True := by
  refine keeps_redeclare fun hc => ?_
  split
  · exact .refl hc
  · exact hc.declares_newConstant name value hscope

theorem keeps_enterConstants (hscope : c.Definite scope) {mark : Mark} {targets : List Target}
    {values : List Expr} :
    declaring.Keeps c (enterConstants scope mark targets values) fun _ _ => True := by
  induction targets generalizing c values with
  | nil => exact .pure' fun _ => trivial
  | cons target targets ih =>
    cases target with
    | constant name =>
      exact .bind' (keeps_enterConstant hscope) fun _ _ _ hl _ => ih (hl.definite hscope)
    | localVar _ => exact ih hscope
    | slot _ => exact ih hscope

mutual

theorem keeps_typePass {c : Catalog} {scope : Ty} (hscope : c.Definite scope) (e : Expr) :
    declaring.Keeps c (typePass scope e) fun _ _ => True := by
  cases e with
  | sequence mark items => exact keeps_typePassAll hscope items
  | classDef mark name superclass generic body =>
    exact .bind' (keeps_openClass hscope) fun _ _ _ _ ht => keeps_typePass ht body
  | moduleDef mark name body =>
    exact .bind' (keeps_openModule hscope) fun _ _ _ _ ht => keeps_typePass ht body
  | recordDef mark name fields => exact keeps_enterRecord hscope
  | inclusion mark path => exact keeps_enterInclusion hscope
  | assign mark target value =>
    cases target with
    | constant name => exact keeps_enterConstant hscope
    | localVar _ => exact .pure' fun _ => trivial
    | slot _ => exact .pure' fun _ => trivial
  | assignMany mark targets values => exact keeps_enterConstants hscope
  | _ => exact .pure' fun _ => trivial

theorem keeps_typePassAll {c : Catalog} {scope : Ty} (hscope : c.Definite scope)
    (items : List Expr) : declaring.Keeps c (typePassAll scope items) fun _ _ => True := by
  cases items with
  | nil => exact .pure' fun _ => trivial
  | cons item rest =>
    exact .bind' (keeps_typePass hscope item) fun _ _ _ hl _ =>
      keeps_typePassAll (hl.definite hscope) rest

end

/-! ## The method pass -/

theorem restriction_mistake {written : Option TypeName}
    (h : restriction c scope place written = .error e) : Mistake e := by
  cases written with
  | none => cases h
  | some written =>
    cases written with
    | receiver => cases h
    | path path => exact mistake_of_lookUp (map_error.mp h)

theorem restriction_definite (hc : c.Sound) (hscope : c.Definite scope) {written : Option TypeName}
    (h : restriction c scope place written = .ok (some (.type t))) : c.Definite t := by
  cases written with
  | none => cases h
  | some written =>
    cases written with
    | receiver => cases h
    | path path =>
      obtain ⟨found, hfound, heq⟩ := map_ok.mp h
      cases heq
      exact hc.lookUp hscope.1 hfound

theorem parameters_mistake {written : List (WrittenParameter Expr)}
    (h : parameters c scope place written = .error e) : Mistake e := by
  obtain ⟨w, -, hw⟩ := mem_of_mapM_error h
  exact restriction_mistake (map_error.mp hw)

theorem parameters_definite (hc : c.Sound) (hscope : c.Definite scope)
    {written : List (WrittenParameter Expr)} {ps : List Parameter}
    (h : parameters c scope place written = .ok ps) :
    ∀ v ∈ restrictedTypes (ps.map (·.restriction)), c.Definite v := by
  intro v hv
  obtain ⟨p, hp, heq⟩ := List.mem_map.mp (Sound.mem_restrictedTypes.mp hv)
  obtain ⟨w, -, hw⟩ := mem_of_mapM_ok h p hp
  obtain ⟨r, hr, rfl⟩ := map_ok.mp hw
  obtain rfl : r = some (.type v) := heq
  exact restriction_definite hc hscope hr

theorem methodOwner_definite (hscope : c.Definite scope) {onMetaclass : Bool}
    (h : methodOwner c scope onMetaclass = .ok t) : c.Definite t := by
  unfold methodOwner at h
  split at h
  · split at h
    · next v hv => cases h; exact definite_of_metaclass? hv
    · cases h
  · cases h; exact hscope

theorem methodOwner_mistake {onMetaclass : Bool} (h : methodOwner c scope onMetaclass = .error e) :
    Mistake e := by
  unfold methodOwner at h
  split at h
  · split at h
    · cases h
    · cases h
      exact .noMetaclass _
  · cases h

theorem keeps_enterMethodOf (hscope : c.Definite scope) {name : String} {onMetaclass : Bool}
    {params : List (WrittenParameter Expr)} {body : Expr} :
    declaring.Keeps c (enterMethodOf scope name onMetaclass params body place)
      fun _ _ => True := by
  unfold enterMethodOf
  refine .get' (.bind' (keeps_ofExcept fun _ => methodOwner_mistake) ?_)
  rintro owner _ - - ⟨rfl, howner⟩
  refine .bind' (keeps_ofExcept fun _ => parameters_mistake) ?_
  rintro ps _ - - ⟨rfl, hps⟩
  refine keeps_redeclare fun hc =>
    hc.declares_defineMethod (fun v hv => ?_) fun hwrites => by cases hwrites
  rcases List.mem_append.mp hv with hv | hv
  · rcases List.mem_cons.mp hv with rfl | hv
    · exact methodOwner_definite hscope howner
    · exact parameters_definite hc hscope hps v hv
  · cases hv

/-- What the method pass does in a class or module. -/
theorem keeps_inDeclared {name : String} {f : Ty → DeclareM β} {post : β → Catalog → Prop}
    (h : ∀ t, c.Definite t → declaring.Keeps c (f t) post) :
    declaring.Keeps c (do f (← ofExcept ((← get).declared scope name))) post := by
  refine .get' (.bind' (keeps_ofExcept fun _ => mistake_of_declared) ?_)
  rintro t _ hc - ⟨rfl, ht⟩
  exact h t (hc.1.declared ht)

mutual

theorem keeps_methodPass {c : Catalog} {scope : Ty} (hscope : c.Definite scope) (e : Expr) :
    declaring.Keeps c (methodPass scope e) fun _ _ => True := by
  cases e with
  | sequence mark items => exact keeps_methodPassAll hscope items
  | classDef mark name superclass generic body =>
    exact keeps_inDeclared fun t ht => keeps_methodPass ht body
  | moduleDef mark name body => exact keeps_inDeclared fun t ht => keeps_methodPass ht body
  | methodDef mark name onMetaclass params body => exact keeps_enterMethodOf hscope
  | _ => exact .pure' fun _ => trivial

theorem keeps_methodPassAll {c : Catalog} {scope : Ty} (hscope : c.Definite scope)
    (items : List Expr) : declaring.Keeps c (methodPassAll scope items) fun _ _ => True := by
  cases items with
  | nil => exact .pure' fun _ => trivial
  | cons item rest =>
    exact .bind' (keeps_methodPass hscope item) fun _ _ _ hl _ =>
      keeps_methodPassAll (hl.definite hscope) rest

end

theorem keeps_declareProgram (program : Expr) :
    declaring.Keeps .seeded (declareProgram program) fun _ _ => True := by
  have hmain : seeded.Definite .main := elementary_seeded.sound.builtin (by decide)
  exact .bind' (keeps_typePass hmain program) fun _ _ _ hl _ =>
    keeps_methodPass (hl.definite hmain) program

theorem good_seeded : declaring.Good seeded := ⟨elementary_seeded.sound, elementary_seeded.plain⟩

/-- The declarations of a program, on top of the built-in types. -/
theorem declareProgram_declares {program : Expr} {u : Unit}
    (h : declareProgram program .seeded = .ok u c) : seeded.Declares c :=
  ((keeps_declareProgram program good_seeded).ok u c h).2.1

/-- Declarations that fail report a mistake in the text. -/
theorem declareProgram_mistake {program : Expr} (h : declareProgram program .seeded = .error e c) :
    Mistake e :=
  (keeps_declareProgram program good_seeded).error e c h

end DeclareM

end FlowTyping
