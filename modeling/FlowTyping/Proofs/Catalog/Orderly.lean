import FlowTyping.Proofs.Catalog.Declarations

/-
  Orderly catalogs

  An orderly catalog is canonical, its specializations are objects that share
  the class table of what they specialize, and no two lists of bindings are
  known by one specialization. This asks less than soundness: nothing is said of
  the types that entries mention, so copies of copies and slots with provisional
  types are allowed.

  `Catalog.Follows` is what any operation on a catalog does: it keeps it
  orderly, lets it grow and forgets no specialization.
-/
namespace FlowTyping.Catalog

variable {c c' d : Catalog} {t u : Ty} {s : Shape} {o : ObjectShape}

/-- An object of this shape can be a copy of `u`, whose class table it shares. -/
def Copies (c : Catalog) (o : ObjectShape) (u : Ty) : Prop :=
  o.generic = true ∧ ∃ o', c.shape u = .object o' ∧ o'.cls = o.cls

structure Orderly (c : Catalog) : Prop where
  canonical : c.Canonical
  copies : ∀ t o u, c.shape t = .object o → o.template = some u → c.Copies o u
  known : ∀ key t, c.specializations.get? key = some t → c.Specializes t key.1
  once : ∀ key key' t, c.specializations.get? key = some t →
    c.specializations.get? key' = some t → key = key'

/-- What operations make of a catalog. -/
structure Follows (c c' : Catalog) : Prop where
  orderly : c.Orderly → c'.Orderly
  grows : c.Grows c'
  known : ∀ key t, c.specializations.get? key = some t → c'.specializations.get? key = some t

namespace Follows

theorem refl (c : Catalog) : c.Follows c := ⟨id, .refl c, fun _ _ h => h⟩

theorem trans (h₁ : c.Follows c') (h₂ : c'.Follows d) : c.Follows d where
  orderly h := h₂.orderly (h₁.orderly h)
  grows := h₁.grows.trans h₂.grows
  known key t h := h₂.known key t (h₁.known key t h)

end Follows

/-! ## Entries -/

theorem Grows.copies (hg : c.Grows c') (h : c.Copies o u) : c'.Copies o u := by
  obtain ⟨hgen, o', ho', hcls⟩ := h
  obtain ⟨slots, hslots⟩ := hg.object ho'
  exact ⟨hgen, _, hslots, hcls⟩

/-- Growth that keeps a catalog canonical keeps it orderly if the objects that are new and
specialize a type are copies of it. -/
theorem Orderly.grow (hc : c.Orderly) (hg : c.Grows c') (hcanonical : c'.Canonical)
    (hspecializations : c'.specializations = c.specializations)
    (hnew : ∀ t o u, c.size ≤ t.index → c'.shape t = .object o → o.template = some u →
      c.Copies o u) : c'.Orderly where
  canonical := hcanonical
  copies t o u ho hu := by
    rcases Nat.lt_or_ge t.index c.size with hlt | hge
    · -- an object that was there has the template it had
      have hb := hg.shape t hlt
      rw [ho] at hb
      generalize hq : c.shape t = q at hb
      cases hb with
      | same => exact hg.copies (hc.copies t o u hq hu)
      | slots o' _ => exact hg.copies (hc.copies t o' u hq hu)
    · exact hg.copies (hnew t o u hge ho hu)
  known key t h := by
    rw [hspecializations] at h
    exact hg.specializes (hc.known key t h)
  once key key' t h h' := by
    rw [hspecializations] at h h'
    exact hc.once key key' t h h'

/-- Class tables and methods have no part in it. -/
theorem Follows.of_eq (hshapes : c'.shapes = c.shapes)
    (hspecializations : c'.specializations = c.specializations) : c.Follows c' where
  orderly hc := hc.grow (.of_shapes_eq hshapes) (hc.canonical.of_shapes_eq hshapes)
    hspecializations fun t o u ht ho _ => by
      rw [shape_of_size_le (size_of_shapes_eq hshapes ▸ ht)] at ho
      cases ho
  grows := .of_shapes_eq hshapes
  known key t h := by rw [hspecializations]; exact h

/-- Entries may be added that are fit for it. -/
theorem follows_push (hadmits : c.Orderly → c.Admits s)
    (hcopies : ∀ o u, s = .object o → o.template = some u → c.Copies o u) :
    c.Follows (c.push s).2 where
  orderly hc := hc.grow (.push c s) (hc.canonical.push (hadmits hc)) rfl fun t o u ht ho hu => by
    rw [shape_push] at ho
    split at ho
    · exact hcopies o u ho hu
    · rw [shape_of_size_le ht] at ho
      cases ho
  grows := .push c s
  known _ _ h := h

/-- Entries may be added that are neither unions nor provisional nor specializations. -/
theorem follows_push_plain (hunion : s.isUnion = false) (hprovisional : s.isProvisional = false)
    (htemplate : s.template? = none) : c.Follows (c.push s).2 := by
  refine follows_push (fun _ => ?_) fun o u ho hu => ?_
  · cases s <;> trivial
  · subst ho
    rw [Shape.template?, hu] at htemplate
    cases htemplate

/-! ## Declarations -/

theorem follows_enterName (c : Catalog) (scope : Ty) (name : String) (t : Ty) :
    c.Follows (c.enterName scope name t) := by
  unfold enterName
  split
  · exact .of_eq rfl rfl
  · exact .refl c

theorem follows_defineMethod (c : Catalog) (m : Method) : c.Follows (c.defineMethod m).2 := by
  unfold defineMethod
  dsimp only
  split
  · exact .of_eq rfl rfl
  · exact .of_eq rfl rfl

theorem follows_defineBuiltin (c : Catalog) (owner : Ty) (name : String)
    (parameters : List Parameter) (builtin : Builtin) :
    c.Follows (c.defineBuiltin owner name parameters builtin) :=
  follows_defineMethod c _

theorem follows_enterType (c : Catalog) (table : ClassTable) {shape : ClassHandle → Shape}
    (hs : ∀ k, (shape k).isUnion = false ∧ (shape k).isProvisional = false ∧
      (shape k).template? = none) : c.Follows (c.enterType table shape) := by
  obtain ⟨hunion, hprovisional, htemplate⟩ := hs ⟨c.classes.size⟩
  have hadded : c.Follows { c with
      shapes := c.shapes.push (shape ⟨c.classes.size⟩)
      classes := c.classes.push table } :=
    (follows_push_plain hunion hprovisional htemplate).trans (.of_eq rfl rfl)
  unfold enterType
  dsimp only
  split
  · exact hadded.trans (follows_enterName _ _ _ _)
  · exact hadded

theorem follows_enterMetaclass (c : Catalog) (t : Ty) (name : String) (container : Option Ty) :
    c.Follows (c.enterMetaclass t name container) := by
  have hadded : c.Follows { c with
      shapes := c.shapes.push (.metaclass ⟨c.classes.size⟩ t)
      classes := c.classes.push (.bare (name ++ ":Class") container none) } :=
    (follows_push_plain (s := .metaclass ⟨c.classes.size⟩ t) rfl rfl rfl).trans (.of_eq rfl rfl)
  exact hadded.trans ((follows_defineBuiltin _ _ _ _ _).trans (follows_defineBuiltin _ _ _ _ _))

theorem follows_newClassLike (c : Catalog) (name : String) (container superclass : Option Ty)
    {shape : ClassHandle → Shape}
    (hs : ∀ k, (shape k).isUnion = false ∧ (shape k).isProvisional = false ∧
      (shape k).template? = none) :
    c.Follows (c.newClassLike name container superclass shape).2 :=
  (follows_enterType c _ hs).trans (follows_enterMetaclass _ _ _ _)

theorem follows_newMixin (c : Catalog) (name : String) (container : Option Ty) :
    c.Follows (c.newMixin name container).2 :=
  follows_newClassLike c name container none fun _ => ⟨rfl, rfl, rfl⟩

theorem follows_newPrimitive (c : Catalog) (name : String) (superclass : Ty) (width : Nat)
    (container : Ty) : c.Follows (c.newPrimitive name superclass width container).2 :=
  follows_newClassLike c name _ _ fun _ => ⟨rfl, rfl, rfl⟩

theorem follows_newObject (c : Catalog) (name : String) (superclass : Option Ty) (container : Ty)
    (generic : Bool) : c.Follows (c.newObject name superclass container generic).2 := by
  have h : c.Follows (c.newClassLike name (some container) superclass
      fun k => .object ⟨k, .empty, generic, none⟩).2 :=
    follows_newClassLike c name _ _ fun _ => ⟨rfl, rfl, rfl⟩
  rw [newObject_eq]
  exact h.trans (follows_defineBuiltin _ _ _ _ _)

theorem follows_fields (fields : List (String × Ty)) (c : Catalog) (t : Ty) :
    c.Follows (fields.foldl (defineField t) c) := by
  induction fields generalizing c with
  | nil => exact .refl c
  | cons field fields ih =>
    exact ((follows_defineBuiltin c _ _ _ _).trans (follows_defineBuiltin _ _ _ _ _)).trans (ih _)

theorem follows_newRecord (c : Catalog) (name : String) (fields : Table String Ty)
    (container : Ty) : c.Follows (c.newRecord name fields container).2 := by
  have h : c.Follows (c.newClassLike name (some container) none (.record · fields)).2 :=
    follows_newClassLike c name _ _ fun _ => ⟨rfl, rfl, rfl⟩
  rw [newRecord_eq]
  exact h.trans ((follows_fields fields.entries _ _).trans (follows_defineBuiltin _ _ _ _ _))

theorem follows_newConstant (c : Catalog) (name : String) (value : Expr) (container : Ty) :
    c.Follows (c.newConstant name value container).2 :=
  (follows_push_plain (s := .constant name container value) rfl rfl rfl).trans
    (follows_enterName _ _ _ _)

theorem follows_includeMixin {included : Ty} (h : c.includeMixin t included = .ok c') :
    c.Follows c' := by
  unfold includeMixin at h
  split at h
  · cases h
  · split at h
    · cases h
    · cases h
      exact .of_eq rfl rfl

/-- Entries may change as entries may, apart from provisional types. -/
theorem follows_setShape (hb : (c.shape t).Becomes s) (hs : s.isProvisional = false) :
    c.Follows (c.setShape t s) where
  orderly hc := by
    refine hc.grow (.setShape hb) (hc.canonical.setShape hb fun p u h => ?_) rfl
      fun v o u hv ho _ => ?_
    · rw [h] at hs
      cases hs
    · rw [shape_of_size_le (by rw [size_setShape]; exact hv)] at ho
      cases ho
  grows := .setShape hb
  known _ _ h := h

theorem follows_setSlot (c : Catalog) (t : Ty) (name : String) (u : Ty) :
    c.Follows (c.setSlot t name u) := by
  unfold setSlot resolvedShape
  split
  · next o ho =>
    refine follows_setShape ?_ rfl
    rw [ho]
    exact .slots o _
  · exact .refl c

/-! ## Types made of other types -/

/-- An entry that is neither provisional nor an object may be interned if it may be added where it
is new. -/
theorem follows_intern {p : Shape → Bool} (htemplate : s.template? = none)
    (hadmits : c.Orderly → (∀ t : Ty, t.index < c.size → p (c.shape t) = false) → c.Admits s) :
    c.Follows (c.intern p s).2 := by
  unfold intern
  split
  · exact .refl c
  · next hn =>
    refine follows_push (fun hc => hadmits hc fun t ht => findIdx?_eq_none_iff.mp hn t.index ht)
      fun o u ho hu => ?_
    subst ho
    rw [Shape.template?, hu] at htemplate
    cases htemplate

theorem follows_pointerFor (c : Catalog) (t : Ty) : c.Follows (c.pointerFor t).2 :=
  follows_intern (p := (·.isPointerFor (c.resolve t))) rfl fun _ _ => trivial

theorem follows_merge {ts : List Ty} (hts : ∀ t ∈ ts, t.index < c.size) :
    c.Follows (c.merge ts).2 := by
  unfold Catalog.merge
  split
  · exact .refl c
  · exact .refl c
  · next hnil hone =>
    refine follows_intern (p := (·.isUnionOf (c.live ts))) rfl fun hc hnew => ?_
    refine ⟨two_le_length hnil hone, pairwise_live c ts,
      fun u hu => hc.canonical.single_of_mem_live hts hu, fun t ht hs => ?_⟩
    have := hnew t ht
    rw [hs] at this
    simp [Shape.isUnionOf] at this

/-- A copy of an object may be added, whatever is bound in it. -/
theorem follows_specialize (c : Catalog) (template : Ty) (bindings : List (String × Ty)) :
    c.Follows (c.specialize template bindings).2 := by
  unfold specialize
  split
  · next o ho =>
    refine follows_push (fun _ => trivial) fun o' u ho' hu => ?_
    cases ho'
    obtain rfl : template = u := by simpa using hu
    exact ⟨rfl, o, ho, rfl⟩
  · exact .refl c

/-- The shape of a copy of an object with some slots bound. -/
def copyOf (template : Ty) (o : ObjectShape) (bindings : List (String × Ty)) : ObjectShape :=
  ⟨o.cls, o.slots.putAll (bindings.map fun binding => (binding.1, some binding.2)), true,
    some template⟩

theorem specialize_of_object {template : Ty} (ho : c.shape template = .object o)
    (bindings : List (String × Ty)) :
    c.specialize template bindings = c.push (.object (copyOf template o bindings)) := by
  unfold specialize
  rw [ho]
  rfl

/-! ## Specializations that are known by their bindings -/

/-- What a type specializes, or is, is an object. -/
theorem Orderly.object_of_templateOf (hc : c.Orderly) (h : c.templateOf t = some u) :
    ∃ o, c.shape u = .object o := by
  unfold templateOf resolvedShape at h
  split at h
  · next o ho =>
    cases htemplate : o.template with
    | some v =>
      rw [htemplate] at h
      obtain rfl : v = u := by simpa using h
      obtain ⟨-, o', ho', -⟩ := hc.copies _ o v ho htemplate
      exact ⟨o', ho'⟩
    | none =>
      rw [htemplate, Option.none_or] at h
      split at h
      · obtain rfl : c.resolve t = u := by simpa using h
        exact ⟨o, ho⟩
      · cases h
  · cases h

/-- The two ways in which a specialization is found: it is known by its bindings, or a copy of its
template is entered and known from then on. -/
theorem Orderly.instantiate_ok (hc : c.Orderly) {bindings : List (String × Ty)} {target : Ty}
    (h : c.instantiate t bindings = .ok (target, c')) :
    ∃ template, c.templateOf t = some template ∧
      ((c.specializations.get? (template, c.bindingKey bindings) = some target ∧ c' = c) ∨
        ∃ o, c.shape template = .object o ∧
          c.specializations.get? (template, c.bindingKey bindings) = none ∧ target = ⟨c.size⟩ ∧
          c' = { (c.push (.object (copyOf template o (c.bindingKey bindings)))).2 with
            specializations :=
              c.specializations.put (template, c.bindingKey bindings) ⟨c.size⟩ }) := by
  unfold instantiate at h
  split at h
  · cases h
  · next template htemplate =>
    refine ⟨template, htemplate, ?_⟩
    obtain ⟨o, ho⟩ := hc.object_of_templateOf htemplate
    dsimp only at h
    split at h
    · next known hknown =>
      cases h
      exact .inl ⟨hknown, rfl⟩
    · next hnone =>
      rw [specialize_of_object ho] at h
      cases h
      exact .inr ⟨o, ho, hnone, rfl, rfl⟩

/-- A new copy of a template may be known by bindings by which nothing is known. -/
theorem follows_enter {template : Ty} (ho : c.shape template = .object o)
    {bindings : List (String × Ty)} (hnone : c.specializations.get? (template, bindings) = none) :
    c.Follows { (c.push (.object (copyOf template o bindings))).2 with
      specializations := c.specializations.put (template, bindings) ⟨c.size⟩ } := by
  have hpush : c.Follows (c.push (.object (copyOf template o bindings))).2 := by
    rw [← specialize_of_object ho]
    exact follows_specialize c template bindings
  refine ⟨fun hc => ?_, hpush.grows.trans (.of_shapes_eq rfl), fun key t h => ?_⟩
  · have hadded := hpush.orderly hc
    have hold : ∀ key t, c.specializations.get? key = some t → t.index < c.size := fun key t h =>
      (hc.known key t h).definite.1
    refine ⟨hadded.canonical.of_shapes_eq rfl, hadded.copies, fun key t h => ?_,
      fun key key' t h h' => ?_⟩
    · rcases Table.of_get?_put h with ⟨rfl, rfl⟩ | h
      · exact ⟨_, (shape_push c _ _).trans (if_pos rfl), rfl⟩
      · exact hadded.known key t h
    · -- what was known before stands before the new entry
      rcases Table.of_get?_put h with ⟨rfl, rfl⟩ | h <;>
        rcases Table.of_get?_put h' with ⟨rfl, hnew⟩ | h'
      · rfl
      · exact absurd (hold key' _ h') (Nat.lt_irrefl _)
      · subst hnew
        exact absurd (hold key _ h) (Nat.lt_irrefl _)
      · exact hc.once key key' t h h'
  · exact Table.get?_put_of_none hnone key t h

theorem Orderly.follows_instantiate (hc : c.Orderly) {bindings : List (String × Ty)} {target : Ty}
    (h : c.instantiate t bindings = .ok (target, c')) : c.Follows c' := by
  obtain ⟨template, -, ⟨-, rfl⟩ | ⟨o, ho, hnone, -, rfl⟩⟩ := hc.instantiate_ok h
  · exact .refl _
  · exact follows_enter ho hnone

/-- A specialization is known by its bindings afterwards. -/
theorem Orderly.known_instantiate (hc : c.Orderly) {bindings : List (String × Ty)} {target : Ty}
    (h : c.instantiate t bindings = .ok (target, c')) :
    ∃ template, c.templateOf t = some template ∧
      c'.specializations.get? (template, c.bindingKey bindings) = some target := by
  obtain ⟨template, htemplate, ⟨hknown, rfl⟩ | ⟨o, -, -, rfl, rfl⟩⟩ := hc.instantiate_ok h
  · exact ⟨template, htemplate, hknown⟩
  · exact ⟨template, htemplate, Table.get?_put_self⟩

/-- What is known by some bindings is found by them in any later catalog. -/
theorem instantiate_of_known {template target : Ty} {bindings : List (String × Ty)}
    (htemplate : c.templateOf t = some template)
    (h : c.specializations.get? (template, c.bindingKey bindings) = some target) :
    c.instantiate t bindings = .ok (target, c) := by
  unfold instantiate
  rw [htemplate]
  dsimp only
  rw [h]

/-- The specializations that two calls give are the same only if they are known by the same
bindings of the same template. -/
theorem Orderly.key_eq_of_instantiate (hc : c.Orderly) {t' target : Ty}
    {bindings bindings' : List (String × Ty)} (h : c.instantiate t bindings = .ok (target, c'))
    (hcd : c'.Follows d) {d' : Catalog} (h' : d.instantiate t' bindings' = .ok (target, d')) :
    ∃ template, c.templateOf t = some template ∧ d.templateOf t' = some template ∧
      c.bindingKey bindings = d.bindingKey bindings' := by
  have hc' := (hc.follows_instantiate h).orderly hc
  have hd := hcd.orderly hc'
  have hd' := hd.follows_instantiate h'
  obtain ⟨template, htemplate, hknown⟩ := hc.known_instantiate h
  obtain ⟨template', htemplate', hknown'⟩ := hd.known_instantiate h'
  have hkey := (hd'.orderly hd).once _ _ target (hd'.known _ _ (hcd.known _ _ hknown)) hknown'
  obtain ⟨rfl, hbindings⟩ := Prod.mk.inj hkey
  exact ⟨template, htemplate, htemplate', hbindings⟩

end FlowTyping.Catalog
