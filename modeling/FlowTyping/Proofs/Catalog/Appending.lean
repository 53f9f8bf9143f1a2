import FlowTyping.Proofs.Catalog.Orderly

/-
  What a catalog remembers

  While a program is typed, entries are added at the end of a catalog and no
  entry of an object changes. Most operations also leave the specializations
  alone (`Catalog.Appends`); one that asks for a specialization may enter it
  under its bindings. So what was specialized once is found again, and has the
  slots that it was made with (`Catalog.Remembers`).
-/
namespace FlowTyping.Catalog

variable {c c' d : Catalog} {t template target : Ty} {bindings : List (String × Ty)}

/-! ## Entries that are added -/

/-- Types that are not provisional are added, and the others and the specializations stay. -/
structure Appends (c c' : Catalog) : Prop where
  size_le : c.size ≤ c'.size
  shape : ∀ t : Ty, t.index < c.size → c'.shape t = c.shape t
  definite : ∀ t : Ty, c.size ≤ t.index → (c'.shape t).isProvisional = false
  specializations : c'.specializations = c.specializations

namespace Appends

theorem refl (c : Catalog) : c.Appends c :=
  ⟨Nat.le_refl _, fun _ _ => rfl, fun _ ht => by rw [shape_of_size_le ht]; rfl, rfl⟩

theorem trans (h₁ : c.Appends c') (h₂ : c'.Appends d) : c.Appends d where
  size_le := Nat.le_trans h₁.size_le h₂.size_le
  shape t ht := (h₂.shape t (Nat.lt_of_lt_of_le ht h₁.size_le)).trans (h₁.shape t ht)
  definite t ht := by
    rcases Nat.lt_or_ge t.index c'.size with hlt | hge
    · rw [h₂.shape t hlt]
      exact h₁.definite t ht
    · exact h₂.definite t hge
  specializations := h₂.specializations.trans h₁.specializations

theorem push (c : Catalog) {s : Shape} (hs : s.isProvisional = false) :
    c.Appends (c.push s).2 where
  size_le := (Grows.push c s).size_le
  shape t ht := by rw [shape_push, if_neg (Nat.ne_of_lt ht)]
  definite t ht := by
    rw [shape_push]
    split
    · exact hs
    · rw [shape_of_size_le ht]
      rfl
  specializations := rfl

theorem of_shapes_eq (h : c'.shapes = c.shapes)
    (hspecializations : c'.specializations = c.specializations) : c.Appends c' := by
  refine ⟨Nat.le_of_eq (size_of_shapes_eq h).symm, fun t _ => shape_of_shapes_eq h t,
    fun t ht => ?_, hspecializations⟩
  rw [shape_of_shapes_eq h, shape_of_size_le ht]
  rfl

theorem intern {p : Shape → Bool} {s : Shape} (hs : s.isProvisional = false) :
    c.Appends (c.intern p s).2 := by
  unfold Catalog.intern
  split
  · exact .refl c
  · exact .push c hs

theorem merge (c : Catalog) (ts : List Ty) : c.Appends (c.merge ts).2 := by
  unfold Catalog.merge
  split
  · exact .refl c
  · exact .refl c
  · rw [union_eq_intern]
    exact .intern rfl

theorem pointerFor (c : Catalog) (t : Ty) : c.Appends (c.pointerFor t).2 := by
  rw [pointerFor_eq_intern]
  exact .intern rfl

theorem specialize (c : Catalog) (t : Ty) (bindings : List (String × Ty)) :
    c.Appends (c.specialize t bindings).2 := by
  unfold Catalog.specialize
  split
  · exact .push c rfl
  · exact .refl c

theorem newConstant (c : Catalog) (name : String) (value : Expr) (container : Ty) :
    c.Appends (c.newConstant name value container).2 := by
  refine (Appends.push c (s := .constant name container value) rfl).trans ?_
  show Appends _ (enterName _ container name _)
  unfold enterName
  split
  · exact .of_shapes_eq rfl rfl
  · exact .refl _

theorem steady (h : c.Appends c') : c.Steady c' := by
  intro t p hp
  rcases Nat.lt_or_ge t.index c.size with hlt | hge
  · rwa [h.shape t hlt] at hp
  · have := h.definite t hge
    rw [hp] at this
    cases this

end Appends

/-! ## Specializations -/

/-- What is known by bindings is a copy of its template with these bound. -/
def Minted (c : Catalog) : Prop :=
  ∀ key t, c.specializations.get? key = some t →
    ∃ o, c.shape key.1 = .object o ∧ c.shape t = .object (copyOf key.1 o key.2)

/-- Objects stay what they are, and specializations stay known. -/
structure Remembers (c c' : Catalog) : Prop where
  object : ∀ t o, c.shape t = .object o → c'.shape t = .object o
  known : ∀ key t, c.specializations.get? key = some t → c'.specializations.get? key = some t
  minted : c.Minted → c'.Minted

namespace Remembers

theorem refl (c : Catalog) : c.Remembers c := ⟨fun _ _ h => h, fun _ _ h => h, id⟩

theorem trans (h₁ : c.Remembers c') (h₂ : c'.Remembers d) : c.Remembers d where
  object t o h := h₂.object t o (h₁.object t o h)
  known key t h := h₂.known key t (h₁.known key t h)
  minted h := h₂.minted (h₁.minted h)

/-- Where the specializations stay, it is enough that objects do. -/
theorem of_objects (hobject : ∀ t o, c.shape t = .object o → c'.shape t = .object o)
    (hspecializations : c'.specializations = c.specializations) : c.Remembers c' := by
  refine ⟨hobject, fun key t h => hspecializations ▸ h, fun hminted key t h => ?_⟩
  obtain ⟨o, ho, hcopy⟩ := hminted key t (hspecializations ▸ h)
  exact ⟨o, hobject _ _ ho, hobject _ _ hcopy⟩

theorem push (c : Catalog) (s : Shape) : c.Remembers (c.push s).2 :=
  .of_objects (fun t o ho => by
    rw [shape_push, if_neg (Nat.ne_of_lt (lt_size_of_object ho)), ho]) rfl

/-- An entry that is no object may become anything. -/
theorem setShape {s : Shape} (h : ∀ o, c.shape t ≠ .object o) : c.Remembers (c.setShape t s) := by
  refine .of_objects (fun u o ho => ?_) rfl
  have hne : u.index ≠ t.index := fun hu => h o (Ty.eq_of_index hu ▸ ho)
  rw [shape_setShape, if_neg fun hu => hne hu.1, ho]

end Remembers

theorem Appends.remembers (h : c.Appends c') : c.Remembers c' :=
  .of_objects (fun t _ ho => (h.shape t (lt_size_of_object ho)).trans ho) h.specializations

/-- A specialization is found where it is known by its bindings, and is known by them from then
on. -/
theorem Sound.remembers_instantiate (hc : c.Sound)
    (h : c.instantiate t bindings = .ok (target, c')) :
    c.Remembers c' ∧ ∃ template, c.templateOf t = some template ∧
      c'.specializations.get? (template, c.bindingKey bindings) = some target := by
  unfold Catalog.instantiate at h
  split at h
  · cases h
  · next template htemplate =>
    obtain ⟨o, ho, -⟩ := hc.template_of_templateOf htemplate
    dsimp only at h
    split at h
    · next known hknown =>
      cases h
      exact ⟨.refl c, template, htemplate, hknown⟩
    · next hnone =>
      rw [specialize_of_object ho] at h
      cases h
      have hpush : c.Remembers (c.push (.object (copyOf template o (c.bindingKey bindings)))).2 :=
        .push c _
      refine ⟨⟨hpush.object, Table.get?_put_of_none hnone, fun hminted key u hu => ?_⟩, template,
        htemplate, Table.get?_put_self⟩
      rcases Table.of_get?_put hu with ⟨rfl, rfl⟩ | hu
      · exact ⟨o, hpush.object _ _ ho, (shape_push c _ _).trans (if_pos rfl)⟩
      · exact hpush.minted hminted key u hu

end FlowTyping.Catalog
