import FlowTyping.Proofs.Catalog.Canonical

/-
  Merging and interning

  A merge has as its members the members of all types that are not superseded
  (`Canonical.merge_members`). It keeps a catalog canonical.

  Unions and pointer types are interned: they are looked up by their parts and
  only entered if they are not found. So in any later catalog the same look-up
  gives the same type and changes nothing (`intern_again`), and the same holds
  of a merge of types none of which has been superseded since
  (`Canonical.merge_again`).
-/
namespace FlowTyping

namespace Catalog

variable {c c' d : Catalog}

/-! ## Interned entries -/

/-- The first entry that `p` holds of, or else `s`, entered. -/
def intern (c : Catalog) (p : Shape → Bool) (s : Shape) : Ty × Catalog :=
  match c.shapes.findIdx? p with
  | some i => (⟨i⟩, c)
  | none => c.push s

theorem union_eq_intern (c : Catalog) (ms : List Ty) :
    c.union ms = c.intern (·.isUnionOf ms) (.union ms) := rfl

theorem pointerFor_eq_intern (c : Catalog) (t : Ty) :
    c.pointerFor t = c.intern (·.isPointerFor (c.resolve t)) (.pointer (some (c.resolve t))) := rfl

theorem shape_eq_getElem {i : Nat} (h : i < c.shapes.size) : c.shape ⟨i⟩ = c.shapes[i] := by
  unfold shape
  rw [Array.getElem?_eq_getElem h]
  rfl

theorem findIdx?_eq_some_iff {p : Shape → Bool} {i : Nat} :
    c.shapes.findIdx? p = some i ↔
      i < c.size ∧ p (c.shape ⟨i⟩) = true ∧ ∀ j, j < i → p (c.shape ⟨j⟩) = false := by
  rw [Array.findIdx?_eq_some_iff_getElem]
  constructor
  · rintro ⟨h, hp, hlt⟩
    refine ⟨h, by rw [shape_eq_getElem h]; exact hp, fun j hj => ?_⟩
    rw [shape_eq_getElem (Nat.lt_trans hj h)]
    exact Bool.not_eq_true _ ▸ hlt j hj
  · rintro ⟨h, hp, hlt⟩
    refine ⟨h, by rw [← shape_eq_getElem h]; exact hp, fun j hj => ?_⟩
    rw [← shape_eq_getElem (Nat.lt_trans hj h)]
    simp [hlt j hj]

theorem findIdx?_eq_none_iff {p : Shape → Bool} :
    c.shapes.findIdx? p = none ↔ ∀ i, i < c.size → p (c.shape ⟨i⟩) = false := by
  rw [Array.findIdx?_eq_none_iff]
  constructor
  · intro h i hi
    rw [shape_eq_getElem hi]
    exact h _ (Array.getElem_mem hi)
  · intro h s hs
    obtain ⟨i, hi, rfl⟩ := Array.mem_iff_getElem.mp hs
    rw [← shape_eq_getElem hi]
    exact h i hi

/-- What is looked for is there afterwards. -/
theorem intern_found {p : Shape → Bool} {s : Shape} (hs : p s = true) :
    (c.intern p s).1.index < (c.intern p s).2.size ∧
      p ((c.intern p s).2.shape (c.intern p s).1) = true := by
  unfold intern
  split
  · next i hi =>
    obtain ⟨hlt, hp, -⟩ := findIdx?_eq_some_iff.mp hi
    exact ⟨hlt, hp⟩
  · refine ⟨by rw [size_push]; exact Nat.lt_succ_self _, ?_⟩
    rw [shape_push, if_pos (show (c.push s).1.index = c.size from rfl)]
    exact hs

theorem intern_extends {p : Shape → Bool} {s : Shape} (hs : ∀ k u, s ≠ .metaclass k u) :
    c.Extends (c.intern p s).2 := by
  unfold intern
  split
  · exact .refl c
  · exact .push c hs

theorem intern_steady {p : Shape → Bool} {s : Shape} (hs : s.isProvisional = false) :
    c.Steady (c.intern p s).2 := by
  unfold intern
  split
  · exact .refl c
  · exact .push c hs

/-- An entry that may be added if it is new keeps a catalog canonical. -/
theorem Canonical.intern (hc : c.Canonical) {p : Shape → Bool} {s : Shape}
    (hs : (∀ t : Ty, t.index < c.size → p (c.shape t) = false) → c.Admits s) :
    (c.intern p s).2.Canonical := by
  unfold Catalog.intern
  split
  · exact hc
  · next hn =>
    exact hc.push (hs fun t ht => findIdx?_eq_none_iff.mp hn t.index ht)

/-- What has been interned is found again in any later catalog. -/
theorem intern_again {p : Shape → Bool} {s : Shape} (hs : p s = true)
    (hp : ∀ a b : Shape, a.Becomes b → p b = p a) (hg : (c.intern p s).2.Grows d) :
    d.intern p s = ((c.intern p s).1, d) := by
  have hfound : d.shapes.findIdx? p = some (c.intern p s).1.index := by
    rw [findIdx?_eq_some_iff]
    obtain ⟨hlt, hps⟩ := intern_found (c := c) hs
    refine ⟨Nat.lt_of_lt_of_le hlt hg.size_le, by rw [hp _ _ (hg.shape _ hlt)]; exact hps, ?_⟩
    intro j hj
    have hj' : p ((c.intern p s).2.shape ⟨j⟩) = false := by
      unfold intern at hj ⊢
      split
      · next i hi =>
        rw [hi] at hj
        exact (findIdx?_eq_some_iff.mp hi).2.2 j hj
      · next hn =>
        rw [hn] at hj
        have hjc : j < c.size := hj
        have hne : ¬ j = c.size := by omega
        rw [shape_push, if_neg hne]
        exact findIdx?_eq_none_iff.mp hn j hjc
    rw [hp _ _ (hg.shape ⟨j⟩ (Nat.lt_trans hj hlt))]
    exact hj'
  unfold intern at hfound ⊢
  rw [hfound]

theorem isUnionOf_iff {ms : List Ty} {s : Shape} : s.isUnionOf ms = true ↔ s = .union ms := by
  cases s <;> simp [Shape.isUnionOf]

theorem isUnionOf_becomes (ms : List Ty) (a b : Shape) (h : a.Becomes b) :
    b.isUnionOf ms = a.isUnionOf ms := by
  cases h <;> rfl

theorem isPointerFor_iff {t : Ty} {s : Shape} :
    s.isPointerFor t = true ↔ s = .pointer (some t) := by
  cases s with
  | pointer pointee => cases pointee <;> simp [Shape.isPointerFor]
  | _ => simp [Shape.isPointerFor]

theorem isPointerFor_becomes (t : Ty) (a b : Shape) (h : a.Becomes b) :
    b.isPointerFor t = a.isPointerFor t := by
  cases h <;> rfl

/-! ## Pointer types -/

theorem pointerFor_extends (c : Catalog) (t : Ty) : c.Extends (c.pointerFor t).2 :=
  intern_extends fun _ _ h => by cases h

theorem shape_pointerFor (c : Catalog) (t : Ty) :
    (c.pointerFor t).2.shape (c.pointerFor t).1 = .pointer (some (c.resolve t)) := by
  rw [pointerFor_eq_intern]
  exact isPointerFor_iff.mp (intern_found (by simp [Shape.isPointerFor])).2

theorem definite_pointerFor (c : Catalog) (t : Ty) :
    (c.pointerFor t).2.Definite (c.pointerFor t).1 := by
  refine ⟨(intern_found (p := (·.isPointerFor (c.resolve t))) (by simp [Shape.isPointerFor])).1, ?_⟩
  rw [shape_pointerFor]
  rfl

theorem Canonical.pointerFor (hc : c.Canonical) (t : Ty) : (c.pointerFor t).2.Canonical :=
  hc.intern (p := (·.isPointerFor (c.resolve t))) fun _ => trivial

theorem pointerFor_again {t : Ty} (hg : (c.pointerFor t).2.Grows d)
    (hr : d.resolve t = c.resolve t) : d.pointerFor t = ((c.pointerFor t).1, d) := by
  rw [pointerFor_eq_intern d, hr]
  exact intern_again (by simp [Shape.isPointerFor]) (isPointerFor_becomes _) hg

/-! ## Unions -/

theorem union_extends (c : Catalog) (ms : List Ty) : c.Extends (c.union ms).2 :=
  intern_extends fun _ _ h => by cases h

theorem Canonical.union (hc : c.Canonical) {ms : List Ty} (h₁ : 2 ≤ ms.length)
    (h₂ : ms.Pairwise (·.index < ·.index)) (h₃ : ∀ u ∈ ms, c.Single u) :
    (c.union ms).2.Canonical := by
  refine hc.intern fun hn => ⟨h₁, h₂, h₃, fun t ht hs => ?_⟩
  have := hn t ht
  rw [hs] at this
  simp [Shape.isUnionOf] at this

theorem shape_union (c : Catalog) (ms : List Ty) :
    (c.union ms).2.shape (c.union ms).1 = .union ms := by
  rw [union_eq_intern]
  exact isUnionOf_iff.mp (intern_found (by simp [Shape.isUnionOf])).2

theorem definite_union (c : Catalog) (ms : List Ty) : (c.union ms).2.Definite (c.union ms).1 := by
  refine ⟨(intern_found (p := (·.isUnionOf ms)) (by simp [Shape.isUnionOf])).1, ?_⟩
  rw [shape_union]
  rfl

theorem union_again {ms : List Ty} (hg : (c.union ms).2.Grows d) :
    d.union ms = ((c.union ms).1, d) :=
  intern_again (by simp [Shape.isUnionOf]) (isUnionOf_becomes ms) hg

/-! ## Merges -/

variable {ts : List Ty}

theorem mem_live {u : Ty} :
    u ∈ c.live ts ↔ ∃ t ∈ ts, c.isSuperseded t = false ∧ u ∈ c.members t := by
  simp [live, Ty.mem_increasing, and_assoc]

theorem pairwise_live (c : Catalog) (ts : List Ty) :
    (c.live ts).Pairwise (·.index < ·.index) :=
  Ty.pairwise_increasing _

theorem Canonical.single_of_mem_live (hc : c.Canonical) (hts : ∀ t ∈ ts, t.index < c.size) {u : Ty}
    (hu : u ∈ c.live ts) : c.Single u := by
  obtain ⟨t, ht, -, hm⟩ := mem_live.mp hu
  exact hc.single_of_mem_members (hts t ht) hm

/-- Nothing is left of a merge only if all of its types are superseded. -/
theorem Canonical.live_eq_nil_iff (hc : c.Canonical) (hts : ∀ t ∈ ts, t.index < c.size) :
    c.live ts = [] ↔ ∀ t ∈ ts, c.isSuperseded t = true := by
  constructor
  · intro h t ht
    refine Bool.not_eq_false _ ▸ fun hl => ?_
    obtain ⟨u, hu⟩ := List.exists_mem_of_ne_nil _ (hc.members_ne_nil (hts t ht))
    have : u ∈ c.live ts := mem_live.mpr ⟨t, ht, hl, hu⟩
    rw [h] at this
    cases this
  · intro h
    refine List.eq_nil_iff_forall_not_mem.mpr fun u hu => ?_
    obtain ⟨t, ht, hl, -⟩ := mem_live.mp hu
    rw [h t ht] at hl
    cases hl

/-- A merge of types none of which is superseded later consists of the same types later. -/
theorem Grows.live_eq (hg : c.Grows d) (hc : c.Grounded) (hts : ∀ t ∈ ts, t.index < c.size)
    (hl : ∀ t ∈ ts, d.isSuperseded t = false) : d.live ts = c.live ts := by
  unfold live
  congr 1
  rw [List.filter_eq_self.mpr fun t ht => by simp [hl t ht],
    List.filter_eq_self.mpr fun t ht => by simp [hg.not_isSuperseded (hl t ht)]]
  rw [List.flatMap_def, List.flatMap_def]
  congr 1
  exact List.map_congr_left fun t ht => hg.members_eq hc (hts t ht) (hl t ht)

theorem merge_extends (c : Catalog) (ts : List Ty) : c.Extends (c.merge ts).2 := by
  unfold merge
  split
  · exact .refl c
  · exact .refl c
  · exact union_extends c _

theorem merge_steady (c : Catalog) (ts : List Ty) : c.Steady (c.merge ts).2 := by
  unfold merge
  split
  · exact .refl c
  · exact .refl c
  · exact intern_steady (p := (·.isUnionOf _)) rfl

theorem two_le_length {α : Type} {l : List α} (hnil : l = [] → False)
    (hone : ∀ a, l = [a] → False) : 2 ≤ l.length := by
  match l with
  | [] => exact absurd rfl hnil
  | [a] => exact absurd rfl (hone a)
  | _ :: _ :: _ => simp

theorem Canonical.merge (hc : c.Canonical) (hts : ∀ t ∈ ts, t.index < c.size) :
    (c.merge ts).2.Canonical := by
  have hp := pairwise_live c ts
  have hs : ∀ u ∈ c.live ts, c.Single u := fun u hu => hc.single_of_mem_live hts hu
  unfold Catalog.merge
  split
  · exact hc
  · exact hc
  · next hnil hone => exact hc.union (two_le_length hnil hone) hp hs

theorem merge_eq_none_iff : (c.merge ts).1 = none ↔ c.live ts = [] := by
  unfold merge
  split
  · next h => simp [h]
  · next h => simp [h]
  · next hnil _ => simpa using hnil

theorem Canonical.merge_members (hc : c.Canonical) (hts : ∀ t ∈ ts, t.index < c.size) {t : Ty}
    (h : (c.merge ts).1 = some t) :
    (c.merge ts).2.Definite t ∧ (c.merge ts).2.members t = c.live ts := by
  have hs : ∀ u ∈ c.live ts, c.Single u := fun u hu => hc.single_of_mem_live hts hu
  unfold Catalog.merge at h ⊢
  split
  · next hl => rw [hl] at h; cases h
  · next u hl =>
    rw [hl] at h
    obtain rfl : u = t := by simpa using h
    have hu := hs u (by rw [hl]; exact List.mem_singleton_self u)
    exact ⟨hu.1, by rw [members_of_single hu, hl]⟩
  · next hnil hone =>
    have ht : (c.union (c.live ts)).1 = t := by
      split at h
      · next hl => exact absurd hl hnil
      · next u hl => exact absurd hl (hone u)
      · simpa using h
    subst ht
    exact ⟨definite_union c _, members_of_union (shape_union c _)⟩

/-- A merge is found again in any later catalog in which none of its types is superseded. -/
theorem Canonical.merge_again (hc : c.Canonical) (hts : ∀ t ∈ ts, t.index < c.size)
    (hg : (c.merge ts).2.Grows d) (hl : ∀ t ∈ ts, d.isSuperseded t = false) :
    d.merge ts = ((c.merge ts).1, d) := by
  have hcd := (merge_extends c ts).toGrows.trans hg
  have heq := hcd.live_eq hc.grounded hts hl
  unfold Catalog.merge at hg ⊢
  rw [heq]
  split
  · rfl
  · rfl
  · next hnil hone =>
    have hg' : (c.union (c.live ts)).2.Grows d := by
      split at hg
      · next h => exact absurd h hnil
      · next u h => exact absurd h (hone u)
      · exact hg
    rw [union_again hg']
    rfl

end Catalog

end FlowTyping
