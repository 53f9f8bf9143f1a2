import FlowTyping.Catalog.Storage
import FlowTyping.Proofs.Flow.Equality

/-
  Storage of equal types

  Equality looks slots and fields up by name and has no regard for the order of
  the members of a union; storage is made by walking slots, fields and members in
  order. A union leaves room for the widest member and the strictest alignment,
  whatever the order. Slots of one name have one layout in equal types, so the
  storages differ at most in where the slots are placed, and in that only if the
  slots are listed in different orders (`storage_of_equal`, `offsets_by_order`).
-/
namespace FlowTyping

open Relation

namespace Storage

/-! ## Unions -/

theorem foldl_max_le_iff {l : List Nat} {start bound : Nat} :
    l.foldl max start ≤ bound ↔ start ≤ bound ∧ ∀ x ∈ l, x ≤ bound := by
  induction l generalizing start with
  | nil => simp
  | cons x rest ih =>
    rw [List.foldl_cons, ih, Nat.max_le, List.forall_mem_cons, and_assoc]

theorem foldl_max_congr {l r : List Nat} (h : ∀ x, x ∈ l ↔ x ∈ r) (start : Nat) :
    l.foldl max start = r.foldl max start := by
  have hl := foldl_max_le_iff.mp (Nat.le_refl (l.foldl max start))
  have hr := foldl_max_le_iff.mp (Nat.le_refl (r.foldl max start))
  exact Nat.le_antisymm (foldl_max_le_iff.mpr ⟨hr.1, fun x hx => hr.2 x ((h x).mp hx)⟩)
    (foldl_max_le_iff.mpr ⟨hl.1, fun x hx => hl.2 x ((h x).mpr hx)⟩)

/-- Neither the order of the members nor how many have one layout makes a difference. -/
theorem tagged_congr {l r : List Layout} (h : ∀ x, x ∈ l ↔ x ∈ r) : tagged l = tagged r := by
  have hmap : ∀ f : Layout → Nat, ∀ n, n ∈ l.map f ↔ n ∈ r.map f := fun f n => by
    simp only [List.mem_map, h]
  unfold tagged
  rw [foldl_max_congr (hmap (·.size)), foldl_max_congr (hmap (·.align))]

/-! ## Slots -/

theorem names_placeFields (slots : List (String × Layout)) :
    ∀ offset, (placeFields offset slots).map (·.1) = slots.map (·.1) := by
  induction slots with
  | nil => exact fun _ => rfl
  | cons slot rest ih => exact fun offset => congrArg (slot.1 :: ·) (ih _)

/-- One value for each name, in one order of the names, makes one list. -/
theorem eq_of_perm_of_names {α : Type} {l r : List (String × α)} (hnodup : (l.map (·.1)).Nodup)
    (hperm : l.Perm r) (hnames : l.map (·.1) = r.map (·.1)) : l = r := by
  induction l generalizing r with
  | nil => exact hperm.nil_eq
  | cons entry rest ih =>
    cases r with
    | nil => cases hnames
    | cons entry' rest' =>
      obtain ⟨hname, hrest⟩ := List.cons.inj hnames
      have hentry : entry = entry' := by
        rcases List.mem_cons.mp (hperm.mem_iff.mp (List.mem_cons_self ..)) with h | h
        · exact h
        · have hin : entry.1 ∈ rest.map (·.1) := hrest ▸ List.mem_map_of_mem h
          exact absurd hin (List.nodup_cons.mp hnodup).1
      subst hentry
      rw [ih (List.nodup_cons.mp hnodup).2 hperm.cons_inv hrest]

/-- Storages of the same form, with slots of the same names. -/
structure Akin (s t : Storage) : Prop where
  size : s.size = t.size
  align : s.align = t.align
  indirect : s.indirect = t.indirect
  union : s.union = t.union
  names : (s.fields.map (·.1)).Perm (t.fields.map (·.1))

/-- Storages of the same form in which slots of the same names and layouts are placed, each name
once. -/
structure Alike (s t : Storage) : Prop extends s.Akin t where
  placed : ∃ l r : List (String × Layout), (l.map (·.1)).Nodup ∧ l.Perm r ∧
    s.fields = placeFields 0 l ∧ t.fields = placeFields 0 r

/-- Only the order of the slots can make a difference. -/
theorem Alike.eq_of_names {s t : Storage} (h : s.Alike t)
    (hnames : s.fields.map (·.1) = t.fields.map (·.1)) : s = t := by
  obtain ⟨l, r, hnodup, hperm, hs, ht⟩ := h.placed
  have hfields : s.fields = t.fields := by
    rw [hs, ht, names_placeFields, names_placeFields] at hnames
    rw [hs, ht, eq_of_perm_of_names hnodup hperm hnames]
  cases s
  cases t
  rw [mk.injEq]
  exact ⟨h.size, h.align, h.indirect, h.union, hfields⟩

theorem Alike.of_fields_nil {s : Storage} (h : s.fields = []) : s.Alike s where
  size := rfl
  align := rfl
  indirect := rfl
  union := rfl
  names := .refl _
  placed := ⟨[], [], List.nodup_nil, .refl _, h, h⟩

theorem akin_reference (w : Nat) {l r : List (String × Layout)}
    (h : (l.map (·.1)).Perm (r.map (·.1))) :
    (reference w (placeFields 0 l)).Akin (reference w (placeFields 0 r)) where
  size := rfl
  align := rfl
  indirect := rfl
  union := rfl
  names := by
    change ((placeFields 0 l).map _).Perm ((placeFields 0 r).map _)
    rwa [names_placeFields, names_placeFields]

theorem alike_reference (w : Nat) {l r : List (String × Layout)} (hnodup : (l.map (·.1)).Nodup)
    (h : l.Perm r) : (reference w (placeFields 0 l)).Alike (reference w (placeFields 0 r)) where
  toAkin := akin_reference w (h.map _)
  placed := ⟨l, r, hnodup, h, rfl, rfl⟩

end Storage

section

variable {α β : Type} {f : α → Option β} {l : List α} {r : List β}

theorem mapM_eq_none_iff : l.mapM f = none ↔ none ∈ l.map f := by
  induction l with
  | nil => simp
  | cons a rest ih =>
    rw [List.mapM_cons]
    cases hf : f a with
    | none => simp [hf]
    | some b => cases hrest : rest.mapM f <;> simp_all

theorem map_of_mapM_eq_some (h : l.mapM f = some r) : l.map f = r.map some := by
  induction l generalizing r with
  | nil =>
    cases h
    rfl
  | cons a rest ih =>
    rw [List.mapM_cons] at h
    obtain ⟨b, hb, h⟩ := Option.bind_eq_some_iff.mp h
    obtain ⟨bs, hbs, h⟩ := Option.bind_eq_some_iff.mp h
    cases h
    rw [List.map_cons, List.map_cons, hb, ih hbs]

end

def Shape.isPrimitive : Shape → Bool
  | .primitive _ _ => true
  | _ => false

namespace Catalog

open Storage

variable {c : Catalog} {a b t : Ty} {l r members : List Ty} {w : Nat}

/-! ## What equal types have in common -/

theorem Parted.plainLayout_eq (hc : c.Parted) (h : c.equal a b = true) (w : Nat) :
    c.plainLayout w a = c.plainLayout w b := by
  unfold plainLayout
  rcases hc.equal_iff.mp h with h | h
  · rw [resolvedShape, resolvedShape, h]
  · generalize c.resolvedShape a = x at h ⊢
    generalize c.resolvedShape b = y at h ⊢
    cases h <;> rfl

theorem Parted.heldByReference_eq (hc : c.Parted) (h : c.equal a b = true) :
    c.heldByReference a = c.heldByReference b := by
  unfold heldByReference
  rcases hc.equal_iff.mp h with h | h
  · rw [resolvedShape, resolvedShape, h]
  · generalize c.resolvedShape a = x at h ⊢
    generalize c.resolvedShape b = y at h ⊢
    cases h <;> rfl

theorem Parted.canBeNilable_eq (hc : c.Parted) (h : c.equal a b = true) :
    c.canBeNilable a = c.canBeNilable b := by
  rcases hc.equal_iff.mp h with h | h
  · unfold canBeNilable resolvedShape
    rw [h]
  · unfold canBeNilable
    generalize c.resolvedShape a = x at h ⊢
    generalize c.resolvedShape b = y at h ⊢
    cases h <;> rfl

theorem Parted.isUnion_eq (hc : c.Parted) (h : c.equal a b = true) :
    (c.resolvedShape a).isUnion = (c.resolvedShape b).isUnion := by
  rcases hc.equal_iff.mp h with h | h
  · rw [resolvedShape, resolvedShape, h]
  · generalize c.resolvedShape a = x at h ⊢
    generalize c.resolvedShape b = y at h ⊢
    cases h <;> rfl

/-- `Nil` is a primitive type. -/
def NilPlain (c : Catalog) : Prop := (c.shape .nil).isPrimitive = true

theorem nilPlain_seeded : seeded.NilPlain := by
  unfold NilPlain
  decide +kernel

theorem NilPlain.grows {c' : Catalog} (hnil : c.NilPlain) (h : c.Grows c') : c'.NilPlain := by
  unfold NilPlain at hnil ⊢
  have hbecomes := h.shape .nil (Nat.lt_of_not_le fun hle => by
    rw [shape_of_size_le hle] at hnil
    cases hnil)
  generalize c.shape .nil = x at hnil hbecomes
  generalize c'.shape .nil = y at hbecomes ⊢
  cases hbecomes with
  | same => exact hnil
  | _ => cases hnil

theorem NilPlain.isPrimitive (hnil : c.NilPlain) (h : c.standsForNil t = true) :
    (c.resolvedShape t).isPrimitive = true := by
  rw [standsForNil, beq_iff_eq] at h
  rw [resolvedShape, h]
  exact hnil

theorem NilPlain.canBeNilable_eq (hnil : c.NilPlain) (h : c.standsForNil t = true) :
    c.canBeNilable t = false := by
  have hprimitive := hnil.isPrimitive h
  rw [standsForNil, beq_iff_eq] at h
  rw [canBeNilable, h]
  generalize c.resolvedShape t = x at hprimitive
  cases x with
  | primitive => rfl
  | _ => cases hprimitive

theorem Matching.isPrimitive_eq {same : Ty → Ty → Bool} {x y : Shape} (h : c.Matching same x y) :
    x.isPrimitive = false ∧ y.isPrimitive = false := by
  cases h <;> exact ⟨rfl, rfl⟩

/-- Only what stands for `Nil` is equal to it. -/
theorem Parted.standsForNil_eq (hc : c.Parted) (hnil : c.NilPlain) (h : c.equal a b = true) :
    c.standsForNil a = c.standsForNil b := by
  rcases hc.equal_iff.mp h with h | h
  · rw [standsForNil, standsForNil, h]
  · have hfirst : c.standsForNil a ≠ true := fun ha => by
      have hprimitive := hnil.isPrimitive ha
      rw [h.isPrimitive_eq.1] at hprimitive
      cases hprimitive
    have hsecond : c.standsForNil b ≠ true := fun hb => by
      have hprimitive := hnil.isPrimitive hb
      rw [h.isPrimitive_eq.2] at hprimitive
      cases hprimitive
    rw [Bool.eq_false_iff.mpr hfirst, Bool.eq_false_iff.mpr hsecond]

/-! ## Unions of equal members -/

/-- Each member of one union has an equal one in the other. -/
structure Partnered (c : Catalog) (l r : List Ty) : Prop where
  size : l.length = r.length
  right : ∀ s ∈ l, ∃ t ∈ r, c.equal s t = true
  left : ∀ t ∈ r, ∃ s ∈ l, c.equal s t = true

theorem Partnered.tagMembers_eq (h : c.Partnered l r) (hc : c.Parted) (w : Nat) :
    c.tagMembers w l = c.tagMembers w r := by
  have hmem : ∀ x, x ∈ l.map (c.plainLayout w) ↔ x ∈ r.map (c.plainLayout w) := by
    intro x
    rw [List.mem_map, List.mem_map]
    constructor
    · rintro ⟨s, hs, rfl⟩
      obtain ⟨t, ht, hst⟩ := h.right s hs
      exact ⟨t, ht, (hc.plainLayout_eq hst w).symm⟩
    · rintro ⟨t, ht, rfl⟩
      obtain ⟨s, hs, hst⟩ := h.left t ht
      exact ⟨s, hs, hc.plainLayout_eq hst w⟩
  unfold tagMembers
  cases hl : l.mapM (c.plainLayout w) with
  | none => rw [mapM_eq_none_iff.mpr ((hmem none).mp (mapM_eq_none_iff.mp hl))]
  | some ls =>
    cases hr : r.mapM (c.plainLayout w) with
    | none =>
      rw [mapM_eq_none_iff.mpr ((hmem none).mpr (mapM_eq_none_iff.mp hr))] at hl
      cases hl
    | some rs =>
      rw [map_of_mapM_eq_some hl, map_of_mapM_eq_some hr] at hmem
      rw [Option.map_some, Option.map_some, tagged_congr fun x => by simpa using hmem (some x)]

theorem nilablePart_iff (hnil : c.NilPlain) {p : Ty} (ht : c.resolvedShape t = .union members) :
    c.nilablePart t = some p ↔ members.length = 2 ∧ p ∈ members ∧ c.canBeNilable p = true ∧
      ∃ n ∈ members, c.standsForNil n = true := by
  have hexcludes : ∀ u, c.canBeNilable u = true → c.standsForNil u ≠ true := fun u hu hstands => by
    rw [hnil.canBeNilable_eq hstands] at hu
    cases hu
  unfold nilablePart
  rw [ht]
  constructor
  · intro h
    split at h
    · next x y hxy =>
      cases hxy
      split at h
      · next hcond =>
        rw [Bool.and_eq_true] at hcond
        cases h
        exact ⟨rfl, by simp, hcond.2, x, by simp, hcond.1⟩
      · split at h
        · next hcond =>
          rw [Bool.and_eq_true] at hcond
          cases h
          exact ⟨rfl, by simp, hcond.2, y, by simp, hcond.1⟩
        · cases h
    · cases h
  · rintro ⟨hsize, hp, hcan, n, hn, hstands⟩
    obtain ⟨x, y, rfl⟩ := List.length_eq_two.mp hsize
    have hne : p ≠ n := fun heq => hexcludes p hcan (heq ▸ hstands)
    -- of the two members one is `p`, and the other one stands for `Nil`
    rcases List.mem_pair.mp hp with rfl | rfl
    · obtain rfl : n = y := (List.mem_pair.mp hn).resolve_left hne.symm
      have hfirst : c.standsForNil p = false := Bool.eq_false_iff.mpr (hexcludes p hcan)
      simp only [hfirst, hstands, hcan, Bool.false_and, Bool.and_self, if_true, Bool.false_eq_true,
        if_false]
    · obtain rfl : n = x := (List.mem_pair.mp hn).resolve_right hne.symm
      simp only [hstands, hcan, Bool.and_self, if_true]

theorem nilableReference_iff (hnil : c.NilPlain) {p : Ty} (ht : c.resolvedShape t = .union members) :
    c.nilableReference t = some p ↔ members.length = 2 ∧
      (p ∈ members ∧ c.canBeNilable p = true ∧ c.heldByReference p = true) ∧
      ∃ n ∈ members, c.standsForNil n = true := by
  unfold nilableReference
  rw [Option.filter_eq_some_iff, nilablePart_iff hnil ht]
  tauto

theorem Partnered.nilableReference (h : c.Partnered l r) (hc : c.Parted) (hnil : c.NilPlain)
    (ha : c.resolvedShape a = .union l) (hb : c.resolvedShape b = .union r) :
    Option.Rel (fun p q => p ∈ l ∧ c.equal p q = true) (c.nilableReference a)
      (c.nilableReference b) := by
  have hright : ∀ p, c.nilableReference a = some p →
      ∃ q, c.nilableReference b = some q ∧ p ∈ l ∧ c.equal p q = true := by
    intro p hp
    obtain ⟨hsize, ⟨hin, hcan, hheld⟩, n, hn, hstands⟩ := (nilableReference_iff hnil ha).mp hp
    obtain ⟨q, hq, hpq⟩ := h.right p hin
    obtain ⟨m, hm, hnm⟩ := h.right n hn
    exact ⟨q, (nilableReference_iff hnil hb).mpr ⟨h.size ▸ hsize,
      ⟨hq, hc.canBeNilable_eq hpq ▸ hcan, hc.heldByReference_eq hpq ▸ hheld⟩, m, hm,
      hc.standsForNil_eq hnil hnm ▸ hstands⟩, hin, hpq⟩
  have hleft : ∀ q, c.nilableReference b = some q → c.nilableReference a ≠ none := by
    intro q hq hnone
    obtain ⟨hsize, ⟨hin, hcan, hheld⟩, n, hn, hstands⟩ := (nilableReference_iff hnil hb).mp hq
    obtain ⟨p, hp, hpq⟩ := h.left q hin
    obtain ⟨m, hm, hmn⟩ := h.left n hn
    have hsome := (nilableReference_iff hnil ha).mpr ⟨h.size.trans hsize,
      ⟨hp, (hc.canBeNilable_eq hpq).trans hcan, (hc.heldByReference_eq hpq).trans hheld⟩, m, hm,
      (hc.standsForNil_eq hnil hmn).trans hstands⟩
    rw [hnone] at hsome
    cases hsome
  cases hx : c.nilableReference a with
  | none =>
    cases hy : c.nilableReference b with
    | none => exact .none
    | some q => exact absurd hx (hleft q hy)
  | some p =>
    obtain ⟨q, hq, hpq⟩ := hright p hx
    rw [hq]
    exact .some hpq

theorem layoutOf_of_isUnion_eq_false (h : (c.resolvedShape t).isUnion = false) :
    c.layoutOf w t = c.plainLayout w t := by
  unfold layoutOf
  cases hs : c.resolvedShape t with
  | union members =>
    rw [hs] at h
    cases h
  | _ => rfl

theorem storage_of_isUnion_eq_false (h : (c.resolvedShape t).isUnion = false) :
    c.storage w t = c.plainStorage w t := by
  unfold storage
  cases hs : c.resolvedShape t with
  | union members =>
    rw [hs] at h
    cases h
  | _ => rfl

/-! ## Storage -/

/-- Slots of equal types have the same names, and under one name types that are equal. -/
theorem slots_of_matching {same : Ty → Ty → Bool}
    (h : c.Matching same (c.resolvedShape a) (c.resolvedShape b)) :
    (c.slots a).size = (c.slots b).size ∧ ∀ slot ∈ (c.slots a).entries, ∃ other,
      (c.slots b).get? slot.1 = some other ∧
        Option.Rel (fun s t => s ∈ c.parts a ∧ same s t = true) slot.2 other := by
  unfold slots parts
  generalize c.resolvedShape a = x at h ⊢
  generalize c.resolvedShape b = y at h ⊢
  cases h with
  | object hgeneric _ _ hslots =>
    obtain ⟨hsize, hall⟩ := sameSlots_iff.mp hslots
    refine ⟨hsize, fun slot hslot => ?_⟩
    obtain ⟨other, hother, hmatch⟩ := hall slot hslot
    refine ⟨other, hother, ?_⟩
    cases hs : slot.2 with
    | none =>
      rw [hs] at hmatch
      cases other with
      | none => exact .none
      | some t => exact hmatch.elim
    | some s =>
      rw [hs] at hmatch
      cases other with
      | none => exact hmatch.elim
      | some t =>
        refine .some ⟨?_, hmatch⟩
        rw [Shape.parts, if_pos hgeneric]
        exact List.mem_filterMap.mpr ⟨slot, hslot, hs⟩
  | record _ hfields =>
    obtain ⟨hsize, hall⟩ := sameFields_iff.mp hfields
    refine ⟨by simpa [Table.size] using hsize, fun slot hslot => ?_⟩
    obtain ⟨field, hfield, rfl⟩ := List.mem_map.mp hslot
    obtain ⟨other, hother, hsame⟩ := hall field hfield
    refine ⟨some other, ?_, .some ⟨List.mem_map_of_mem hfield, hsame⟩⟩
    rw [Table.get?_mapValues, hother]
    rfl
  | _ => exact ⟨rfl, fun _ hslot => by cases hslot⟩

/-- Each slot is listed once. -/
theorem nodup_slots_of_distinct (hdistinct : ∀ t, Distinct (c.shape t)) (t : Ty) :
    (c.slots t).keys.Nodup := by
  have hdistinct := hdistinct (c.resolve t)
  rw [← resolvedShape] at hdistinct
  unfold slots
  cases hs : c.resolvedShape t with
  | object o =>
    rw [hs] at hdistinct
    exact hdistinct
  | record k fields =>
    rw [hs] at hdistinct
    rwa [Table.keys, List.map_map]
  | _ => exact List.nodup_nil

/-- Comparing types goes from parts to parts and ends, on entries that are well-formed. -/
structure Comparable (c : Catalog) : Prop where
  parted : c.Parted
  nilPlain : c.NilPlain
  wellFounded : WellFounded fun p t => p ∈ c.parts t
  distinct : ∀ t, Distinct (c.shape t)

theorem Discerning.part {p : Ty} (h : c.Discerning t) (hp : p ∈ c.parts t) : c.Discerning p :=
  fun u hu => h u (.head hp hu)

namespace Comparable

theorem partnered (hc : c.Comparable) (ha : c.Discerning a) (hl : c.resolvedShape a = .union l)
    (h : c.Matching c.equal (.union l) (.union r)) : c.Partnered l r := by
  have hpart : ∀ s ∈ l, s ∈ c.parts a := fun s hs => by rwa [parts, hl]
  cases h with
  | union hsize hmembers =>
    have hnodup : l.Nodup := by
      have := hc.distinct (c.resolve a)
      rwa [← resolvedShape, hl] at this
    refine ⟨hsize, hmembers, exists_partner hnodup hsize hmembers fun s hs s' hs' t hst hst' => ?_⟩
    have hback := hc.parted.equal_symm hc.wellFounded hc.distinct s' t (ha.part (hpart s' hs')) hst'
    exact ha a .refl l hl s hs s' hs' (hc.parted.equal_trans hc.wellFounded s t s' hst hback)

/-- A type that equals a union is one, with equal members. -/
theorem exists_partnered (hc : c.Comparable) (ha : c.Discerning a) (h : c.equal a b = true)
    (hl : c.resolvedShape a = .union l) : ∃ r, c.resolvedShape b = .union r ∧ c.Partnered l r := by
  rcases hc.parted.equal_iff.mp h with heq | hmatch
  · exact ⟨l, by rw [resolvedShape, ← heq]; exact hl, rfl,
      fun s hs => ⟨s, hs, hc.parted.equal_refl s⟩, fun s hs => ⟨s, hs, hc.parted.equal_refl s⟩⟩
  · cases hr : c.resolvedShape b with
    | union r =>
      rw [hl, hr] at hmatch
      exact ⟨r, rfl, hc.partnered ha hl hmatch⟩
    | _ =>
      rw [hl, hr] at hmatch
      cases hmatch

/-- Slots with equal types have one layout. -/
theorem layoutOf_eq (hc : c.Comparable) (ha : c.Discerning a) (h : c.equal a b = true) (w : Nat) :
    c.layoutOf w a = c.layoutOf w b := by
  cases hl : c.resolvedShape a with
  | union l =>
    obtain ⟨r, hr, hpartnered⟩ := hc.exists_partnered ha h hl
    have hrel := hpartnered.nilableReference hc.parted hc.nilPlain hl hr
    have hsome : (c.nilableReference a).isSome = (c.nilableReference b).isSome := by
      generalize c.nilableReference a = x at hrel ⊢
      generalize c.nilableReference b = y at hrel ⊢
      cases hrel <;> rfl
    rw [layoutOf, layoutOf, hl, hr]
    dsimp only
    rw [hsome, hpartnered.tagMembers_eq hc.parted w]
  | _ =>
    have hunion : (c.resolvedShape a).isUnion = false := by rw [hl]; rfl
    rw [layoutOf_of_isUnion_eq_false hunion,
      layoutOf_of_isUnion_eq_false (hc.parted.isUnion_eq h ▸ hunion)]
    exact hc.parted.plainLayout_eq h w

theorem nodup_slots (hc : c.Comparable) (t : Ty) : (c.slots t).keys.Nodup :=
  nodup_slots_of_distinct hc.distinct t

theorem nodup_placements (hc : c.Comparable) (t : Ty) (w : Nat) :
    ((c.slotPlacements w (c.slots t)).map (·.1)).Nodup := by
  rw [slotPlacements, List.map_map]
  exact hc.nodup_slots t

theorem placements_perm (hc : c.Comparable) (ha : c.Discerning a)
    (h : c.Matching c.equal (c.resolvedShape a) (c.resolvedShape b)) (w : Nat) :
    (c.slotPlacements w (c.slots a)).Perm (c.slotPlacements w (c.slots b)) := by
  obtain ⟨hsize, hall⟩ := slots_of_matching h
  refine Table.map_perm (.of_map _ (hc.nodup_placements a w)) hsize fun slot hslot => ?_
  obtain ⟨other, hother, hsame⟩ := hall slot hslot
  refine ⟨other, hother, ?_⟩
  have hlayout : slot.2.bind (c.layoutOf w) = other.bind (c.layoutOf w) := by
    generalize slot.2 = own at hsame
    cases hsame with
    | none => rfl
    | some hst => exact hc.layoutOf_eq (ha.part hst.1) hst.2 w
  rw [hlayout]

theorem names_perm (hc : c.Comparable)
    (h : c.Matching c.equal (c.resolvedShape a) (c.resolvedShape b)) (w : Nat) :
    ((c.slotPlacements w (c.slots a)).map (·.1)).Perm
      ((c.slotPlacements w (c.slots b)).map (·.1)) := by
  obtain ⟨hsize, hall⟩ := slots_of_matching h
  rw [slotPlacements, slotPlacements, List.map_map, List.map_map]
  exact Table.map_perm (hc.nodup_slots a) hsize fun slot hslot =>
    (hall slot hslot).imp fun _ h => ⟨h.1, rfl⟩

theorem plainStorage_refl (hc : c.Comparable) (h : c.resolve a = c.resolve b) (w : Nat) :
    Option.Rel Alike (c.plainStorage w a) (c.plainStorage w b) := by
  have hb : c.plainStorage w b = c.plainStorage w a := by
    unfold plainStorage slots resolvedShape
    rw [h]
  rw [hb]
  have hplaced := alike_reference w (hc.nodup_placements a w) (.refl _)
  unfold plainStorage
  cases c.resolvedShape a with
  | object o => exact .some hplaced
  | record k fields => exact .some hplaced
  | pointer p => exact .some (.of_fields_nil rfl)
  | primitive k width => exact .some (.of_fields_nil rfl)
  | metaclass k t => exact .some (.of_fields_nil rfl)
  | _ => exact .none

/-- Types other than unions are held alike if their slots are placed alike. -/
theorem plainStorage_rel {R : Storage → Storage → Prop}
    (hfields : R (.reference w (placeFields 0 (c.slotPlacements w (c.slots a))))
      (.reference w (placeFields 0 (c.slotPlacements w (c.slots b)))))
    (hpointer : R (.reference w []) (.reference w []))
    (h : c.Matching c.equal (c.resolvedShape a) (c.resolvedShape b)) :
    Option.Rel R (c.plainStorage w a) (c.plainStorage w b) := by
  unfold plainStorage
  generalize c.resolvedShape a = x at h ⊢
  generalize c.resolvedShape b = y at h ⊢
  cases h with
  | object => exact .some hfields
  | record => exact .some hfields
  | pointer => exact .some hpointer
  | union => exact .none

theorem plainStorage_akin (hc : c.Comparable) (h : c.equal a b = true) (w : Nat) :
    Option.Rel Akin (c.plainStorage w a) (c.plainStorage w b) := by
  rcases hc.parted.equal_iff.mp h with heq | hmatch
  · have hrel := hc.plainStorage_refl heq w
    generalize c.plainStorage w a = x at hrel ⊢
    generalize c.plainStorage w b = y at hrel ⊢
    cases hrel with
    | none => exact .none
    | some h => exact .some h.toAkin
  · exact plainStorage_rel (akin_reference w (hc.names_perm hmatch w))
      (Alike.of_fields_nil rfl).toAkin hmatch

theorem plainStorage_alike (hc : c.Comparable) (ha : c.Discerning a) (h : c.equal a b = true)
    (w : Nat) : Option.Rel Alike (c.plainStorage w a) (c.plainStorage w b) := by
  rcases hc.parted.equal_iff.mp h with heq | hmatch
  · exact hc.plainStorage_refl heq w
  · exact plainStorage_rel
      (alike_reference w (hc.nodup_placements a w) (hc.placements_perm ha hmatch w))
      (.of_fields_nil rfl) hmatch

theorem storage_akin (hc : c.Comparable) (hunion : (c.resolvedShape a).isUnion = false)
    (h : c.equal a b = true) (w : Nat) : Option.Rel Akin (c.storage w a) (c.storage w b) := by
  rw [storage_of_isUnion_eq_false hunion,
    storage_of_isUnion_eq_false (hc.parted.isUnion_eq h ▸ hunion)]
  exact hc.plainStorage_akin h w

theorem storage_alike (hc : c.Comparable) (ha : c.Discerning a) (h : c.equal a b = true) (w : Nat) :
    Option.Rel Alike (c.storage w a) (c.storage w b) := by
  cases hl : c.resolvedShape a with
  | union l =>
    obtain ⟨r, hr, hpartnered⟩ := hc.exists_partnered ha h hl
    have hrel := hpartnered.nilableReference hc.parted hc.nilPlain hl hr
    rw [storage, storage, hl, hr]
    dsimp only
    rw [hpartnered.tagMembers_eq hc.parted w]
    generalize c.nilableReference a = x at hrel ⊢
    generalize c.nilableReference b = y at hrel ⊢
    cases hrel with
    | none =>
      rw [tagMembers]
      cases r.mapM (c.plainLayout w) with
      | none => exact .none
      | some layouts => exact .some (.of_fields_nil rfl)
    | some hpq => exact hc.plainStorage_alike (ha.part (by rw [parts, hl]; exact hpq.1)) hpq.2 w
  | _ =>
    have hunion : (c.resolvedShape a).isUnion = false := by rw [hl]; rfl
    rw [storage_of_isUnion_eq_false hunion,
      storage_of_isUnion_eq_false (hc.parted.isUnion_eq h ▸ hunion)]
    exact hc.plainStorage_alike ha h w

end Comparable

end Catalog

namespace Store

open Catalog

variable {s : Store}

theorem Started.nilPlain (h : s.Started) : s.catalog.NilPlain := by
  obtain ⟨limit, hsession⟩ := h
  have hkeeps := hsession.keeps
    (orderly_start (orderly_of_elementary Catalog.elementary_seeded) limit)
  have hgrows := hkeeps.2.grows
  dsimp only at hgrows
  exact nilPlain_seeded.grows hgrows

theorem Moved.comparable (h : s.Moved) (hfree : s.catalog.Unlooped) : s.catalog.Comparable :=
  ⟨h.parted, h.started.nilPlain, h.wellFounded_parts hfree, h.distinct⟩

/-- Records of one name, with fields of the same types in two orders. -/
def swappedPoints : Catalog :=
  ((seeded.perform (.mixin "Other" (some .main))).perform
    (.record "Point" [("x", .int), ("y", .double)] .main)).perform
    (.record "Point" [("y", .double), ("x", .int)] ⟨36⟩)

theorem moved_swappedPoints : Moved ⟨swappedPoints, .empty 0⟩ := by
  have hknown : seeded.Knows (.mixin "Other" (some .main)) ∧
      (seeded.perform (.mixin "Other" (some .main))).Knows
        (.record "Point" [("x", .int), ("y", .double)] .main) ∧
      ((seeded.perform (.mixin "Other" (some .main))).perform
        (.record "Point" [("x", .int), ("y", .double)] .main)).Knows
        (.record "Point" [("y", .double), ("x", .int)] ⟨36⟩) := by
    decide +kernel
  exact (((Moved.start 0).request hknown.1).request hknown.2.1).request hknown.2.2

theorem unlooped_swappedPoints : swappedPoints.Unlooped := by
  have hearlier : ∀ i < swappedPoints.size, ∀ p ∈ swappedPoints.parts ⟨i⟩,
      (swappedPoints.resolve p).index < (swappedPoints.resolve ⟨i⟩).index := by decide +kernel
  exact unlooped_of_earlier hearlier

end Store

end FlowTyping
