import Mathlib.Data.Finite.Prod
import Mathlib.Data.List.ProdSigma
import Mathlib.Order.WellFounded
import FlowTyping.Catalog.Equality
import FlowTyping.Proofs.Catalog.Bindings
import FlowTyping.Proofs.Flow.Composition

/-
  Equality of types

  Two types that are not one are compared part by part. In a store that
  operations on entered types lead to, only a generic object can contain itself;
  where none does, the comparison comes to an end (`wellFounded_parts`), its bound
  has no part in the result (`equal_eq`), and equality is reflexive and
  transitive.

  It is not symmetric. Each member of one union has to have an equal partner in
  the other one, which has to have as many members; but two members may have one
  partner if they are equal to each other. Equality is symmetric for types that
  contain no such union (`equal_symm`).
-/
namespace FlowTyping

open Relation

/-- The types that an entry is compared by. -/
def Shape.parts : Shape → List Ty
  | .object o => if o.generic then o.slots.entries.filterMap (·.2) else []
  | .pointer pointee => pointee.toList
  | .record _ fields => fields.entries.map (·.2)
  | .union members => members
  | _ => []

/-- A part is earlier than the entry, unless the entry is a generic object. -/
theorem Shape.Composed.of_mem_parts {s : Shape} {index size : Nat} {p : Ty}
    (h : s.Composed index size) (hp : p ∈ s.parts) :
    p.index < index ∨ (∃ o, s = .object o ∧ o.generic = true) ∧ p.index < size := by
  cases s with
  | object o =>
    by_cases hgeneric : o.generic = true
    · rw [parts, if_pos hgeneric] at hp
      obtain ⟨slot, hslot, hu⟩ := List.mem_filterMap.mp hp
      exact .inr ⟨⟨o, rfl, hgeneric⟩, h.2 slot hslot p hu⟩
    · rw [parts, if_neg hgeneric] at hp
      cases hp
  | pointer pointee => exact .inl (h p (Option.mem_toList.mp hp))
  | record k fields =>
    obtain ⟨field, hfield, rfl⟩ := List.mem_map.mp hp
    exact .inl (h.2 field hfield)
  | union members => exact .inl (h p hp)
  | _ => cases hp

namespace Table

variable {κ α β : Type} [DecidableEq κ]

/-- What is made of the entries of one table is made of those of another one, if there are as many
and each has a partner under its key. -/
theorem map_perm {γ : Type} {a : Table κ α} {b : Table κ β} {f : κ × α → γ} {g : κ × β → γ}
    (ha : (a.entries.map f).Nodup) (hsize : a.size = b.size)
    (h : ∀ entry ∈ a.entries, ∃ value, b.get? entry.1 = some value ∧ f entry = g (entry.1, value)) :
    (a.entries.map f).Perm (b.entries.map g) := by
  have hsub : a.entries.map f ⊆ b.entries.map g := fun x hx => by
    obtain ⟨entry, hentry, rfl⟩ := List.mem_map.mp hx
    obtain ⟨value, hvalue, hsame⟩ := h entry hentry
    exact List.mem_map.mpr ⟨_, mem_of_get? hvalue, hsame.symm⟩
  refine (ha.subperm hsub).perm_of_length_le (Nat.le_of_eq ?_)
  rw [List.length_map, List.length_map]
  exact hsize.symm

/-- A table that has all keys of another one, and as many, has no others. -/
theorem exists_of_mem {a : Table κ α} {b : Table κ β} {entry : κ × β} (ha : a.keys.Nodup)
    (hsize : a.size = b.size) (hsub : ∀ entry ∈ a.entries, ∃ value, b.get? entry.1 = some value)
    (h : entry ∈ b.entries) : ∃ other, (entry.1, other) ∈ a.entries := by
  have hperm : a.keys.Perm b.keys :=
    map_perm ha hsize fun entry hentry => (hsub entry hentry).imp fun _ h => ⟨h, rfl⟩
  obtain ⟨other, hother, hkey⟩ :=
    List.mem_map.mp (hperm.mem_iff.mpr (List.mem_map.mpr ⟨entry, h, rfl⟩))
  have hkey : other.1 = entry.1 := hkey
  exact ⟨other.2, hkey ▸ hother⟩

end Table

namespace Catalog

variable {c : Catalog} {t u a b d : Ty} {same same' : Ty → Ty → Bool} {x y z : Shape}

/-- What a type is compared by. -/
def parts (c : Catalog) (t : Ty) : List Ty := (c.resolvedShape t).parts

/-! ## Comparing shapes -/

theorem sameSlots_iff {l r : Table String (Option Ty)} :
    sameSlots same l r = true ↔ l.size = r.size ∧ ∀ slot ∈ l.entries,
      ∃ other, r.get? slot.1 = some other ∧
        match slot.2, other with
        | some s, some t => same s t = true
        | none, none => True
        | _, _ => False := by
  unfold sameSlots
  rw [Bool.and_eq_true, beq_iff_eq, List.all_eq_true]
  refine and_congr_right fun _ => forall₂_congr fun slot _ => ?_
  rcases slot.2 with _ | s <;> rcases r.get? slot.1 with _ | _ | t <;> simp

theorem sameFields_iff {l r : Table String Ty} :
    sameFields same l r = true ↔ l.size = r.size ∧ ∀ field ∈ l.entries,
      ∃ other, r.get? field.1 = some other ∧ same field.2 other = true := by
  unfold sameFields
  rw [Bool.and_eq_true, beq_iff_eq, List.all_eq_true]
  refine and_congr_right fun _ => forall₂_congr fun field _ => ?_
  rcases r.get? field.1 with _ | t <;> simp

theorem sameUnion_iff {l r : List Ty} :
    (l.length == r.length && l.all fun s => r.any (same s)) = true ↔
      l.length = r.length ∧ ∀ s ∈ l, ∃ t ∈ r, same s t = true := by
  simp

/-- What an equality of shapes says of their parts. -/
inductive Matching (c : Catalog) (same : Ty → Ty → Bool) : Shape → Shape → Prop
  | object {o o' : ObjectShape} (hgeneric : o.generic = true) (hgeneric' : o'.generic = true)
      (hcls : o.cls = o'.cls) (hslots : sameSlots same o.slots o'.slots = true) :
      Matching c same (.object o) (.object o')
  | pointer {p q : Ty} (h : same p q = true) : Matching c same (.pointer (some p)) (.pointer (some q))
  | record {k l : ClassHandle} {f g : Table String Ty}
      (hname : (c.classTable k).name = (c.classTable l).name)
      (hfields : sameFields same f g = true) : Matching c same (.record k f) (.record l g)
  | union {l r : List Ty} (hsize : l.length = r.length)
      (hmembers : ∀ s ∈ l, ∃ t ∈ r, same s t = true) : Matching c same (.union l) (.union r)

theorem sameShape_iff : c.sameShape same x y = true ↔ c.Matching same x y := by
  constructor
  · intro h
    unfold sameShape at h
    split at h
    · rw [Bool.and_eq_true, Bool.and_eq_true, Bool.and_eq_true, beq_iff_eq] at h
      exact .object h.1.1.1 h.1.1.2 h.1.2 h.2
    · exact .pointer h
    · rw [Bool.and_eq_true, beq_iff_eq] at h
      exact .record h.1 h.2
    · exact .union (sameUnion_iff.mp h).1 (sameUnion_iff.mp h).2
    · cases h
  · intro h
    cases h with
    | object hgeneric hgeneric' hcls hslots =>
      simp only [sameShape, hgeneric, hgeneric', hcls, hslots, beq_self_eq_true, Bool.and_self]
    | pointer h => exact h
    | record hname hfields => simp only [sameShape, hname, hfields, beq_self_eq_true, Bool.and_self]
    | union hsize hmembers => exact sameUnion_iff.mpr ⟨hsize, hmembers⟩

/-- Shapes that are alike are so by any comparison that holds of the same parts. -/
theorem Matching.mono (h : c.Matching same x y)
    (hparts : ∀ p ∈ x.parts, ∀ q ∈ y.parts, same p q = true → same' p q = true) :
    c.Matching same' x y := by
  cases h with
  | @object o o' hgeneric hgeneric' hcls hslots =>
    refine .object hgeneric hgeneric' hcls (sameSlots_iff.mpr ?_)
    obtain ⟨hsize, hall⟩ := sameSlots_iff.mp hslots
    refine ⟨hsize, fun slot hslot => ?_⟩
    obtain ⟨other, hother, hmatch⟩ := hall slot hslot
    refine ⟨other, hother, ?_⟩
    cases hs : slot.2 with
    | none => rw [hs] at hmatch; cases other <;> exact hmatch
    | some s =>
      rw [hs] at hmatch
      cases other with
      | none => exact hmatch
      | some t =>
        refine hparts s ?_ t ?_ hmatch
        · rw [Shape.parts, if_pos hgeneric]
          exact List.mem_filterMap.mpr ⟨slot, hslot, hs⟩
        · rw [Shape.parts, if_pos hgeneric']
          exact List.mem_filterMap.mpr ⟨_, Table.mem_of_get? hother, rfl⟩
  | pointer h => exact .pointer (hparts _ (List.mem_singleton_self _) _ (List.mem_singleton_self _) h)
  | @record k l f g hname hfields =>
    refine .record hname (sameFields_iff.mpr ?_)
    obtain ⟨hsize, hall⟩ := sameFields_iff.mp hfields
    refine ⟨hsize, fun field hfield => ?_⟩
    obtain ⟨other, hother, hsame⟩ := hall field hfield
    exact ⟨other, hother, hparts _ (List.mem_map_of_mem hfield) _
      (List.mem_map.mpr ⟨_, Table.mem_of_get? hother, rfl⟩) hsame⟩
  | union hsize hmembers =>
    refine .union hsize fun s hs => ?_
    obtain ⟨t, ht, hsame⟩ := hmembers s hs
    exact ⟨t, ht, hparts s hs t ht hsame⟩

theorem sameShape_congr (h : ∀ p ∈ x.parts, ∀ q ∈ y.parts, same p q = same' p q) :
    c.sameShape same x y = c.sameShape same' x y := by
  rw [Bool.eq_iff_iff, sameShape_iff, sameShape_iff]
  exact ⟨fun hs => hs.mono fun p hp q hq hpq => h p hp q hq ▸ hpq,
    fun hs => hs.mono fun p hp q hq hpq => (h p hp q hq).symm ▸ hpq⟩

theorem Matching.trans (h : c.Matching same x y) (h' : c.Matching same y z)
    (hparts : ∀ p ∈ x.parts, ∀ q r, same p q = true → same q r = true → same p r = true) :
    c.Matching same x z := by
  cases h with
  | @object o o' hgeneric hgeneric' hcls hslots =>
    cases h' with
    | @object _ o'' _ hgeneric'' hcls' hslots' =>
      refine .object hgeneric hgeneric'' (hcls.trans hcls') (sameSlots_iff.mpr ?_)
      obtain ⟨hsize, hall⟩ := sameSlots_iff.mp hslots
      obtain ⟨hsize', hall'⟩ := sameSlots_iff.mp hslots'
      refine ⟨hsize.trans hsize', fun slot hslot => ?_⟩
      obtain ⟨other, hother, hmatch⟩ := hall slot hslot
      obtain ⟨third, hthird, hmatch'⟩ := hall' _ (Table.mem_of_get? hother)
      refine ⟨third, hthird, ?_⟩
      dsimp only at hmatch'
      cases hs : slot.2 with
      | none => rw [hs] at hmatch; cases other <;> cases third <;> simp_all
      | some s =>
        rw [hs] at hmatch
        cases other with
        | none => exact hmatch.elim
        | some t =>
          cases third with
          | none => exact hmatch'.elim
          | some u =>
            refine hparts s ?_ t u hmatch hmatch'
            rw [Shape.parts, if_pos hgeneric]
            exact List.mem_filterMap.mpr ⟨slot, hslot, hs⟩
  | pointer h =>
    cases h' with
    | pointer h' => exact .pointer (hparts _ (List.mem_singleton_self _) _ _ h h')
  | record hname hfields =>
    cases h' with
    | record hname' hfields' =>
      refine .record (hname.trans hname') (sameFields_iff.mpr ?_)
      obtain ⟨hsize, hall⟩ := sameFields_iff.mp hfields
      obtain ⟨hsize', hall'⟩ := sameFields_iff.mp hfields'
      refine ⟨hsize.trans hsize', fun field hfield => ?_⟩
      obtain ⟨other, hother, hsame⟩ := hall field hfield
      obtain ⟨third, hthird, hsame'⟩ := hall' _ (Table.mem_of_get? hother)
      exact ⟨third, hthird, hparts _ (List.mem_map_of_mem hfield) _ _ hsame hsame'⟩
  | union hsize hmembers =>
    cases h' with
    | union hsize' hmembers' =>
      refine .union (hsize.trans hsize') fun s hs => ?_
      obtain ⟨t, ht, hsame⟩ := hmembers s hs
      obtain ⟨u, hu, hsame'⟩ := hmembers' t ht
      exact ⟨u, hu, hparts s hs t u hsame hsame'⟩

/-- If no two members of a list have one partner, each partner has a member. -/
theorem exists_partner {l r : List Ty} (hl : l.Nodup) (hsize : l.length = r.length)
    (hmembers : ∀ s ∈ l, ∃ t ∈ r, same s t = true)
    (hone : ∀ s ∈ l, ∀ s' ∈ l, ∀ t, same s t = true → same s' t = true → s = s') :
    ∀ t ∈ r, ∃ s ∈ l, same s t = true := by
  classical
  choose! partner hmem hsame using hmembers
  have hinj : (l.map partner).Nodup := by
    refine List.Nodup.map_on (fun s hs s' hs' heq => ?_) hl
    exact hone s hs s' hs' (partner s) (hsame s hs) (heq ▸ hsame s' hs')
  have hsub : l.map partner ⊆ r := fun t ht => by
    obtain ⟨s, hs, rfl⟩ := List.mem_map.mp ht
    exact hmem s hs
  have hperm : (l.map partner).Perm r :=
    (hinj.subperm hsub).perm_of_length_le (by rw [List.length_map]; exact Nat.le_of_eq hsize.symm)
  intro t ht
  obtain ⟨s, hs, rfl⟩ := List.mem_map.mp (hperm.mem_iff.mpr ht)
  exact ⟨s, hs, hsame s hs⟩

/-- An entry has no name twice, and a union no member. -/
def Distinct : Shape → Prop
  | .object o => o.slots.keys.Nodup
  | .record _ fields => fields.keys.Nodup
  | .union members => members.Nodup
  | _ => True

theorem Matching.symm (h : c.Matching same x y) (hx : Distinct x) (hy : Distinct y)
    (hparts : ∀ p ∈ x.parts, ∀ q, same p q = true → same q p = true)
    (hunion : ∀ members, x = .union members → ∀ s ∈ members, ∀ s' ∈ members, ∀ t,
      same s t = true → same s' t = true → s = s') : c.Matching same y x := by
  cases h with
  | @object o o' hgeneric hgeneric' hcls hslots =>
    refine .object hgeneric' hgeneric hcls.symm (sameSlots_iff.mpr ?_)
    obtain ⟨hsize, hall⟩ := sameSlots_iff.mp hslots
    refine ⟨hsize.symm, fun slot hslot => ?_⟩
    obtain ⟨own, hown⟩ := Table.exists_of_mem hx hsize
      (fun entry hentry => (hall entry hentry).imp fun _ h => h.1) hslot
    obtain ⟨other, hother, hmatch⟩ := hall _ hown
    have hget : o'.slots.get? slot.1 = some slot.2 := (lookup_eq_some_iff_mem hy).mpr hslot
    obtain rfl : slot.2 = other := Option.some.inj (hget.symm.trans hother)
    refine ⟨own, (lookup_eq_some_iff_mem hx).mpr hown, ?_⟩
    dsimp only at hmatch
    cases own with
    | none => cases hs : slot.2 <;> rw [hs] at hmatch <;> exact hmatch
    | some s =>
      cases hs : slot.2 with
      | none => rw [hs] at hmatch; exact hmatch
      | some t =>
        rw [hs] at hmatch
        refine hparts s ?_ t hmatch
        rw [Shape.parts, if_pos hgeneric]
        exact List.mem_filterMap.mpr ⟨_, hown, rfl⟩
  | pointer h => exact .pointer (hparts _ (List.mem_singleton_self _) _ h)
  | @record k l f g hname hfields =>
    refine .record hname.symm (sameFields_iff.mpr ?_)
    obtain ⟨hsize, hall⟩ := sameFields_iff.mp hfields
    refine ⟨hsize.symm, fun field hfield => ?_⟩
    obtain ⟨own, hown⟩ := Table.exists_of_mem hx hsize
      (fun entry hentry => (hall entry hentry).imp fun _ h => h.1) hfield
    obtain ⟨other, hother, hsame⟩ := hall _ hown
    have hget : g.get? field.1 = some field.2 := (lookup_eq_some_iff_mem hy).mpr hfield
    obtain rfl : field.2 = other := Option.some.inj (hget.symm.trans hother)
    exact ⟨own, (lookup_eq_some_iff_mem hx).mpr hown,
      hparts _ (List.mem_map.mpr ⟨_, hown, rfl⟩) _ hsame⟩
  | @union l r hsize hmembers =>
    refine .union hsize.symm fun t ht => ?_
    obtain ⟨s, hs, hsame⟩ := exists_partner hx hsize hmembers (hunion l rfl) t ht
    exact ⟨s, hs, hparts s hs t hsame⟩

/-! ## The bound of a comparison -/

/-- What is true of all pairs of parts is found out with one step more. -/
theorem equalWithin_congr {n m : Nat}
    (h : ∀ p ∈ c.parts a, ∀ q ∈ c.parts b, c.equalWithin n p q = c.equalWithin m p q) :
    c.equalWithin (n + 1) a b = c.equalWithin (m + 1) a b := by
  rw [equalWithin, equalWithin, sameShape_congr h]

theorem equalWithin_mono (c : Catalog) (n : Nat) :
    ∀ a b, c.equalWithin n a b = true → c.equalWithin (n + 1) a b = true := by
  induction n with
  | zero => exact fun a b h => by cases h
  | succ n ih =>
    intro a b h
    rw [equalWithin, Bool.or_eq_true] at h ⊢
    exact h.imp_right fun h => sameShape_iff.mpr
      ((sameShape_iff.mp h).mono fun p _ q _ hpq => ih p q hpq)

/-- Entered types are compared by entered types. -/
def Parted (c : Catalog) : Prop := ∀ t ∈ c.entered, ∀ p ∈ c.parts t, p ∈ c.entered

theorem parts_of_size_le (h : c.size ≤ t.index) : c.parts t = [] := by
  have hshape := shape_of_size_le h
  have hresolve : c.resolve t = t := resolveWithin_of_not_provisional (by rw [hshape]; rfl) _
  rw [parts, resolvedShape, hresolve, hshape]
  rfl

/-- The bound has no part in the comparison. -/
theorem Parted.equal_eq (hc : c.Parted) (a b : Ty) :
    c.equal a b = (c.resolve a == c.resolve b ||
      c.sameShape c.equal (c.resolvedShape a) (c.resolvedShape b)) := by
  have hsaturated := saturated (p := fun n (pair : Ty × Ty) => c.equalWithin n pair.1 pair.2)
    (l := c.entered ×ˢ c.entered) (fun n pair _ h => c.equalWithin_mono n pair.1 pair.2 h)
    (fun n h pair hpair => equalWithin_congr fun p hp q hq => by
      have hmem := List.pair_mem_product.mp hpair
      exact h (p, q) (List.pair_mem_product.mpr ⟨hc _ hmem.1 p hp, hc _ hmem.2 q hq⟩))
  rw [List.length_product, length_entered] at hsaturated
  -- one step more gives what the bound gives
  have hstep : c.equal a b = c.equalWithin (c.size * c.size + 2) a b := by
    unfold equal
    by_cases hin : a.index < c.size ∧ b.index < c.size
    · exact (hsaturated 1 (a, b)
        (List.pair_mem_product.mpr ⟨mem_entered.mpr hin.1, mem_entered.mpr hin.2⟩)).symm
    · refine equalWithin_congr fun p hp q hq => ?_
      rcases not_and_or.mp hin with ha | hb
      · rw [parts_of_size_le (Nat.not_lt.mp ha)] at hp
        cases hp
      · rw [parts_of_size_le (Nat.not_lt.mp hb)] at hq
        cases hq
  rw [hstep, equalWithin]
  rfl

theorem Parted.equal_iff (hc : c.Parted) :
    c.equal a b = true ↔ c.resolve a = c.resolve b ∨
      c.Matching c.equal (c.resolvedShape a) (c.resolvedShape b) := by
  rw [hc.equal_eq, Bool.or_eq_true, beq_iff_eq, sameShape_iff]

/-! ## Types that contain themselves -/

/-- What is provisional stands for an object. -/
theorem Lined.resolve_object (hlined : c.Lined) (hgrounded : c.Grounded)
    (ht : (c.shape t).isProvisional = true) : ∃ o, c.shape (c.resolve t) = .object o := by
  have key : ∀ bound t, (c.shape t).isProvisional = true → c.size - t.index ≤ bound →
      ∃ o, c.shape (c.resolveWithin bound t) = .object o := by
    intro bound
    induction bound with
    | zero =>
      intro t ht hb
      obtain ⟨p, hp⟩ := Shape.isProvisional_iff.mp ht
      have := lt_size_of_provisional hp
      omega
    | succ bound ih =>
      intro t ht hb
      obtain ⟨p, hp⟩ := Shape.isProvisional_iff.mp ht
      have hnext := hgrounded t p hp
      have htarget := hlined.target t p
      rw [resolveWithin, hp]
      dsimp only
      cases hs : p.standing with
      | pending u => exact htarget u hp (by rw [hs]; rfl)
      | settled u => exact htarget u hp (by rw [hs]; rfl)
      | superseded u =>
        rw [hs] at hnext
        exact ih u hnext.2 (by have := hnext.1; have := lt_size_of_provisional hp; omega)
  exact key (c.size + 1) t ht (by omega)

/-- Parts lead from `t` to a type that stands for what `u` stands for. -/
def Contains (c : Catalog) (t u : Ty) : Prop :=
  ∃ v, TransGen (fun t p => p ∈ c.parts t) t v ∧ c.resolve v = c.resolve u

/-- No generic object contains itself. -/
def Unlooped (c : Catalog) : Prop :=
  ∀ t o, c.shape t = .object o → o.generic = true → ¬ c.Contains t t

/-- `u` is what a part of `t` stands for. -/
def Step (c : Catalog) (t u : Ty) : Prop := ∃ p ∈ c.parts t, c.resolve p = u

theorem parts_resolve (h : c.resolve (c.resolve t) = c.resolve t) :
    c.parts (c.resolve t) = c.parts t := by
  rw [parts, parts, resolvedShape, resolvedShape, h]

/-- Steps between what types stand for are steps between parts. -/
theorem contains_of_step (hidem : ∀ t, c.resolve (c.resolve t) = c.resolve t) (ht : c.resolve t = t)
    (h : TransGen c.Step t u) : c.Contains t u := by
  have key : ∀ t u, TransGen c.Step t u → ∀ s, c.resolve s = t → c.resolve t = t →
      ∃ v, TransGen (fun t p => p ∈ c.parts t) s v ∧ c.resolve v = u := by
    intro t u h
    induction h using TransGen.head_induction_on with
    | @single a hstep =>
      intro s hs ha
      obtain ⟨p, hp, hpu⟩ := hstep
      rw [← hs, parts_resolve (by rw [hs, ha])] at hp
      exact ⟨p, .single hp, hpu⟩
    | @head a b hstep _ ih =>
      intro s hs ha
      obtain ⟨p, hp, hpb⟩ := hstep
      rw [← hs, parts_resolve (by rw [hs, ha])] at hp
      obtain ⟨v, hv, hvu⟩ := ih p hpb (by rw [← hpb, hidem])
      exact ⟨v, .head hp hv, hvu⟩
  obtain ⟨v, hv, hvu⟩ := key t u h t ht ht
  refine ⟨v, hv, ?_⟩
  rw [hvu, ← hvu, hidem]

/-- An object that a step starts from is generic. -/
theorem generic_of_step {o : ObjectShape} (ht : c.resolve t = t) (ho : c.shape t = .object o)
    (h : c.Step t u) : o.generic = true := by
  obtain ⟨p, hp, -⟩ := h
  rw [parts, resolvedShape, ht, ho] at hp
  by_cases hgeneric : o.generic = true
  · exact hgeneric
  · rw [Shape.parts, if_neg hgeneric] at hp
    cases hp

namespace Composed

theorem parted (hc : c.Composed) (hgrounded : c.Grounded) : c.Parted := by
  intro t ht p hp
  rw [mem_entered] at ht ⊢
  rcases (hc.entry (c.resolve t)).of_mem_parts hp with hearlier | ⟨-, hlt⟩
  · exact Nat.lt_trans hearlier (hgrounded.resolve_definite ht).1
  · exact hlt

/-- A step leads to an earlier type, or starts from a generic object, or ends with an object. -/
theorem step_cases (hc : c.Composed) (hgrounded : c.Grounded) (hlined : c.Lined)
    (ht : t.index < c.size) (hresolve : c.resolve t = t) (h : c.Step t u) :
    u.index < t.index ∨ (∃ o, c.shape t = .object o ∧ o.generic = true) ∨
      ∃ o, c.shape u = .object o := by
  obtain ⟨p, hp, rfl⟩ := h
  have hpsize := mem_entered.mp (hc.parted hgrounded t (mem_entered.mpr ht) p hp)
  rw [parts, resolvedShape, hresolve] at hp
  rcases (hc.entry t).of_mem_parts hp with hearlier | ⟨hobject, -⟩
  · -- a part that is provisional stands for an object, and any other for itself
    cases hprovisional : (c.shape p).isProvisional with
    | false =>
      rw [resolve_of_definite ⟨hpsize, hprovisional⟩]
      exact .inl hearlier
    | true => exact .inr (.inr (hlined.resolve_object hgrounded hprovisional))
  · exact .inr (.inl hobject)

/-- A step leads from one entered type to another that stands for itself. -/
theorem step_entered (hc : c.Composed) (hgrounded : c.Grounded) (ht : t.index < c.size)
    (h : c.Step t u) : u.index < c.size ∧ c.resolve u = u := by
  obtain ⟨p, hp, rfl⟩ := h
  have hdefinite := hgrounded.resolve_definite
    (mem_entered.mp (hc.parted hgrounded t (mem_entered.mpr ht) p hp))
  exact ⟨hdefinite.1, resolve_of_definite hdefinite⟩

/-- Steps lead to earlier types, or go through a generic object, or end with an object. -/
theorem steps_cases (hc : c.Composed) (hgrounded : c.Grounded) (hlined : c.Lined)
    (ht : t.index < c.size) (hresolve : c.resolve t = t) (h : TransGen c.Step t u) :
    (u.index < c.size ∧ c.resolve u = u) ∧ (u.index < t.index ∨
      (∃ g o, ReflTransGen c.Step t g ∧ ReflTransGen c.Step g u ∧ c.shape g = .object o ∧
        o.generic = true) ∨ ∃ o, c.shape u = .object o) := by
  induction h with
  | @single u hstep =>
    refine ⟨hc.step_entered hgrounded ht hstep, ?_⟩
    rcases hc.step_cases hgrounded hlined ht hresolve hstep with h | ⟨o, ho, hgeneric⟩ | h
    · exact .inl h
    · exact .inr (.inl ⟨t, o, .refl, .single hstep, ho, hgeneric⟩)
    · exact .inr (.inr h)
  | @tail v u hbefore hstep ih =>
    obtain ⟨⟨hv, hvresolve⟩, hcases⟩ := ih
    refine ⟨hc.step_entered hgrounded hv hstep, ?_⟩
    have hthrough : ∀ o, c.shape v = .object o → o.generic = true →
        ∃ g o, ReflTransGen c.Step t g ∧ ReflTransGen c.Step g u ∧ c.shape g = .object o ∧
          o.generic = true :=
      fun o ho hgeneric => ⟨v, o, hbefore.to_reflTransGen, .single hstep, ho, hgeneric⟩
    rcases hcases with hearlier | ⟨g, o, hg, hgv, ho, hgeneric⟩ | ⟨o, ho⟩
    · rcases hc.step_cases hgrounded hlined hv hvresolve hstep with h | ⟨o, ho, hgeneric⟩ | h
      · exact .inl (Nat.lt_trans h hearlier)
      · exact .inr (.inl (hthrough o ho hgeneric))
      · exact .inr (.inr h)
    · exact .inr (.inl ⟨g, o, hg, hgv.tail hstep, ho, hgeneric⟩)
    · exact .inr (.inl (hthrough o ho (generic_of_step hvresolve ho hstep)))

/-- Where no generic object contains itself, nothing does. -/
theorem steps_irrefl (hc : c.Composed) (hgrounded : c.Grounded) (hlined : c.Lined)
    (hfree : c.Unlooped) (hidem : ∀ t, c.resolve (c.resolve t) = c.resolve t)
    (ht : t.index < c.size) (hresolve : c.resolve t = t) : ¬ TransGen c.Step t t := by
  intro h
  have hgeneric : ∀ g o, c.shape g = .object o → o.generic = true → ¬ TransGen c.Step g g :=
    fun g o ho hgeneric hloop => by
      have hg : c.resolve g = g := resolve_of_definite ⟨lt_size_of_object ho, by rw [ho]; rfl⟩
      exact hfree g o ho hgeneric (contains_of_step hidem hg hloop)
  rcases (hc.steps_cases hgrounded hlined ht hresolve h).2 with
    hlt | ⟨g, o, hg, hgt, ho, hgen⟩ | ⟨o, ho⟩
  · exact Nat.lt_irrefl _ hlt
  · exact hgeneric g o ho hgen (TransGen.trans_right hgt (TransGen.trans_left h hg))
  · obtain ⟨v, hstep, -⟩ := TransGen.head'_iff.mp h
    exact hgeneric t o ho (generic_of_step hresolve ho hstep) h

/-- Where no generic object contains itself, going from types to their parts ends. -/
theorem wellFounded_parts (hc : c.Composed) (hgrounded : c.Grounded) (hlined : c.Lined)
    (hfree : c.Unlooped) (hidem : ∀ t, c.resolve (c.resolve t) = c.resolve t) :
    WellFounded fun p t => p ∈ c.parts t := by
  -- there are finitely many types that stand for themselves, and none of them leads to itself
  let Own := { t : Ty // t.index < c.size ∧ c.resolve t = t }
  have hfinite : Finite Own :=
    Finite.of_injective (fun t : Own => (⟨t.1.index, t.2.1⟩ : Fin c.size)) fun t u h =>
      Subtype.ext (Ty.eq_of_index (Fin.mk.inj h))
  let Later (u t : Own) : Prop := TransGen c.Step t.1 u.1
  have htrans : IsTrans Own Later := ⟨fun _ _ _ h h' => TransGen.trans h' h⟩
  have hirrefl : Std.Irrefl Later :=
    ⟨fun t => hc.steps_irrefl hgrounded hlined hfree hidem t.2.1 t.2.2⟩
  have hwf : WellFounded Later := Finite.wellFounded_of_trans_of_irrefl Later
  have hown : ∀ t : Own, Acc (fun p t => p ∈ c.parts t) t.1 ∧
      ∀ s, c.resolve s = t.1 → Acc (fun p t => p ∈ c.parts t) s := by
    intro t
    induction t using hwf.induction with
    | h t ih =>
      have hbelow : ∀ s, c.resolve s = t.1 → Acc (fun p t => p ∈ c.parts t) s := by
        refine fun s hs => Acc.intro s fun p hp => ?_
        rw [← parts_resolve (hidem s), hs] at hp
        have hstep : c.Step t.1 (c.resolve p) := ⟨p, hp, rfl⟩
        exact (ih ⟨c.resolve p, hc.step_entered hgrounded t.2.1 hstep⟩ (.single hstep)).2 p rfl
      exact ⟨hbelow t.1 t.2.2, hbelow⟩
  refine ⟨fun t => ?_⟩
  rcases Nat.lt_or_ge t.index c.size with hlt | hge
  · exact (hown ⟨c.resolve t, (hgrounded.resolve_definite hlt).1, hidem t⟩).2 t rfl
  · refine Acc.intro t fun p hp => ?_
    rw [parts_of_size_le hge] at hp
    cases hp

end Composed

/-! ## Laws of equality -/

theorem Grounded.resolve_idem (hgrounded : c.Grounded) (t : Ty) :
    c.resolve (c.resolve t) = c.resolve t := by
  rcases Nat.lt_or_ge t.index c.size with hlt | hge
  · exact resolve_of_definite (hgrounded.resolve_definite hlt)
  · have hresolve : c.resolve t = t :=
      resolveWithin_of_not_provisional (by rw [shape_of_size_le hge]; rfl) _
    rw [hresolve, hresolve]

theorem Parted.equal_refl (hc : c.Parted) (a : Ty) : c.equal a a = true := hc.equal_iff.mpr (.inl rfl)

theorem Parted.equal_trans (hc : c.Parted) (hwf : WellFounded fun p t => p ∈ c.parts t) (a : Ty) :
    ∀ b d, c.equal a b = true → c.equal b d = true → c.equal a d = true := by
  induction a using hwf.induction with
  | h a ih =>
    intro b d hab hbd
    rw [hc.equal_iff] at hab hbd ⊢
    rcases hab with hab | hab
    · rw [resolvedShape, hab]
      exact hbd
    · rcases hbd with hbd | hbd
      · rw [resolvedShape, resolvedShape, ← hbd]
        exact .inr hab
      · exact .inr (hab.trans hbd fun p hp q r => ih p hp q r)

/-- No union that `t` contains has two members that are equal. -/
def Discerning (c : Catalog) (t : Ty) : Prop :=
  ∀ u, ReflTransGen (fun t p => p ∈ c.parts t) t u → ∀ members,
    c.resolvedShape u = .union members →
    ∀ s ∈ members, ∀ s' ∈ members, c.equal s s' = true → s = s'

theorem Composed.distinct (hc : c.Composed) (hcanonical : c.Canonical) (t : Ty) :
    Distinct (c.shape t) := by
  have hentry := hc.entry t
  cases hs : c.shape t with
  | object o => rw [hs] at hentry; exact hentry.1
  | record k fields => rw [hs] at hentry; exact hentry.1
  | union members =>
    rcases Nat.lt_or_ge t.index c.size with hlt | hge
    · exact Ty.nodup_of_increasing (hcanonical.members t members hlt hs).2.1
    · rw [shape_of_size_le hge] at hs
      cases hs
      exact List.nodup_nil
  | _ => trivial

theorem Parted.equal_symm (hc : c.Parted) (hwf : WellFounded fun p t => p ∈ c.parts t)
    (hdistinct : ∀ t, Distinct (c.shape t)) (a : Ty) :
    ∀ b, c.Discerning a → c.equal a b = true → c.equal b a = true := by
  induction a using hwf.induction with
  | h a ih =>
    intro b ha hab
    rw [hc.equal_iff] at hab ⊢
    have hpart : ∀ p ∈ c.parts a, ∀ q, c.equal p q = true → c.equal q p = true :=
      fun p hp q => ih p hp q fun u hu => ha u (.head hp hu)
    refine hab.imp Eq.symm fun hab => hab.symm (hdistinct _) (hdistinct _) hpart ?_
    -- two members with one partner are equal to each other
    intro members hmembers s hs s' hs' t hst hst'
    have hin : s' ∈ c.parts a := by rw [parts, hmembers]; exact hs'
    exact ha a .refl members hmembers s hs s' hs'
      (hc.equal_trans hwf s t s' hst (hpart s' hin t hst'))

end Catalog

namespace Store

open Catalog

variable {s : Store}

theorem Moved.parted (h : s.Moved) : s.catalog.Parted :=
  h.composed.parted h.grounded

theorem Moved.wellFounded_parts (h : s.Moved) (hfree : s.catalog.Unlooped) :
    WellFounded fun p t => p ∈ s.catalog.parts t :=
  h.composed.wellFounded_parts h.grounded h.started.lined hfree h.grounded.resolve_idem

theorem Moved.distinct (h : s.Moved) (t : Ty) : Distinct (s.catalog.shape t) :=
  h.composed.distinct h.canonical t

/-- In a store that operations on entered types lead to, and in which no generic object contains
itself, comparing two types goes from parts to their parts and ends; the result is that of plain
recursion, whatever the bound. Every type is equal to itself, and what is equal to one and the same
type is equal. What a type equals is equal to it in turn, unless it contains a union of which two
members are equal. -/
theorem equality_laws (h : s.Moved) (hfree : s.catalog.Unlooped) :
    (WellFounded fun p t => p ∈ s.catalog.parts t) ∧
      (∀ a b, s.catalog.equal a b = (s.catalog.resolve a == s.catalog.resolve b ||
        s.catalog.sameShape s.catalog.equal (s.catalog.resolvedShape a)
          (s.catalog.resolvedShape b))) ∧
      (∀ a, s.catalog.equal a a = true) ∧
      (∀ a b d, s.catalog.equal a b = true → s.catalog.equal b d = true →
        s.catalog.equal a d = true) ∧
      ∀ a b, s.catalog.Discerning a → s.catalog.equal a b = true → s.catalog.equal b a = true :=
  have hwf := h.wellFounded_parts hfree
  ⟨hwf, h.parted.equal_eq, h.parted.equal_refl, h.parted.equal_trans hwf,
    h.parted.equal_symm hwf h.distinct⟩

/-- If every part stands for an earlier type, nothing contains itself. -/
theorem unlooped_of_earlier {c : Catalog}
    (h : ∀ i < c.size, ∀ p ∈ c.parts ⟨i⟩, (c.resolve p).index < (c.resolve ⟨i⟩).index) :
    c.Unlooped := by
  have hstep : ∀ t, ∀ p ∈ c.parts t, (c.resolve p).index < (c.resolve t).index := by
    intro t p hp
    rcases Nat.lt_or_ge t.index c.size with hlt | hge
    · exact h t.index hlt p hp
    · rw [parts_of_size_le hge] at hp
      cases hp
  rintro t o - - ⟨v, hv, hsame⟩
  have hless : ∀ v, TransGen (fun t p => p ∈ c.parts t) t v →
      (c.resolve v).index < (c.resolve t).index := by
    intro v hv
    induction hv with
    | single hp => exact hstep t _ hp
    | tail _ hp ih => exact Nat.lt_trans (hstep _ _ hp) ih
  exact Nat.lt_irrefl _ (hsame ▸ hless v hv)

/-- A type other than a union contains no union if its parts are neither unions nor have parts. -/
theorem discerning_of_plain {c : Catalog} {t : Ty} (ht : (c.resolvedShape t).isUnion = false)
    (hparts : ∀ p ∈ c.parts t, (c.resolvedShape p).isUnion = false ∧ c.parts p = []) :
    c.Discerning t := by
  intro u hu members hmembers
  have hunion : (c.resolvedShape u).isUnion = false := by
    rcases hu.cases_head with rfl | ⟨p, hp, hrest⟩
    · exact ht
    · rcases hrest.cases_head with rfl | ⟨q, hq, -⟩
      · exact (hparts _ hp).1
      · have hq : q ∈ c.parts p := hq
        rw [(hparts p hp).2] at hq
        cases hq
  rw [hmembers] at hunion
  cases hunion

/-- Two records of one name and with equal fields, in two namespaces. -/
def twoPoints : Catalog :=
  ((seeded.perform (.mixin "Other" (some .main))).perform
    (.record "Point" [("x", .int)] .main)).perform (.record "Point" [("x", .int)] ⟨36⟩)

theorem moved_twoPoints : Moved ⟨twoPoints, .empty 0⟩ := by
  have hknown : seeded.Knows (.mixin "Other" (some .main)) ∧
      (seeded.perform (.mixin "Other" (some .main))).Knows (.record "Point" [("x", .int)] .main) ∧
      ((seeded.perform (.mixin "Other" (some .main))).perform
        (.record "Point" [("x", .int)] .main)).Knows (.record "Point" [("x", .int)] ⟨36⟩) := by
    decide +kernel
  exact (((Moved.start 0).request hknown.1).request hknown.2.1).request hknown.2.2

theorem unlooped_twoPoints : twoPoints.Unlooped := by
  have hearlier : ∀ i < twoPoints.size, ∀ p ∈ twoPoints.parts ⟨i⟩,
      (twoPoints.resolve p).index < (twoPoints.resolve ⟨i⟩).index := by decide +kernel
  exact unlooped_of_earlier hearlier

theorem equality_laws_points : Moved ⟨twoPoints, .empty 0⟩ ∧ twoPoints.Unlooped ∧
    twoPoints.equal ⟨38⟩ ⟨40⟩ = true ∧ twoPoints.equal ⟨40⟩ ⟨38⟩ = true := by
  have hequal : twoPoints.equal ⟨38⟩ ⟨40⟩ = true := by decide +kernel
  have hplain : (twoPoints.resolvedShape ⟨38⟩).isUnion = false ∧ ∀ p ∈ twoPoints.parts ⟨38⟩,
      (twoPoints.resolvedShape p).isUnion = false ∧ twoPoints.parts p = [] := by decide +kernel
  have hdiscerning := discerning_of_plain hplain.1 hplain.2
  have hlaws := equality_laws moved_twoPoints
  dsimp only at hlaws
  exact ⟨moved_twoPoints, unlooped_twoPoints, hequal,
    (hlaws unlooped_twoPoints).2.2.2.2 _ _ hdiscerning hequal⟩

/-- The records in a union, and one of them in a union with `Int`. -/
def mergedPoints : Catalog :=
  (twoPoints.perform (.merge [⟨38⟩, ⟨40⟩])).perform (.merge [⟨38⟩, .int])

/-- Both points have a partner in the union of one of them with `Int`, but `Int` has none. -/
theorem equality_lopsided : Moved ⟨mergedPoints, .empty 0⟩ ∧ mergedPoints.Unlooped ∧
    mergedPoints.equal ⟨42⟩ ⟨43⟩ = true ∧ mergedPoints.equal ⟨43⟩ ⟨42⟩ = false := by
  have hknown : twoPoints.Knows (.merge [⟨38⟩, ⟨40⟩]) ∧
      (twoPoints.perform (.merge [⟨38⟩, ⟨40⟩])).Knows (.merge [⟨38⟩, .int]) := by
    decide +kernel
  have hearlier : ∀ i < mergedPoints.size, ∀ p ∈ mergedPoints.parts ⟨i⟩,
      (mergedPoints.resolve p).index < (mergedPoints.resolve ⟨i⟩).index := by decide +kernel
  exact ⟨(moved_twoPoints.request hknown.1).request hknown.2, unlooped_of_earlier hearlier,
    by decide +kernel, by decide +kernel⟩

end Store

end FlowTyping
