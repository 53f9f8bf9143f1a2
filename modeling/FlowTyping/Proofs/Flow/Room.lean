import FlowTyping.Proofs.Flow.Offsets

/-
  Room for the members of a union

  A union has a tag and behind it room for any of its members. The member with
  the largest size need not be the one with the strictest alignment, and both
  make the size; that the start of that room suits every member rests on widths
  that are powers of two, of which one always divides the other.

  `Storage.Roomy` says what room is, of the sizes and alignments of the members
  alone; a union that is not a reference or `Nil` has it (`union_roomy`).
-/
namespace FlowTyping

/-- Of two powers of two the smaller divides the larger. -/
theorem dvd_of_isPowerOfTwo {a b : Nat} (ha : a.isPowerOfTwo) (hb : b.isPowerOfTwo) (h : a ≤ b) :
    a ∣ b := by
  obtain ⟨i, rfl⟩ := ha
  obtain ⟨j, rfl⟩ := hb
  exact Nat.pow_dvd_pow 2 ((Nat.pow_le_pow_iff_right (by decide)).mp h)

namespace Storage

theorem foldl_max_mem (l : List Nat) (start : Nat) :
    l.foldl max start = start ∨ l.foldl max start ∈ l := by
  induction l generalizing start with
  | nil => exact .inl rfl
  | cons x rest ih =>
    rw [List.foldl_cons]
    rcases ih (max start x) with h | h
    · rcases Nat.le_total x start with hle | hle
      · exact .inl (h.trans (Nat.max_eq_left hle))
      · exact .inr (List.mem_cons.mpr (.inl (h.trans (Nat.max_eq_right hle))))
    · exact .inr (List.mem_cons_of_mem _ h)

/-- The maximum is attained unless all are below where the search starts. -/
theorem isGreatest_foldl_max {α : Type} {l : List α} {f : α → Nat} {start : Nat} (hne : l ≠ [])
    (hstart : ∀ x ∈ l, start ≤ f x) :
    IsGreatest {n | ∃ x ∈ l, f x = n} ((l.map f).foldl max start) := by
  have hbound := foldl_max_le_iff.mp (Nat.le_refl ((l.map f).foldl max start))
  refine ⟨?_, ?_⟩
  · rcases foldl_max_mem (l.map f) start with h | h
    · obtain ⟨x, hx⟩ := List.exists_mem_of_ne_nil l hne
      exact ⟨x, hx, Nat.le_antisymm (hbound.2 _ (List.mem_map_of_mem hx)) (h.trans_le (hstart x hx))⟩
    · exact List.mem_map.mp h
  · rintro n ⟨x, hx, rfl⟩
    exact hbound.2 _ (List.mem_map_of_mem hx)

/-- Storage with a tag and, from `start` on, room for values of some layouts: `start` is the first
offset behind the tag that suits the strictest alignment, and no smaller size would do. -/
structure Roomy (s : Storage) (layouts : Layout → Prop) (strictest start payload : Nat) : Prop where
  isGreatest_align : IsGreatest {n | ∃ l, layouts l ∧ l.align = n} strictest
  isLeast_start : IsLeast {n | strictest ∣ n ∧ tagSize ≤ n} start
  isGreatest_size : IsGreatest {n | ∃ l, layouts l ∧ l.size = n} payload
  union : s.union = some ⟨tagSize, payload⟩
  tag : tagSize ∣ s.align
  members : ∀ l, layouts l → l.align ∣ start ∧ l.align ∣ s.align ∧ start + l.size ≤ s.size
  isLeast_size : IsLeast {n | s.align ∣ n ∧ ∀ l, layouts l → start + l.size ≤ n} s.size

theorem isLeast_roundUp_of_pos (offset : Nat) {align : Nat} (hpos : 0 < align) :
    IsLeast {n | align ∣ n ∧ offset ≤ n} (roundUp offset align) := by
  have haligned : ∀ n, Aligned align n ↔ align ∣ n := fun n => by
    refine ⟨fun h => h.elim (fun hle => ?_) id, .inr⟩
    exact (show align = 1 by omega) ▸ Nat.one_dvd n
  simpa only [haligned] using isLeast_roundUp offset align

section

variable {layouts : Layout → Prop} {strictest payload : Nat}

/-- Alignments that are powers of two divide one another, so the strictest one suits all. -/
theorem roomy_of_isGreatest (halign : IsGreatest {n | ∃ l, layouts l ∧ l.align = n} strictest)
    (hsize : IsGreatest {n | ∃ l, layouts l ∧ l.size = n} payload)
    (hpow : ∀ l, layouts l → l.align.isPowerOfTwo) :
    Roomy ⟨roundUp (roundUp tagSize strictest + payload) (max strictest tagSize),
      max strictest tagSize, false, some ⟨tagSize, payload⟩, []⟩
      layouts strictest (roundUp tagSize strictest) payload := by
  have hstrictest : strictest.isPowerOfTwo := by
    obtain ⟨l, hl, rfl⟩ := halign.1
    exact hpow l hl
  have htag : tagSize.isPowerOfTwo := ⟨2, rfl⟩
  have hmax : (max strictest tagSize).isPowerOfTwo := by
    rcases Nat.le_total strictest tagSize with h | h
    · rwa [Nat.max_eq_right h]
    · rwa [Nat.max_eq_left h]
  have hdvd : ∀ l, layouts l → l.align ∣ strictest := fun l hl =>
    dvd_of_isPowerOfTwo (hpow l hl) hstrictest (halign.2 ⟨l, hl, rfl⟩)
  have hstart := isLeast_roundUp_of_pos tagSize (Nat.pos_of_isPowerOfTwo hstrictest)
  have hend := isLeast_roundUp_of_pos (roundUp tagSize strictest + payload)
    (Nat.pos_of_isPowerOfTwo hmax)
  have hroom : ∀ l, layouts l → roundUp tagSize strictest + l.size ≤
      roundUp (roundUp tagSize strictest + payload) (max strictest tagSize) := fun l hl =>
    (Nat.add_le_add_left (hsize.2 ⟨l, hl, rfl⟩) _).trans hend.1.2
  refine ⟨halign, hstart, hsize, rfl, dvd_of_isPowerOfTwo htag hmax (Nat.le_max_right ..),
    fun l hl => ⟨(hdvd l hl).trans hstart.1.1, ?_, hroom l hl⟩, ⟨hend.1.1, hroom⟩, ?_⟩
  · exact (hdvd l hl).trans (dvd_of_isPowerOfTwo hstrictest hmax (Nat.le_max_left ..))
  · -- the largest member needs all of the room
    rintro n ⟨hn, hall⟩
    obtain ⟨l, hl, rfl⟩ := hsize.1
    exact hend.2 ⟨hn, hall l hl⟩

end

theorem roomy_tagged {layouts : List Layout} (hne : layouts ≠ [])
    (hpow : ∀ l ∈ layouts, l.align.isPowerOfTwo) :
    ∃ strictest start payload, (tagged layouts).Roomy (· ∈ layouts) strictest start payload :=
  ⟨_, _, _, roomy_of_isGreatest
    (isGreatest_foldl_max hne fun l hl => Nat.pos_of_isPowerOfTwo (hpow l hl))
    (isGreatest_foldl_max hne fun _ _ => Nat.zero_le _) hpow⟩

end Storage

namespace Catalog

open Storage

variable {c : Catalog} {t p m : Ty} {members : List Ty} {w : Nat}

/-- The widths of all primitive types are powers of two. -/
def BinaryWidths (c : Catalog) : Prop :=
  ∀ t k width, c.shape t = .primitive k width → width.isPowerOfTwo

theorem binaryWidths_of_all (h : ∀ i < c.size, (match c.shape ⟨i⟩ with
    | .primitive _ width => [2 ^ 0, 2 ^ 1, 2 ^ 2, 2 ^ 3].contains width
    | _ => true) = true) : c.BinaryWidths := by
  intro t k width hs
  rcases Nat.lt_or_ge t.index c.size with hlt | hge
  · have hwidth := h t.index hlt
    rw [hs] at hwidth
    have hmem := List.contains_iff_mem.mp hwidth
    simp only [List.mem_cons, List.not_mem_nil, or_false] at hmem
    rcases hmem with h | h | h | h
    all_goals exact ⟨_, h⟩
  · rw [shape_of_size_le hge] at hs
    cases hs

/-- Two members of which one stands for `Nil` and the other is a reference. -/
structure NilOr (c : Catalog) (members : List Ty) (p : Ty) : Prop where
  two : members.length = 2
  mem : p ∈ members
  held : c.heldByReference p = true
  nil : ∃ n ∈ members, c.standsForNil n = true

theorem canBeNilable_of_heldByReference (h : c.heldByReference p = true) :
    c.canBeNilable p = true := by
  unfold heldByReference at h
  unfold canBeNilable
  cases hs : c.resolvedShape p with
  | object | record | pointer => rfl
  | _ => rw [hs] at h; cases h

theorem nilableReference_iff_nilOr (hnil : c.NilPlain) (hs : c.resolvedShape t = .union members) :
    c.nilableReference t = some p ↔ c.NilOr members p := by
  rw [nilableReference_iff hnil hs]
  constructor
  · rintro ⟨htwo, ⟨hmem, -, hheld⟩, hn⟩
    exact ⟨htwo, hmem, hheld, hn⟩
  · rintro ⟨htwo, hmem, hheld, hn⟩
    exact ⟨htwo, ⟨hmem, canBeNilable_of_heldByReference hheld, hheld⟩, hn⟩

theorem BinaryWidths.align_plainLayout (hc : c.BinaryWidths) (hw : w.isPowerOfTwo) {l : Layout}
    (h : c.plainLayout w t = some l) : l.align.isPowerOfTwo := by
  unfold plainLayout at h
  cases hs : c.resolvedShape t with
  | primitive k width =>
    rw [hs] at h
    cases h
    exact hc _ k width hs
  | object | record | pointer =>
    rw [hs] at h
    cases h
    exact hw
  | metaclass =>
    rw [hs] at h
    cases h
    exact ⟨2, rfl⟩
  | _ => rw [hs] at h; cases h

theorem resolvedShape_of_isUnion (h : (c.resolvedShape t).isUnion = true) :
    c.resolvedShape t = .union (c.members t) := by
  unfold members
  cases hs : c.resolvedShape t with
  | union => rfl
  | _ => rw [hs] at h; cases h

/-- The size and alignment of a value of one of some types. -/
def LayoutAmong (c : Catalog) (w : Nat) (members : List Ty) (l : Layout) : Prop :=
  ∃ m ∈ members, ∃ own, c.storage w m = some own ∧ own.layout = l

theorem Flat.plainLayout_member (hc : c.Flat) (hs : c.resolvedShape t = .union members)
    (hm : m ∈ members) : c.plainLayout w m = (c.storage w m).map Storage.layout := by
  rw [← layoutOf_of_isUnion_eq_false (hc t members hs m hm), layoutOf_eq_map_storage]

theorem Flat.isSome_tagMembers (hc : c.Flat) (hs : c.resolvedShape t = .union members) :
    (c.tagMembers w members).isSome = true ↔ ∀ m ∈ members, (c.storage w m).isSome = true := by
  rw [tagMembers, Option.isSome_map, ← Option.ne_none_iff_isSome, ne_eq, mapM_eq_none_iff,
    List.mem_map, not_exists]
  refine forall_congr' fun m => ?_
  rw [not_and]
  refine forall_congr' fun hm => ?_
  rw [hc.plainLayout_member hs hm, Option.map_eq_none_iff, ← ne_eq, Option.ne_none_iff_isSome]

theorem Flat.exists_layouts (hc : c.Flat) (hs : c.resolvedShape t = .union members) {own : Storage}
    (h : c.tagMembers w members = some own) :
    ∃ layouts, own = tagged layouts ∧ members.map (c.plainLayout w) = layouts.map some ∧
      ∀ l, l ∈ layouts ↔ c.LayoutAmong w members l := by
  obtain ⟨layouts, hlayouts, rfl⟩ := Option.map_eq_some_iff.mp h
  have hmap := map_of_mapM_eq_some hlayouts
  refine ⟨layouts, rfl, hmap, fun l => ?_⟩
  have hmem : l ∈ layouts ↔ some l ∈ members.map (c.plainLayout w) := by simp [hmap]
  rw [hmem, List.mem_map]
  refine exists_congr fun m => and_congr_right fun hm => ?_
  rw [hc.plainLayout_member hs hm, Option.map_eq_some_iff]

theorem Flat.roomy (hc : c.Flat) (hwidths : c.BinaryWidths) (hw : w.isPowerOfTwo)
    (hs : c.resolvedShape t = .union members) (hne : members ≠ []) {own : Storage}
    (h : c.tagMembers w members = some own) :
    ∃ strictest start payload, own.Roomy (c.LayoutAmong w members) strictest start payload := by
  obtain ⟨layouts, rfl, hmap, hamong⟩ := hc.exists_layouts hs h
  have hpow : ∀ l ∈ layouts, l.align.isPowerOfTwo := fun l hl => by
    have hmem : some l ∈ members.map (c.plainLayout w) := hmap ▸ List.mem_map_of_mem hl
    obtain ⟨m, -, hm⟩ := List.mem_map.mp hmem
    exact hwidths.align_plainLayout hw hm
  have hlayouts : layouts ≠ [] := by
    rintro rfl
    exact hne (List.map_eq_nil_iff.mp hmap)
  have hsame : (· ∈ layouts) = c.LayoutAmong w members := funext fun l => propext (hamong l)
  exact hsame ▸ roomy_tagged hlayouts hpow

end Catalog

namespace Store

open Catalog

variable {s : Store}

/-- In a store that operations on entered types lead to, where the widths of primitive types and of
pointers are powers of two, a union has storage just if every member has, and the storage has a tag
and room behind it for every member, and no more than that. A union of a reference and `Nil` is
stored as the reference. -/
theorem union_roomy (h : s.Moved) (hwidths : s.catalog.BinaryWidths) {w : Nat} (hw : w.isPowerOfTwo)
    {t : Ty} {members : List Ty} (ht : t.index < s.catalog.size)
    (hs : s.catalog.resolvedShape t = .union members) :
    ((∀ p, ¬ s.catalog.NilOr members p) →
      ((s.catalog.storage w t).isSome = true ↔
        ∀ m ∈ members, (s.catalog.storage w m).isSome = true) ∧
      ∀ own, s.catalog.storage w t = some own → ∃ strictest start payload,
        own.Roomy (s.catalog.LayoutAmong w members) strictest start payload) ∧
    ∀ p, s.catalog.NilOr members p → s.catalog.storage w t = s.catalog.storage w p := by
  have hcanonical := h.started.orderly.catalog.canonical
  have hnil := h.started.nilPlain
  have hmembers : members ≠ [] := by
    have htwo := (hcanonical.members _ members (hcanonical.grounded.resolve_definite ht).1 hs).1
    rintro rfl
    exact absurd htwo (by decide)
  refine ⟨fun hnone => ?_, fun p hp => ?_⟩
  · have hreference : s.catalog.nilableReference t = none :=
      Option.eq_none_iff_forall_ne_some.mpr fun p hp =>
        hnone p ((nilableReference_iff_nilOr hnil hs).mp hp)
    rw [storage_of_union hs hreference]
    exact ⟨hcanonical.flat.isSome_tagMembers hs,
      fun own => hcanonical.flat.roomy hwidths hw hs hmembers⟩
  · have hreference := (nilableReference_iff_nilOr hnil hs).mpr hp
    obtain ⟨hpart, hheld⟩ := Option.filter_eq_some_iff.mp hreference
    exact storage_of_nilablePart hpart hheld

/-- A union of three members, and a string or `Nil`. -/
def united : Catalog := seeded.performAll [.merge [.short, .double, .string], .merge [.string, .nil]]

theorem moved_united : Moved ⟨united, .empty 0⟩ := (Moved.start 0).requests (by decide +kernel)

theorem binaryWidths_united : united.BinaryWidths := binaryWidths_of_all (by decide +kernel)

theorem union_roomy_united : Moved ⟨united, .empty 0⟩ ∧ united.BinaryWidths ∧
    Nat.isPowerOfTwo 4 ∧ united.resolvedShape ⟨36⟩ = .union [.short, .double, .string] ∧
    (∀ p, ¬ united.NilOr [.short, .double, .string] p) ∧
    united.storage 4 ⟨36⟩ = some ⟨16, 8, false, some ⟨4, 8⟩, []⟩ ∧
    (∃ strictest start payload, Storage.Roomy ⟨16, 8, false, some ⟨4, 8⟩, []⟩
      (united.LayoutAmong 4 [.short, .double, .string]) strictest start payload) ∧
    united.NilOr [.nil, .string] .string ∧
    united.storage 4 ⟨37⟩ = united.storage 4 .string := by
  have hfacts : ((united.resolvedShape ⟨36⟩).isUnion = true ∧
      united.members ⟨36⟩ = [.short, .double, .string] ∧
      united.storage 4 ⟨36⟩ = some ⟨16, 8, false, some ⟨4, 8⟩, []⟩) ∧
      ((united.resolvedShape ⟨37⟩).isUnion = true ∧ united.members ⟨37⟩ = [.nil, .string]) ∧
      united.heldByReference .string = true ∧ united.standsForNil .nil = true ∧
      37 < united.size := by
    decide +kernel
  obtain ⟨⟨hunion, hthree, hstorage⟩, ⟨hunion', htwo⟩, hheld, hstands, hsize⟩ := hfacts
  have hthree := hthree ▸ resolvedShape_of_isUnion hunion
  have htwo := htwo ▸ resolvedShape_of_isUnion hunion'
  have hnone : ∀ p, ¬ united.NilOr [.short, .double, .string] p :=
    fun p h => absurd h.two (by decide)
  have hnil : united.NilOr [.nil, .string] .string :=
    ⟨rfl, by decide, hheld, .nil, by decide, hstands⟩
  have hroomy := @union_roomy _ moved_united
  dsimp only at hroomy
  have hroomy := @hroomy binaryWidths_united 4 ⟨2, rfl⟩
  exact ⟨moved_united, binaryWidths_united, ⟨2, rfl⟩, hthree, hnone, hstorage,
    ((hroomy (Nat.lt_of_succ_lt hsize) hthree).1 hnone).2 _ hstorage, hnil,
    (hroomy hsize htwo).2 _ hnil⟩

end Store

end FlowTyping
