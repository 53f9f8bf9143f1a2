import FlowTyping.Proofs.Flow.Sizing
import Mathlib.Order.Bounds.Defs

/-
  Offsets of slots

  Slots are placed in order, each at the first offset behind the one before it
  that suits its alignment. `Storage.Packed` says this of a list of layouts and
  offsets: the first is at 0, all are aligned, no two overlap, and none could
  start earlier. The offsets of every object and record are packed
  (`slots_packed`).
-/
namespace FlowTyping

namespace Storage

variable {offset align : Nat}

/-- Whether an offset suits an alignment; alignments 0 and 1 ask for nothing. -/
def Aligned (align offset : Nat) : Prop := align ≤ 1 ∨ align ∣ offset

/-! ## Rounding up -/

theorem le_roundUp (offset align : Nat) : offset ≤ roundUp offset align := by
  unfold roundUp
  split
  · exact Nat.le_refl _
  · have := Nat.lt_div_mul_add (a := offset + align - 1) (b := align) (by omega)
    omega

theorem aligned_roundUp (offset align : Nat) : Aligned align (roundUp offset align) := by
  unfold roundUp
  split
  · next h => exact .inl h
  · exact .inr (Nat.dvd_mul_left _ _)

theorem roundUp_le {bound : Nat} (h : Aligned align bound) (hle : offset ≤ bound) :
    roundUp offset align ≤ bound := by
  unfold roundUp
  split
  · exact hle
  · next halign =>
    obtain ⟨k, rfl⟩ := h.resolve_left halign
    have hlt : offset + align - 1 < (k + 1) * align := by
      rw [Nat.add_mul, Nat.mul_comm k]
      omega
    rw [Nat.mul_comm align]
    exact Nat.mul_le_mul_right _ (Nat.lt_succ_iff.mp ((Nat.div_lt_iff_lt_mul (by omega)).mpr hlt))

theorem isLeast_roundUp (offset align : Nat) :
    IsLeast {n | Aligned align n ∧ offset ≤ n} (roundUp offset align) :=
  ⟨⟨aligned_roundUp offset align, le_roundUp offset align⟩, fun _ h => roundUp_le h.1 h.2⟩

theorem roundUp_zero (align : Nat) : roundUp 0 align = 0 :=
  Nat.le_zero.mp (roundUp_le (.inr (Nat.dvd_zero align)) (Nat.le_refl 0))

/-! ## Slots one behind the other -/

/-- Layouts and offsets of slots of which each is placed as early as its alignment and the slots
before it allow. -/
structure Packed (slots : List (Layout × Nat)) : Prop where
  first : ∀ slot ∈ slots.head?, slot.2 = 0
  aligned : ∀ slot ∈ slots, Aligned slot.1.align slot.2
  disjoint : slots.Pairwise fun slot later => slot.2 + slot.1.size ≤ later.2
  tight : slots.IsChain fun slot next =>
    IsLeast {n | Aligned next.1.align n ∧ slot.2 + slot.1.size ≤ n} next.2

/-- Layouts of slots and the offsets where they are placed from `offset` on. -/
def placed (offset : Nat) (slots : List (String × Layout)) : List (Layout × Nat) :=
  (slots.map (·.2)).zip ((placeFields offset slots).map (·.2))

theorem placed_cons (offset : Nat) (slot : String × Layout) (rest : List (String × Layout)) :
    placed offset (slot :: rest) = (slot.2, roundUp offset slot.2.align) ::
      placed (roundUp offset slot.2.align + slot.2.size) rest := rfl

variable {slots : List (String × Layout)}

/-- No slot is placed before the offset where placing starts. -/
theorem le_of_mem_placed {part : Layout × Nat} (h : part ∈ placed offset slots) :
    offset ≤ part.2 := by
  induction slots generalizing offset with
  | nil => cases h
  | cons slot rest ih =>
    rw [placed_cons] at h
    have hstart := le_roundUp offset slot.2.align
    rcases List.mem_cons.mp h with rfl | h
    · exact hstart
    · exact (Nat.le_add_right_of_le hstart).trans (ih h)

theorem aligned_of_mem_placed {part : Layout × Nat} (h : part ∈ placed offset slots) :
    Aligned part.1.align part.2 := by
  induction slots generalizing offset with
  | nil => cases h
  | cons slot rest ih =>
    rw [placed_cons] at h
    rcases List.mem_cons.mp h with rfl | h
    · exact aligned_roundUp offset slot.2.align
    · exact ih h

theorem pairwise_placed (offset : Nat) (slots : List (String × Layout)) :
    (placed offset slots).Pairwise fun slot later => slot.2 + slot.1.size ≤ later.2 := by
  induction slots generalizing offset with
  | nil => exact .nil
  | cons slot rest ih =>
    rw [placed_cons]
    exact .cons (fun _ h => le_of_mem_placed h) (ih _)

theorem isChain_placed (offset : Nat) (slots : List (String × Layout)) :
    (placed offset slots).IsChain fun slot next =>
      IsLeast {n | Aligned next.1.align n ∧ slot.2 + slot.1.size ≤ n} next.2 := by
  induction slots generalizing offset with
  | nil => exact .nil
  | cons slot rest ih =>
    cases rest with
    | nil => exact .singleton _
    | cons next rest =>
      rw [placed_cons, placed_cons]
      exact .cons_cons (isLeast_roundUp _ _) (ih _)

theorem packed_placed (slots : List (String × Layout)) : Packed (placed 0 slots) where
  first := by
    cases slots with
    | nil => rintro _ ⟨⟩
    | cons slot rest =>
      rintro _ ⟨⟩
      exact roundUp_zero _
  aligned _ := aligned_of_mem_placed
  disjoint := pairwise_placed 0 slots
  tight := isChain_placed 0 slots

end Storage

namespace Catalog

variable {c : Catalog} {t : Ty} {w : Nat}

/-- The layout of a slot by the storage of its type; without a type or without storage it is as wide
as a pointer. -/
def slotLayout (c : Catalog) (w : Nat) (content : Option Ty) : Layout :=
  ((content.bind (c.storage w)).map Storage.layout).getD ⟨w, w⟩

theorem layouts_slotPlacements (slots : Table String (Option Ty)) :
    (c.slotPlacements w slots).map (·.2) =
      slots.entries.map fun slot => c.slotLayout w slot.2 := by
  rw [slotPlacements, List.map_map]
  refine List.map_congr_left fun slot _ => ?_
  cases hs : slot.2 with
  | none => simp only [Function.comp_apply, hs]; rfl
  | some u =>
    simp only [Function.comp_apply, hs, slotLayout, Option.bind_some, layoutOf_eq_map_storage]

end Catalog

namespace Store

open Catalog

variable {s : Store}

/-- In a store that operations on entered types lead to, an object or a record is a reference to
memory in which each slot is listed once and in order; the slots are packed, with the layouts that
the storage of their types has, and those without storage as wide as a pointer. -/
theorem slots_packed (h : s.Moved) (w : Nat) (t : Ty)
    (ht : (s.catalog.resolvedShape t).isSlotted = true) :
    ∃ fields, s.catalog.storage w t = some (.reference w fields) ∧
      fields.map (·.1) = (s.catalog.slots t).keys ∧ (s.catalog.slots t).keys.Nodup ∧
      Storage.Packed (((s.catalog.slots t).entries.map fun slot => s.catalog.slotLayout w slot.2).zip
        (fields.map (·.2))) := by
  refine ⟨_, storage_of_isSlotted ht, ?_, nodup_slots_of_distinct h.distinct t, ?_⟩
  · rw [Storage.names_placeFields, slotPlacements, List.map_map]
    rfl
  · rw [← layouts_slotPlacements]
    exact Storage.packed_placed _

/-- Boxes with a truth value, a box, a number of one of two widths, a short number, something
without storage and a character. -/
def boxed : Catalog :=
  seeded.performAll [.object "Box" (some .object) .main false, .merge [.int, .double],
    .slot ⟨36⟩ "@full" .bool, .slot ⟨36⟩ "@inner" ⟨36⟩, .slot ⟨36⟩ "@weight" ⟨38⟩,
    .slot ⟨36⟩ "@count" .short, .slot ⟨36⟩ "@unit" .math, .slot ⟨36⟩ "@mark" .char]

theorem moved_boxed : Moved ⟨boxed, .empty 0⟩ := (Moved.start 0).requests (by decide +kernel)

theorem slots_packed_boxed : Moved ⟨boxed, .empty 0⟩ ∧
    (boxed.resolvedShape ⟨36⟩).isSlotted = true ∧
    boxed.storage 8 ⟨36⟩ = some (.reference 8
      [("@full", 0), ("@inner", 8), ("@weight", 16), ("@count", 32), ("@unit", 40), ("@mark", 48)]) ∧
    Storage.Packed [(⟨1, 1⟩, 0), (⟨8, 8⟩, 8), (⟨16, 8⟩, 16), (⟨2, 2⟩, 32), (⟨8, 8⟩, 40),
      (⟨1, 1⟩, 48)] := by
  obtain ⟨hslotted, hstorage, hlayouts⟩ : (boxed.resolvedShape ⟨36⟩).isSlotted = true ∧
      boxed.storage 8 ⟨36⟩ = some (.reference 8 [("@full", 0), ("@inner", 8), ("@weight", 16),
        ("@count", 32), ("@unit", 40), ("@mark", 48)]) ∧
      (boxed.slots ⟨36⟩).entries.map (fun slot => boxed.slotLayout 8 slot.2) =
        [⟨1, 1⟩, ⟨8, 8⟩, ⟨16, 8⟩, ⟨2, 2⟩, ⟨8, 8⟩, ⟨1, 1⟩] := by
    decide +kernel
  have hpacked := slots_packed moved_boxed 8 ⟨36⟩
  dsimp only at hpacked
  obtain ⟨fields, hfields, -, -, hpacked⟩ := hpacked hslotted
  rw [hstorage] at hfields
  obtain rfl := congrArg Storage.fields (Option.some.inj hfields)
  rw [hlayouts] at hpacked
  exact ⟨moved_boxed, hslotted, hstorage, hpacked⟩

end Store

end FlowTyping
