import FlowTyping.Proofs.Flow.Layout
import FlowTyping.Proofs.Flow.Restriction

/-
  The size of a slot

  The size and alignment of a slot are found without the slots of what a
  reference leads to, and are those of the storage of the same type
  (`Catalog.layoutOf_eq_map_storage`). That is why the search for storage ends:
  `Catalog.StoredAs` and `Catalog.LaidAs` are the search with each of its steps
  a rule, and every type has a derivation, also one that leads back to itself,
  for the members of a union are no unions (`storage_found`).
-/
namespace FlowTyping

theorem mapM_congr {α β : Type} {f g : α → Option β} {l : List α} (h : ∀ a ∈ l, f a = g a) :
    l.mapM f = l.mapM g := by
  induction l with
  | nil => rfl
  | cons a rest ih =>
    rw [List.mapM_cons, List.mapM_cons, h a (List.mem_cons_self ..),
      ih fun b hb => h b (List.mem_cons_of_mem _ hb)]

/-- Objects and records. -/
def Shape.isSlotted : Shape → Bool
  | .object _ | .record _ _ => true
  | _ => false

/-- What has no values. -/
def Shape.isValueless : Shape → Bool
  | .mixin _ | .constant _ _ _ | .provisional _ => true
  | _ => false

namespace Catalog

open Storage

variable {c : Catalog} {t p : Ty} {members : List Ty} {w : Nat} {found : Option Storage}
  {laid : Option Layout}

mutual

/-- How values of a type are held, by going into what the type is made of. -/
inductive StoredAs (c : Catalog) (w : Nat) : Ty → Option Storage → Prop
  | primitive {t : Ty} {k : ClassHandle} {width : Nat} (h : c.resolvedShape t = .primitive k width) :
      StoredAs c w t (some (scalar width))
  | metaclass {t : Ty} {k : ClassHandle} {subject : Ty}
      (h : c.resolvedShape t = .metaclass k subject) : StoredAs c w t (some (scalar metaclassWidth))
  | pointer {t : Ty} {pointee : Option Ty} (h : c.resolvedShape t = .pointer pointee) :
      StoredAs c w t (some (reference w []))
  /-- An object or a record, by the layout of each of its slots. -/
  | slotted {t : Ty} {layout : Ty → Option Layout} (h : (c.resolvedShape t).isSlotted = true)
      (hslots : ∀ slot ∈ (c.slots t).entries, ∀ u, slot.2 = some u → LaidAs c w u (layout u)) :
      StoredAs c w t (some (reference w (placeFields 0 ((c.slots t).entries.map fun slot =>
        (slot.1, (slot.2.bind layout).getD ⟨w, w⟩)))))
  /-- A union of a reference and `Nil`, which is the null reference. -/
  | nilable {t p : Ty} {found : Option Storage} (h : c.nilablePart t = some p)
      (hheld : c.heldByReference p = true) (hp : StoredAs c w p found) : StoredAs c w t found
  /-- Any other union, by the layout of each of its members. -/
  | tagged {t : Ty} {members : List Ty} {layout : Ty → Option Layout}
      (h : c.resolvedShape t = .union members) (hnil : c.nilableReference t = none)
      (hmembers : ∀ u ∈ members, LaidAs c w u (layout u)) :
      StoredAs c w t ((members.mapM layout).map tagged)
  | valueless {t : Ty} (h : (c.resolvedShape t).isValueless = true) : StoredAs c w t none

/-- The size and alignment of a slot, without going into what a reference leads to. -/
inductive LaidAs (c : Catalog) (w : Nat) : Ty → Option Layout → Prop
  | reference {t : Ty} (h : c.heldByReference t = true) : LaidAs c w t (some ⟨w, w⟩)
  | nilable {t p : Ty} (h : c.nilablePart t = some p) (hheld : c.heldByReference p = true) :
      LaidAs c w t (some ⟨w, w⟩)
  | tagged {t : Ty} {members : List Ty} {layout : Ty → Option Layout}
      (h : c.resolvedShape t = .union members) (hnil : c.nilableReference t = none)
      (hmembers : ∀ u ∈ members, LaidAs c w u (layout u)) :
      LaidAs c w t (((members.mapM layout).map Storage.tagged).map Storage.layout)
  /-- Neither a reference nor a union. -/
  | direct {t : Ty} {found : Option Storage} (hheld : c.heldByReference t = false)
      (hunion : (c.resolvedShape t).isUnion = false) (h : StoredAs c w t found) :
      LaidAs c w t (found.map Storage.layout)

end

/-! ## One size and alignment -/

theorem plainLayout_eq_map_plainStorage :
    c.plainLayout w t = (c.plainStorage w t).map Storage.layout := by
  unfold plainLayout plainStorage
  cases c.resolvedShape t <;> rfl

/-- A reference is as wide as a pointer, whatever it leads to. -/
theorem plainLayout_of_heldByReference (h : c.heldByReference t = true) :
    c.plainLayout w t = some ⟨w, w⟩ := by
  unfold heldByReference at h
  unfold plainLayout
  cases hs : c.resolvedShape t with
  | object | record | pointer => rfl
  | _ => rw [hs] at h; cases h

theorem isUnion_of_heldByReference (h : c.heldByReference t = true) :
    (c.resolvedShape t).isUnion = false := by
  unfold heldByReference at h
  cases hs : c.resolvedShape t with
  | union => rw [hs] at h; cases h
  | _ => rfl

theorem layoutOf_of_heldByReference (h : c.heldByReference t = true) :
    c.layoutOf w t = some ⟨w, w⟩ := by
  rw [layoutOf_of_isUnion_eq_false (isUnion_of_heldByReference h), plainLayout_of_heldByReference h]

theorem heldByReference_of_nilableReference (h : c.nilableReference t = some p) :
    c.heldByReference p = true :=
  (Option.filter_eq_some_iff.mp h).2

theorem nilableReference_of_nilablePart (h : c.nilablePart t = some p)
    (hheld : c.heldByReference p = true) : c.nilableReference t = some p :=
  Option.filter_eq_some_iff.mpr ⟨h, hheld⟩

theorem exists_union_of_nilableReference (h : c.nilableReference t = some p) :
    ∃ members, c.resolvedShape t = .union members := by
  have hpart := (Option.filter_eq_some_iff.mp h).1
  unfold nilablePart at hpart
  split at hpart
  · next hs => exact ⟨_, hs⟩
  · cases hpart

theorem storage_of_nilableReference (h : c.nilableReference t = some p) :
    c.storage w t = c.plainStorage w p := by
  obtain ⟨members, hs⟩ := exists_union_of_nilableReference h
  rw [storage, hs]
  dsimp only
  rw [h]

theorem storage_of_union (hs : c.resolvedShape t = .union members)
    (h : c.nilableReference t = none) : c.storage w t = c.tagMembers w members := by
  rw [storage, hs]
  dsimp only
  rw [h]

/-- The size and alignment of a slot are those of the storage of its type. -/
theorem layoutOf_eq_map_storage : c.layoutOf w t = (c.storage w t).map Storage.layout := by
  cases hs : c.resolvedShape t with
  | union members =>
    rw [layoutOf, hs]
    dsimp only
    cases hnil : c.nilableReference t with
    | none => rw [storage_of_union hs hnil]; rfl
    | some p =>
      rw [storage_of_nilableReference hnil, ← plainLayout_eq_map_plainStorage,
        plainLayout_of_heldByReference (heldByReference_of_nilableReference hnil)]
      rfl
  | _ =>
    have hunion : (c.resolvedShape t).isUnion = false := by rw [hs]; rfl
    rw [layoutOf_of_isUnion_eq_false hunion, storage_of_isUnion_eq_false hunion,
      plainLayout_eq_map_plainStorage]

/-! ## The search ends -/

/-- The members of a union are no unions. -/
def Flat (c : Catalog) : Prop :=
  ∀ t members, c.resolvedShape t = .union members →
    ∀ u ∈ members, (c.resolvedShape u).isUnion = false

theorem Canonical.flat (hc : c.Canonical) : c.Flat :=
  fun _ _ hs _ hu => (hc.single_of_member hs hu).isUnion_eq

/-- The layouts of members are those of types that are no unions. -/
theorem Flat.mapM_layoutOf (hc : c.Flat) (hs : c.resolvedShape t = .union members) (w : Nat) :
    (members.mapM (c.layoutOf w)).map tagged = c.tagMembers w members := by
  rw [tagMembers]
  congr 1
  exact mapM_congr fun u hu => layoutOf_of_isUnion_eq_false (hc t members hs u hu)

theorem storage_of_isSlotted (h : (c.resolvedShape t).isSlotted = true) :
    c.storage w t =
      some (reference w (placeFields 0 (c.slotPlacements w (c.slots t)))) := by
  have hunion : (c.resolvedShape t).isUnion = false := by
    revert h
    cases c.resolvedShape t <;> simp [Shape.isSlotted, Shape.isUnion]
  rw [storage_of_isUnion_eq_false hunion, plainStorage]
  cases hs : c.resolvedShape t with
  | object | record => rfl
  | _ => rw [hs] at h; cases h

theorem storage_of_isValueless (h : (c.resolvedShape t).isValueless = true) :
    c.storage w t = none := by
  unfold storage plainStorage
  cases hs : c.resolvedShape t with
  | mixin | constant | provisional => rfl
  | _ => rw [hs] at h; cases h

theorem slotPlacements_congr {layout : Ty → Option Layout} {slots : Table String (Option Ty)}
    (h : ∀ slot ∈ slots.entries, ∀ u, slot.2 = some u → layout u = c.layoutOf w u) :
    (slots.entries.map fun slot => (slot.1, (slot.2.bind layout).getD ⟨w, w⟩)) =
      c.slotPlacements w slots := by
  refine List.map_congr_left fun slot hslot => ?_
  cases hs : slot.2 with
  | none => rfl
  | some u => rw [Option.bind_some, Option.bind_some, h slot hslot u hs]

theorem Flat.mapM_congr (hc : c.Flat) (hs : c.resolvedShape t = .union members)
    {layout : Ty → Option Layout} (h : ∀ u ∈ members, layout u = c.layoutOf w u) :
    (members.mapM layout).map tagged = c.tagMembers w members := by
  rw [FlowTyping.mapM_congr h, hc.mapM_layoutOf hs]

theorem storage_of_nilablePart (h : c.nilablePart t = some p) (hheld : c.heldByReference p = true) :
    c.storage w t = c.storage w p := by
  rw [storage_of_nilableReference (nilableReference_of_nilablePart h hheld),
    storage_of_isUnion_eq_false (isUnion_of_heldByReference hheld)]

mutual

/-- What the search finds is the storage. -/
theorem Flat.eq_storage (hc : c.Flat) {t : Ty} {found : Option Storage} :
    c.StoredAs w t found → found = c.storage w t
  | .primitive hs => by rw [storage, plainStorage, hs]
  | .metaclass hs => by rw [storage, plainStorage, hs]
  | .pointer hs => by rw [storage, plainStorage, hs]
  | .slotted hs hslots => by
    rw [storage_of_isSlotted hs,
      slotPlacements_congr fun slot hslot u hu => hc.eq_layoutOf (hslots slot hslot u hu)]
  | .nilable h hheld hp => by rw [storage_of_nilablePart h hheld, hc.eq_storage hp]
  | .tagged hs hnil hmembers => by
    rw [storage_of_union hs hnil, hc.mapM_congr hs fun u hu => hc.eq_layoutOf (hmembers u hu)]
  | .valueless hs => (storage_of_isValueless hs).symm

/-- What the search finds for a slot is the layout. -/
theorem Flat.eq_layoutOf (hc : c.Flat) {t : Ty} {laid : Option Layout} :
    c.LaidAs w t laid → laid = c.layoutOf w t
  | .reference hheld => (layoutOf_of_heldByReference hheld).symm
  | .nilable h hheld => by
    rw [layoutOf_eq_map_storage, storage_of_nilablePart h hheld, ← layoutOf_eq_map_storage,
      layoutOf_of_heldByReference hheld]
  | .tagged hs hnil hmembers => by
    rw [layoutOf_eq_map_storage, storage_of_union hs hnil,
      hc.mapM_congr hs fun u hu => hc.eq_layoutOf (hmembers u hu)]
  | .direct _ hunion h => by rw [layoutOf_eq_map_storage, hc.eq_storage h]

end

theorem storedAs_of_direct (hheld : c.heldByReference t = false)
    (hunion : (c.resolvedShape t).isUnion = false) : c.StoredAs w t (c.storage w t) := by
  unfold heldByReference at hheld
  rw [storage, plainStorage]
  cases hs : c.resolvedShape t with
  | primitive => exact .primitive hs
  | metaclass => exact .metaclass hs
  | union => rw [hs] at hunion; cases hunion
  | object | record | pointer => rw [hs] at hheld; cases hheld
  | mixin | constant | provisional => exact .valueless (by rw [hs]; rfl)

theorem laidAs_of_isUnion_eq_false (hunion : (c.resolvedShape t).isUnion = false) :
    c.LaidAs w t (c.layoutOf w t) := by
  cases hheld : c.heldByReference t with
  | true =>
    rw [layoutOf_of_heldByReference hheld]
    exact .reference hheld
  | false =>
    rw [layoutOf_eq_map_storage]
    exact .direct hheld hunion (storedAs_of_direct hheld hunion)

theorem Flat.laidAs_members (hc : c.Flat) (hs : c.resolvedShape t = .union members) :
    ∀ u ∈ members, c.LaidAs w u (c.layoutOf w u) :=
  fun u hu => laidAs_of_isUnion_eq_false (hc t members hs u hu)

/-- For a slot, the search ends at references and at the members of unions. -/
theorem Flat.laidAs (hc : c.Flat) (t : Ty) : c.LaidAs w t (c.layoutOf w t) := by
  cases hs : c.resolvedShape t with
  | union members =>
    cases hnil : c.nilableReference t with
    | none =>
      rw [layoutOf_eq_map_storage, storage_of_union hs hnil, ← hc.mapM_layoutOf hs]
      exact .tagged hs hnil (hc.laidAs_members hs)
    | some p =>
      obtain ⟨hpart, hheld⟩ := Option.filter_eq_some_iff.mp hnil
      rw [layoutOf_eq_map_storage, storage_of_nilablePart hpart hheld, ← layoutOf_eq_map_storage,
        layoutOf_of_heldByReference hheld]
      exact .nilable hpart hheld
  | _ => exact laidAs_of_isUnion_eq_false (by rw [hs]; rfl)

theorem Flat.storedAs_of_heldByReference (hc : c.Flat) (hheld : c.heldByReference t = true) :
    c.StoredAs w t (c.storage w t) := by
  have hslotted : (c.resolvedShape t).isSlotted = true → c.StoredAs w t (c.storage w t) :=
    fun hs => by
      rw [storage_of_isSlotted hs]
      exact .slotted hs fun _ _ u _ => hc.laidAs u
  unfold heldByReference at hheld
  cases hs : c.resolvedShape t with
  | object | record => exact hslotted (by rw [hs]; rfl)
  | pointer =>
    rw [storage, plainStorage, hs]
    exact .pointer hs
  | _ => rw [hs] at hheld; cases hheld

/-- The search ends for every type: slots are not gone into any further than their layout. -/
theorem Flat.storedAs (hc : c.Flat) (t : Ty) : c.StoredAs w t (c.storage w t) := by
  cases hs : c.resolvedShape t with
  | union members =>
    cases hnil : c.nilableReference t with
    | none =>
      rw [storage_of_union hs hnil, ← hc.mapM_layoutOf hs]
      exact .tagged hs hnil (hc.laidAs_members hs)
    | some p =>
      obtain ⟨hpart, hheld⟩ := Option.filter_eq_some_iff.mp hnil
      rw [storage_of_nilablePart hpart hheld]
      exact .nilable hpart hheld (hc.storedAs_of_heldByReference hheld)
  | _ =>
    have hunion : (c.resolvedShape t).isUnion = false := by rw [hs]; rfl
    cases hheld : c.heldByReference t with
    | true => exact hc.storedAs_of_heldByReference hheld
    | false => exact storedAs_of_direct hheld hunion

end Catalog

namespace Store

open Catalog

variable {s : Store}

/-- In a store that operations on entered types lead to, the search for the storage of a type ends
with one result, and so does the search for the size and alignment of a slot; the latter are those
of the storage, and are missing where that is. -/
theorem storage_found (h : s.Moved) (w : Nat) (t : Ty) :
    (∀ found, s.catalog.StoredAs w t found ↔ found = s.catalog.storage w t) ∧
    (∀ laid, s.catalog.LaidAs w t laid ↔ laid = s.catalog.layoutOf w t) ∧
    s.catalog.layoutOf w t = (s.catalog.storage w t).map Storage.layout ∧
    (s.catalog.layoutOf w t = none ↔ s.catalog.storage w t = none) := by
  have hflat := h.started.orderly.catalog.canonical.flat
  refine ⟨fun found => ⟨hflat.eq_storage, ?_⟩, fun laid => ⟨hflat.eq_layoutOf, ?_⟩,
    layoutOf_eq_map_storage, ?_⟩
  · rintro rfl
    exact hflat.storedAs t
  · rintro rfl
    exact hflat.laidAs t
  · rw [layoutOf_eq_map_storage, Option.map_eq_none_iff]

/-- Nodes with a value, a next node or `Nil`, themselves and the tree that they are in; the tree has
a root that is a node. -/
def linked : Catalog :=
  seeded.performAll [.object "Node" (some .object) .main false,
    .object "Tree" (some .object) .main false, .merge [⟨36⟩, .nil],
    .slot ⟨36⟩ "@value" .int, .slot ⟨36⟩ "@next" ⟨40⟩, .slot ⟨36⟩ "@me" ⟨36⟩,
    .slot ⟨36⟩ "@tree" ⟨38⟩, .slot ⟨38⟩ "@root" ⟨36⟩]

theorem moved_linked : Moved ⟨linked, .empty 0⟩ := (Moved.start 0).requests (by decide +kernel)

theorem storage_found_linked : Moved ⟨linked, .empty 0⟩ ∧
    linked.StoredAs 8 ⟨40⟩
      (some (.reference 8 [("@value", 0), ("@next", 8), ("@me", 16), ("@tree", 24)])) ∧
    linked.LaidAs 8 ⟨40⟩ (some ⟨8, 8⟩) ∧
    linked.StoredAs 8 ⟨38⟩ (some (.reference 8 [("@root", 0)])) := by
  obtain ⟨hnode, hslot, htree⟩ : some (.reference 8
        [("@value", 0), ("@next", 8), ("@me", 16), ("@tree", 24)]) = linked.storage 8 ⟨40⟩ ∧
      some ⟨8, 8⟩ = linked.layoutOf 8 ⟨40⟩ ∧
      some (.reference 8 [("@root", 0)]) = linked.storage 8 ⟨38⟩ := by
    decide +kernel
  have hfound := storage_found moved_linked 8
  dsimp only at hfound
  exact ⟨moved_linked, ((hfound ⟨40⟩).1 _).mpr hnode, ((hfound ⟨40⟩).2.1 _).mpr hslot,
    ((hfound ⟨38⟩).1 _).mpr htree⟩

end Store

end FlowTyping
