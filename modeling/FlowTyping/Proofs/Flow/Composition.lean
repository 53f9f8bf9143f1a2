import FlowTyping.Proofs.Flow.Invariance

/-
  What entries are made of

  The pointee of a pointer type, the fields of a record and the members of a
  union are entered before it. Only the slots of an object may get types that
  came later, and a provisional type may come to stand for one. No slot or field
  has its name twice. All of this holds of every store that operations on
  entered types lead to (`Moved.composed`).
-/
namespace FlowTyping

/-- An entry at `index` in a catalog of so many types mentions earlier types, except in slots. -/
def Shape.Composed (s : Shape) (index size : Nat) : Prop :=
  match s with
  | .object o => o.slots.keys.Nodup ∧
      ∀ slot ∈ o.slots.entries, ∀ u, slot.2 = some u → u.index < size
  | .record _ fields => fields.keys.Nodup ∧ ∀ field ∈ fields.entries, field.2.index < index
  | .pointer pointee => ∀ u, pointee = some u → u.index < index
  | .union members => ∀ u ∈ members, u.index < index
  | _ => True

theorem Shape.Composed.mono {s : Shape} {index size size' : Nat} (h : s.Composed index size)
    (hsize : size ≤ size') : s.Composed index size' := by
  cases s with
  | object o => exact ⟨h.1, fun slot hs u hu => Nat.lt_of_lt_of_le (h.2 slot hs u hu) hsize⟩
  | _ => exact h

namespace Catalog

variable {c c' : Catalog} {t u : Ty} {s : Shape}

structure Composed (c : Catalog) : Prop where
  entry : ∀ t, (c.shape t).Composed t.index c.size

namespace Composed

theorem of_shapes_eq (hc : c.Composed) (h : c'.shapes = c.shapes) : c'.Composed := by
  refine ⟨fun t => ?_⟩
  rw [shape_of_shapes_eq h, size_of_shapes_eq h]
  exact hc.entry t

theorem push (hc : c.Composed) (hs : s.Composed c.size (c.size + 1)) : (c.push s).2.Composed := by
  refine ⟨fun t => ?_⟩
  rw [shape_push, size_push]
  split
  · next hindex =>
    rw [hindex]
    exact hs
  · exact (hc.entry t).mono (Nat.le_succ _)

theorem setShape (hc : c.Composed) (hs : s.Composed t.index c.size) :
    (c.setShape t s).Composed := by
  refine ⟨fun u => ?_⟩
  rw [shape_setShape, size_setShape]
  split
  · next hindex =>
    rw [hindex.1]
    exact hs
  · exact hc.entry u

/-! ## Declarations -/

theorem enterName (hc : c.Composed) (scope : Ty) (name : String) (t : Ty) :
    (c.enterName scope name t).Composed := by
  unfold Catalog.enterName
  split
  · exact hc.of_shapes_eq rfl
  · exact hc

theorem defineMethod (hc : c.Composed) (m : Method) : (c.defineMethod m).2.Composed :=
  hc.of_shapes_eq (Sound.shapes_defineMethod c m)

theorem newClassLike (hc : c.Composed) (name : String) (container superclass : Option Ty)
    (shape : ClassHandle → Shape) (hshape : ∀ k, (shape k).Composed c.size (c.size + 1)) :
    (c.newClassLike name container superclass shape).2.Composed := by
  have hpushed : Composed { c with
      shapes := c.shapes.push (shape ⟨c.classes.size⟩)
      classes := c.classes.push (.bare name container superclass) } :=
    of_shapes_eq (c := (c.push (shape ⟨c.classes.size⟩)).2) (hc.push (hshape _)) rfl
  have hentered : (c.enterType (.bare name container superclass) shape).Composed := by
    unfold enterType
    dsimp only
    split
    · exact hpushed.enterName _ _ _
    · exact hpushed
  have hmeta : Composed { c.enterType (.bare name container superclass) shape with
      shapes := (c.enterType (.bare name container superclass) shape).shapes.push (.metaclass
        ⟨(c.enterType (.bare name container superclass) shape).classes.size⟩ ⟨c.size⟩)
      classes := (c.enterType (.bare name container superclass) shape).classes.push
        (.bare (name ++ ":Class") container none) } :=
    of_shapes_eq (c := ((c.enterType (.bare name container superclass) shape).push (.metaclass
      ⟨(c.enterType (.bare name container superclass) shape).classes.size⟩ ⟨c.size⟩)).2)
      (hentered.push trivial) rfl
  exact (hmeta.defineMethod _).defineMethod _

theorem newRecord (hc : c.Composed) (name : String) {fields : List (String × Ty)}
    (hfields : ∀ field ∈ fields, field.2.index < c.size) (container : Ty) :
    (c.newRecord name (.ofList fields) container).2.Composed := by
  have hdeclared := hc.newClassLike name (some container) none
    (.record · (Table.ofList fields)) fun _ =>
    ⟨Table.nodup_keys_putAll (t := .empty) List.nodup_nil fields, fun field hfield =>
      (Table.mem_putAll hfield).elim (hfields field) fun h => by cases h⟩
  rw [newRecord_eq]
  exact defineMethod (List.foldlRecOn _ _ hdeclared fun _ hd _ _ =>
    (hd.defineMethod _).defineMethod _) _

theorem setSlot (hc : c.Composed) (t : Ty) (name : String) (hu : u.index < c.size) :
    (c.setSlot t name u).Composed := by
  unfold Catalog.setSlot resolvedShape
  split
  · next o ho =>
    have hold := hc.entry (c.resolve t)
    rw [ho] at hold
    refine hc.setShape ⟨Table.nodup_keys_put hold.1, fun slot hslot v hv => ?_⟩
    rcases Table.mem_put hslot with rfl | hslot
    · obtain rfl : u = v := Option.some.inj hv
      exact hu
    · exact hold.2 slot hslot v hv
  · exact hc

/-! ## Types made of other types -/

theorem merge (hc : c.Composed) (hcanonical : c.Canonical) {ts : List Ty}
    (hts : ∀ t ∈ ts, t.index < c.size) : (c.merge ts).2.Composed := by
  have hunion : (c.union (c.live ts)).2.Composed := by
    unfold union
    split
    · exact hc
    · exact hc.push fun u hu => (hcanonical.single_of_mem_live hts hu).1.1
  unfold Catalog.merge
  split
  · exact hc
  · exact hc
  · exact hunion

theorem pointerFor (hc : c.Composed) (hgrounded : c.Grounded) (ht : t.index < c.size) :
    (c.pointerFor t).2.Composed := by
  unfold Catalog.pointerFor
  dsimp only
  split
  · exact hc
  · refine hc.push fun u hu => ?_
    obtain rfl : c.resolve t = u := Option.some.inj hu
    exact (hgrounded.resolve_definite ht).1

theorem copyOf (hc : c.Composed) {o : ObjectShape} (ho : c.shape t = .object o)
    {bindings : List (String × Ty)} (hbindings : ∀ b ∈ bindings, b.2.index < c.size) :
    (Shape.object (copyOf t o bindings)).Composed c.size (c.size + 1) := by
  have hold := hc.entry t
  rw [ho] at hold
  refine ⟨Table.nodup_keys_putAll hold.1 _, fun slot hslot u hu => ?_⟩
  rcases Table.mem_putAll hslot with hbound | hslot
  · obtain ⟨b, hb, rfl⟩ := List.mem_map.mp hbound
    obtain rfl : b.2 = u := Option.some.inj hu
    exact Nat.lt_succ_of_lt (hbindings b hb)
  · exact Nat.lt_succ_of_lt (hold.2 slot hslot u hu)

theorem specialize (hc : c.Composed) (template : Ty) {bindings : List (String × Ty)}
    (hbindings : ∀ b ∈ bindings, b.2.index < c.size) :
    (c.specialize template bindings).2.Composed := by
  by_cases hobject : ∃ o, c.shape template = .object o
  · obtain ⟨o, ho⟩ := hobject
    rw [specialize_of_object ho]
    exact hc.push (hc.copyOf ho hbindings)
  · unfold Catalog.specialize
    split
    · next o ho => exact absurd ⟨o, ho⟩ hobject
    · exact hc

theorem instantiate (hc : c.Composed) (horderly : c.Orderly) {bindings : List (String × Ty)}
    (hbindings : ∀ b ∈ bindings, b.2.index < c.size) {target : Ty}
    (h : c.instantiate t bindings = .ok (target, c')) : c'.Composed := by
  obtain ⟨template, -, ⟨-, rfl⟩ | ⟨o, ho, -, -, rfl⟩⟩ := horderly.instantiate_ok h
  · exact hc
  · refine of_shapes_eq (hc.push (hc.copyOf ho fun b hb => ?_)) rfl
    obtain ⟨b', hb', rfl⟩ := List.mem_map.mp (mem_sortBindings.mp hb)
    exact (horderly.canonical.grounded.resolve_definite (hbindings b' hb')).1

theorem perform (hc : c.Composed) (horderly : c.Orderly) {r : Request} (hr : c.Knows r) :
    (c.perform r).Composed := by
  cases r with
  | mixin name container => exact hc.newClassLike _ _ _ _ fun _ => trivial
  | primitive name superclass width container => exact hc.newClassLike _ _ _ _ fun _ => trivial
  | object name superclass container generic =>
    show (c.newObject name superclass container generic).2.Composed
    rw [newObject_eq]
    exact (hc.newClassLike _ _ _ (fun k => .object ⟨k, .empty, generic, none⟩) fun _ =>
      ⟨List.nodup_nil, fun _ h => by cases h⟩).defineMethod _
  | record name fields container =>
    exact hc.newRecord name (fun field hfield =>
      hr field.2 (List.mem_append_left _ (List.mem_map_of_mem hfield))) container
  | constant name value container =>
    exact (hc.push (s := .constant name container value) trivial).enterName _ _ _
  | name scope name t => exact hc.enterName _ _ _
  | method m => exact hc.defineMethod m
  | inclusion t included =>
    show ((c.includeMixin t included).toOption.getD c).Composed
    cases h : c.includeMixin t included with
    | error e => exact hc
    | ok c' =>
      refine hc.of_shapes_eq ?_
      unfold includeMixin at h
      split at h
      · cases h
      · split at h
        · cases h
        · cases h
          rfl
  | slot t name u => exact hc.setSlot t name (hr u (List.mem_cons_of_mem _ List.mem_cons_self))
  | merge ts => exact hc.merge horderly.canonical hr
  | pointer t => exact hc.pointerFor horderly.canonical.grounded (hr t List.mem_cons_self)
  | copy template bindings =>
    exact hc.specialize template fun b hb =>
      hr b.2 (List.mem_cons_of_mem _ (List.mem_map_of_mem hb))
  | specialization t bindings =>
    show (((c.instantiate t bindings).toOption.map (·.2)).getD c).Composed
    cases h : c.instantiate t bindings with
    | error e => exact hc
    | ok made =>
      exact hc.instantiate horderly (fun b hb =>
        hr b.2 (List.mem_cons_of_mem _ (List.mem_map_of_mem hb))) h

end Composed

/-- Whether an entry mentions no other type, apart from its slots, and has no slot twice. -/
def simple : Shape → Bool
  | .object o => decide o.slots.keys.Nodup
  | .record _ _ | .pointer (some _) | .union _ => false
  | _ => true

theorem composed_of_simple (hc : c.Elementary) (hsimple : ∀ s ∈ c.shapes.toList, simple s = true) :
    c.Composed := by
  refine ⟨fun t => ?_⟩
  rcases shape_mem_or_default c t with hmem | hle
  · have hs := hsimple _ hmem
    have htypes := hc.types t
    generalize c.shape t = s at hs htypes ⊢
    cases s with
    | object o =>
      refine ⟨of_decide_eq_true hs, fun slot hslot u hu => (htypes u ?_).1⟩
      refine List.mem_append_left _ (List.mem_flatMap.mpr ⟨slot, hslot, ?_⟩)
      rw [hu]
      exact List.mem_singleton_self u
    | record => cases hs
    | pointer pointee =>
      cases pointee with
      | none => exact fun u hu => by cases hu
      | some u => cases hs
    | union => cases hs
    | _ => trivial
  · rw [shape_of_size_le hle]
    exact fun u hu => by cases hu

theorem composed_seeded : seeded.Composed :=
  composed_of_simple elementary_seeded (by decide +kernel)

end Catalog

namespace Store

variable {s : Store}

theorem Moved.composed (h : s.Moved) : s.catalog.Composed :=
  h.invariant (P := Catalog.Composed) (fun _ _ horderly hr hc => hc.perform horderly hr)
    (fun _ p hc => hc.push (s := .provisional p) trivial)
    (fun _ _ _ q _ hc => hc.setShape (s := .provisional q) trivial) Catalog.composed_seeded

end Store

end FlowTyping
