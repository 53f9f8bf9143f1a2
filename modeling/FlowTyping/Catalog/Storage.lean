import FlowTyping.Catalog.Basic

/-
  Storage

  What a backend needs to know of a type: size and alignment of a value, whether
  it is a reference, the tag and payload of a union, and the offsets of slots in
  the memory that a reference leads to.

  A slot that holds a reference is as wide as a pointer whatever it refers to,
  so the storage of a type that refers to itself is found without going round.
-/
namespace FlowTyping

/-- Tag and payload of a union, in bytes. -/
structure TagLayout where
  tagSize : Nat
  payload : Nat
  deriving DecidableEq, Repr

/-- How values of a type are held. -/
structure Storage where
  size : Nat
  align : Nat
  /-- Whether a value is a reference. -/
  indirect : Bool
  union : Option TagLayout
  /-- The offsets of the slots in the memory that a reference leads to. -/
  fields : List (String × Nat)
  deriving DecidableEq, Repr

/-- Size and alignment of a value in a slot. -/
structure Layout where
  size : Nat
  align : Nat
  deriving DecidableEq, Repr

namespace Storage

/-- The width of the tag of a union. -/
def tagSize : Nat := 4

/-- The width of a metaclass as a value. -/
def metaclassWidth : Nat := 4

def layout (s : Storage) : Layout := ⟨s.size, s.align⟩

/-- A value held in place. -/
def scalar (width : Nat) : Storage := ⟨width, width, false, none, []⟩

def reference (pointerWidth : Nat) (fields : List (String × Nat)) : Storage :=
  ⟨pointerWidth, pointerWidth, true, none, fields⟩

/-- The smallest multiple of `align` from `offset` on; alignments 0 and 1 ask for nothing. -/
def roundUp (offset align : Nat) : Nat :=
  if align ≤ 1 then offset else (offset + align - 1) / align * align

/-- The offsets of slots placed one behind the other from `offset` on. -/
def placeFields (offset : Nat) : List (String × Layout) → List (String × Nat)
  | [] => []
  | (name, slot) :: rest =>
    let start := roundUp offset slot.align
    (name, start) :: placeFields (start + slot.size) rest

/-- A tag and room for each of the members. -/
def tagged (members : List Layout) : Storage :=
  let payload := (members.map (·.size)).foldl max 0
  let payloadAlign := (members.map (·.align)).foldl max 1
  let align := max payloadAlign tagSize
  { size := roundUp (roundUp tagSize payloadAlign + payload) align
    align := align
    indirect := false
    union := some ⟨tagSize, payload⟩
    fields := [] }

end Storage

namespace Catalog

/-- Whether values of `t` are references. -/
def heldByReference (c : Catalog) (t : Ty) : Bool :=
  match c.resolvedShape t with
  | .object _ | .record _ _ | .pointer _ => true
  | _ => false

/-- The layout of a value that is no union in a slot; modules and constants have none. -/
def plainLayout (c : Catalog) (pointerWidth : Nat) (t : Ty) : Option Layout :=
  match c.resolvedShape t with
  | .object _ | .record _ _ | .pointer _ => some ⟨pointerWidth, pointerWidth⟩
  | .primitive _ width => some ⟨width, width⟩
  | .metaclass _ _ => some ⟨Storage.metaclassWidth, Storage.metaclassWidth⟩
  | _ => none

/-- The tagged union of some members, if all of them have a layout. -/
def tagMembers (c : Catalog) (pointerWidth : Nat) (members : List Ty) : Option Storage :=
  (members.mapM (c.plainLayout pointerWidth)).map Storage.tagged

/-- The reference that a union with `Nil` is held as, where its other member is a reference. -/
def nilableReference (c : Catalog) (t : Ty) : Option Ty := (c.nilablePart t).filter c.heldByReference

/-- The layout of a value of type `t` in a slot. -/
def layoutOf (c : Catalog) (pointerWidth : Nat) (t : Ty) : Option Layout :=
  match c.resolvedShape t with
  | .union members =>
    if (c.nilableReference t).isSome then some ⟨pointerWidth, pointerWidth⟩
    else (c.tagMembers pointerWidth members).map Storage.layout
  | _ => c.plainLayout pointerWidth t

/-- The layouts of slots; one without a type or without a layout is as wide as a pointer. -/
def slotPlacements (c : Catalog) (pointerWidth : Nat) (slots : Table String (Option Ty)) :
    List (String × Layout) :=
  slots.entries.map fun slot =>
    (slot.1, (slot.2.bind (c.layoutOf pointerWidth)).getD ⟨pointerWidth, pointerWidth⟩)

/-- Storage of a type that is no union; modules and constants have no values. -/
def plainStorage (c : Catalog) (pointerWidth : Nat) (t : Ty) : Option Storage :=
  match c.resolvedShape t with
  | .primitive _ width => some (.scalar width)
  | .pointer _ => some (.reference pointerWidth [])
  | .object _ | .record _ _ =>
    some (.reference pointerWidth (Storage.placeFields 0 (c.slotPlacements pointerWidth (c.slots t))))
  | .metaclass _ _ => some (.scalar Storage.metaclassWidth)
  | _ => none

/-- How values of type `t` are held for a pointer size. Nil is the null reference in a union with a
reference; any other union has a tag. -/
def storage (c : Catalog) (pointerWidth : Nat) (t : Ty) : Option Storage :=
  match c.resolvedShape t with
  | .union members =>
    match c.nilableReference t with
    | some reference => c.plainStorage pointerWidth reference
    | none => c.tagMembers pointerWidth members
  | _ => c.plainStorage pointerWidth t

end Catalog

end FlowTyping
