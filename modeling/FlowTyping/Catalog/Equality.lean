import FlowTyping.Catalog.Basic

/-
  Equality of types

  Types with one identity are equal. Beyond that, specializations of one class
  are equal if their slots are, pointer types if their pointees are, records if
  their names and fields are, and unions if each member of the one has an equal
  member in the other, as many on both sides.
-/
namespace FlowTyping.Catalog

/-- Whether every slot of the first table has an equal partner, by `same`, in the second, and there
are as many. A slot without a type is the partner of one without a type. -/
def sameSlots (same : Ty → Ty → Bool) (a b : Table String (Option Ty)) : Bool :=
  a.size == b.size && a.entries.all fun slot =>
    match slot.2, b.get? slot.1 with
    | some s, some (some t) => same s t
    | none, some none => true
    | _, _ => false

/-- Whether every field of the first table has an equal partner, by `same`, in the second, and
there are as many. -/
def sameFields (same : Ty → Ty → Bool) (a b : Table String Ty) : Bool :=
  a.size == b.size && a.entries.all fun field =>
    match b.get? field.1 with
    | some t => same field.2 t
    | none => false

/-- Whether two shapes are equal as far as `same` tells for their parts. -/
def sameShape (c : Catalog) (same : Ty → Ty → Bool) : Shape → Shape → Bool
  | .object a, .object b =>
    a.generic && b.generic && a.cls == b.cls && sameSlots same a.slots b.slots
  | .pointer (some a), .pointer (some b) => same a b
  | .record k a, .record l b =>
    (c.classTable k).name == (c.classTable l).name && sameFields same a b
  | .union a, .union b => a.length == b.length && a.all fun s => b.any (same s)
  | _, _ => false

/-- Equality of types as far as it can be told from parts at most `bound` deep. -/
def equalWithin (c : Catalog) : Nat → Ty → Ty → Bool
  | 0, _, _ => false
  | bound + 1, a, b =>
    c.resolve a == c.resolve b ||
      c.sameShape (c.equalWithin bound) (c.resolvedShape a) (c.resolvedShape b)

/-- Whether two types are equal. A comparison that goes deeper than there are pairs of types has
come back to a pair it started from. -/
def equal (c : Catalog) (a b : Ty) : Bool := c.equalWithin (c.size * c.size + 1) a b

end FlowTyping.Catalog
