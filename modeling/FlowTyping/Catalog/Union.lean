import FlowTyping.Catalog.Basic

/-
  Merging types

  `Catalog.merge` gives one type for a list of types: the union of all that they
  stand for. Superseded provisional types are left out, live ones stand for
  their targets, and unions for their members. The result is canonical: the
  members are in increasing order without repetition, a single member is no
  union, and one list of members is entered only once.
-/
namespace FlowTyping

/-- Inserts a type into an increasing list unless it is there. -/
def Ty.insert (t : Ty) : List Ty → List Ty
  | [] => [t]
  | head :: rest =>
    if t.index < head.index then t :: head :: rest
    else if t = head then head :: rest
    else head :: Ty.insert t rest

/-- The types of a list in increasing order, each once. -/
def Ty.increasing (types : List Ty) : List Ty := types.foldr Ty.insert []

/-- Whether a shape is the union of exactly these members. -/
def Shape.isUnionOf (members : List Ty) : Shape → Bool
  | .union others => others == members
  | _ => false

namespace Catalog

/-- The types that a merge of `types` consists of, in increasing order. -/
def live (c : Catalog) (types : List Ty) : List Ty :=
  Ty.increasing ((types.filter fun t => !c.isSuperseded t).flatMap c.members)

/-- The union of `members`, entered if it is new. -/
def union (c : Catalog) (members : List Ty) : Ty × Catalog :=
  match c.shapes.findIdx? (·.isUnionOf members) with
  | some i => (⟨i⟩, c)
  | none => c.push (.union members)

/-- The one type for all of `types`, or none if nothing is left of them. -/
def merge (c : Catalog) (types : List Ty) : Option Ty × Catalog :=
  match c.live types with
  | [] => (none, c)
  | [t] => (some t, c)
  | members => ((c.union members).map some id)

/-- The merge of two types, or the first if nothing is left of them. -/
def merge₂ (c : Catalog) (a b : Ty) : Ty × Catalog :=
  (c.merge [a, b]).map (·.getD a) id

end Catalog

end FlowTyping
