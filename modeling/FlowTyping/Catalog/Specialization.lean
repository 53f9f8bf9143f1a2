import FlowTyping.Catalog.Declare

/-
  Pointer types and specializations

  There is one pointer type for each pointee, and one specialization of a
  generic type for each set of bindings of its slots, in whatever order the
  bindings are given.
-/
namespace FlowTyping

/-- Inserts a binding before the first one whose name is not smaller. -/
def insertBinding (binding : String × Ty) : List (String × Ty) → List (String × Ty)
  | [] => [binding]
  | head :: rest =>
    if head.1 < binding.1 then head :: insertBinding binding rest else binding :: head :: rest

/-- The bindings in the order of their names; those of one name stay in their order. -/
def sortBindings (bindings : List (String × Ty)) : List (String × Ty) :=
  bindings.foldr insertBinding []

/-- Whether a shape is the pointer type for `pointee`. -/
def Shape.isPointerFor (pointee : Ty) : Shape → Bool
  | .pointer (some other) => other == pointee
  | _ => false

namespace Catalog

/-- The pointer type for what `t` stands for, entered if it is new. -/
def pointerFor (c : Catalog) (t : Ty) : Ty × Catalog :=
  let pointee := c.resolve t
  match c.shapes.findIdx? (·.isPointerFor pointee) with
  | some i => (⟨i⟩, c)
  | none => c.push (.pointer (some pointee))

/-- The generic type that `t` is, or that it specializes. -/
def templateOf (c : Catalog) (t : Ty) : Option Ty :=
  match c.resolvedShape t with
  | .object o => o.template.or (if o.generic then some (c.resolve t) else none)
  | _ => none

/-- Adds a copy of an object type with some of its slots bound, which shares its class table.
Any other type is its own copy. -/
def specialize (c : Catalog) (template : Ty) (bindings : List (String × Ty)) : Ty × Catalog :=
  match c.shape template with
  | .object o =>
    let slots := o.slots.putAll (bindings.map fun binding => (binding.1, some binding.2))
    c.push (.object ⟨o.cls, slots, true, some template⟩)
  | _ => (template, c)

/-- The bindings as a specialization is known by: resolved and in the order of their names. -/
def bindingKey (c : Catalog) (bindings : List (String × Ty)) : List (String × Ty) :=
  sortBindings (bindings.map fun binding => (binding.1, c.resolve binding.2))

/-- The specialization of a generic type for some bindings, entered if it is new. A specialization
in place of the generic type stands for its template. -/
def instantiate (c : Catalog) (t : Ty) (bindings : List (String × Ty)) :
    Except TypingError (Ty × Catalog) :=
  match c.templateOf t with
  | none => .error (.fault (.notGeneric (c.display (c.resolve t))))
  | some template =>
    let key := (template, c.bindingKey bindings)
    match c.specializations.get? key with
    | some known => .ok (known, c)
    | none =>
      let (id, added) := c.specialize template key.2
      .ok (id, { added with specializations := added.specializations.put key id })

end Catalog

end FlowTyping
