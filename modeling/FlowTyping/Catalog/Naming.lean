import FlowTyping.Catalog.Hierarchy
import FlowTyping.Problem

/-
  How types and methods are written in messages

  A class-like type is written with its namespaces: `Outer::Inner`. Compound
  types show their parts: `(Int | Nil)`, `Pointer<Char>`, `Array<Int>`,
  `Box<@x: Int>`, `Foo:Class`. A type that occurs inside its own text is written
  as three dots there, so the text of a type that contains itself is finite.
-/
namespace FlowTyping.Catalog

/-- Whether `t` is a namespace without a container. -/
def isOutermost (c : Catalog) (t : Ty) : Bool :=
  match (c.shape t).cls? with
  | some k => (c.classTable k).container.isNone
  | none => false

/-- The name and the namespace of a class-like type or a constant. -/
def nameAndContainer (c : Catalog) (t : Ty) : Option (String × Option Ty) :=
  match c.resolvedShape t with
  | .constant name container _ => some (name, some container)
  | _ => (c.tableOf t).map fun table => (table.name, table.container)

/-- The name of `t` below the names of at most `bound` namespaces; `render` writes a type that has
no name. -/
def qualifiedName (c : Catalog) (render : Ty → String) : Nat → Ty → String
  | 0, _ => "..."
  | bound + 1, t =>
    match c.nameAndContainer t with
    | none => render t
    | some (name, none) => name
    | some (name, some container) =>
      if c.isOutermost container then name
      else c.qualifiedName render bound container ++ "::" ++ name

/-- The type of the elements that a specialization shows, if it has an element slot with a type. -/
def elementType (c : Catalog) (o : ObjectShape) : Option Ty := do
  let slot ← (c.classTable o.cls).elementSlot
  let buffer ← (← o.slots.get? slot)
  c.pointee? buffer

/-- What a specialization shows after its name: its element type, or else its slots. -/
def bindingsText (c : Catalog) (part : Ty → String) : Shape → String
  | .object ⟨cls, slots, generic, some template⟩ =>
    match c.elementType ⟨cls, slots, generic, some template⟩ with
    | some element => "<" ++ part element ++ ">"
    | none =>
      if (c.classTable cls).elementSlot.isSome || slots.isEmpty then ""
      else
        let texts := slots.entries.map fun slot => slot.1 ++ ": " ++ (slot.2.map part).getD "?"
        "<" ++ commaSeparated texts ++ ">"
  | _ => ""

/-- The text of `t` inside the texts of the types in `enclosing`, at most `bound` deep. -/
def displayWithin (c : Catalog) : Nat → List Ty → Ty → String
  | 0, _, _ => "..."
  | bound + 1, enclosing, t =>
    let t := c.resolve t
    if enclosing.contains t then "..."
    else
      let part := c.displayWithin bound (t :: enclosing)
      match c.shape t with
      | .union members => "(" ++ String.intercalate " | " (members.map part) ++ ")"
      | .metaclass _ subject => part subject ++ ":Class"
      | .pointer (some pointee) => "Pointer<" ++ part pointee ++ ">"
      | shape =>
        c.qualifiedName (c.displayWithin bound []) (c.size + 1) t ++ c.bindingsText part shape

/-- A bound on how deep the text of a type can nest. -/
def displayBound (c : Catalog) : Nat := (c.size + 2) * (c.size + 2)

/-- The text of a type. -/
def display (c : Catalog) (t : Ty) : String := c.displayWithin c.displayBound [] t

/-- The name of a type with its namespaces; a type without a name is displayed. -/
def scopedName (c : Catalog) (t : Ty) : String := c.qualifiedName c.display (c.size + 1) t

/-- Writes a method: `f` at top level, `Foo#f` on instances, `Foo.f` on the type itself. -/
def memberName (c : Catalog) (owner : Ty) (name : String) : String :=
  if c.resolve owner = .main then name
  else
    match c.resolvedShape owner with
    | .metaclass _ subject => c.display subject ++ "." ++ name
    | _ => c.display owner ++ "#" ++ name

def parameterText (c : Catalog) (p : Parameter) : String :=
  match p.restriction with
  | some (.type t) => p.name ++ " : " ++ c.display t
  | some .receiver => p.name ++ " : self"
  | none => p.name

/-- Writes a definition with its parameters, as in `Foo#f(x : Int, y)`. -/
def methodText (c : Catalog) (m : MethodHandle) : String :=
  let method := c.method m
  c.memberName method.owner method.name ++
    "(" ++ commaSeparated (method.parameters.map c.parameterText) ++ ")"

/-- Writes an instance of a method: its name on the receiver and the types of the arguments. -/
def instanceText (c : Catalog) (owner : Ty) (name : String) (arguments : List Ty) : String :=
  c.memberName owner name ++ "(" ++ commaSeparated (arguments.map c.display) ++ ")"

end FlowTyping.Catalog
