import FlowTyping.Catalog.Declare

/-
  The built-in types

  The catalog that every run starts from: the root namespace, the hierarchy of
  `Object`, `Value` and `Numeric`, the primitives, `Pointer`, `String`, the
  generic `Array` and `Math`, with the methods that no program text defines.
-/
namespace FlowTyping.Catalog

/-- Declares an object type with superclass `superclass` in the root namespace. -/
def seedObject (name : String) (superclass : Option Ty) (generic : Bool) (c : Catalog) : Catalog :=
  (c.newObject name superclass .main generic).2

def seedPrimitive (name : String) (superclass : Ty) (width : Nat) (c : Catalog) : Catalog :=
  (c.newPrimitive name superclass width .main).2

/-- The types in the order of their handles. -/
def seedTypes : Catalog :=
  (empty.newMixin "main" none).2
    |> seedObject "Object" none false
    |> seedObject "Value" (some .object) false
    |> seedObject "Numeric" (some .value) false
    |> seedPrimitive "Void" .value 1
    |> seedPrimitive "Nil" .value 1
    |> seedPrimitive "Bool" .value 1
    |> seedPrimitive "Char" .value 1
    |> seedPrimitive "Short" .value 2
    |> seedPrimitive "Int" .numeric 4
    |> seedPrimitive "Long" .numeric 8
    |> seedPrimitive "Float" .numeric 4
    |> seedPrimitive "Double" .numeric 8
    |> seedPrimitive "Symbol" .value 4
    |> (fun c => (c.newPointerTemplate .value .main).2)
    |> seedObject "String" (some .object) false
    |> seedObject "Array" (some .object) true
    |> (fun c => (c.newMixin "Math" (some .main)).2)

/-- The slots of the built-in objects. -/
def seedSlots (c : Catalog) : Catalog :=
  let slotted := c
    |> (·.setSlot .string "@length" .int)
    |> (·.setSlot .string "@c" .char)
    |> (·.setSlot .array "@length" .int)
    |> (·.setSlot .array "@capacity" .int)
  match slotted.cls? .array with
  | some k => slotted.modifyClass k fun table => { table with elementSlot := some "@buffer" }
  | none => slotted

/-- A parameter restricted to one type. -/
def parameterOf (name : String) (t : Ty) : Parameter := ⟨name, some (.type t), none⟩

/-- Declares operators of one operand and one fixed result. -/
def seedOperators (owner operand result : Ty) (names : List String) (c : Catalog) : Catalog :=
  names.foldl (fun c name => c.defineBuiltin owner name [parameterOf "other" operand] (.fixed result)) c

/-- The numbers that have operators, narrow before wide. -/
def numbers : List Ty := [.int, .long, .float, .double]

/-- The later of two numbers in `numbers`, which is the type of their sum. -/
def wider (a b : Ty) : Ty := if a.index < b.index then b else a

/-- Arithmetic gives the wider operand type, and comparison a truth value. -/
def seedArithmetic (lhs : Ty) (c : Catalog) (rhs : Ty) : Catalog :=
  c |> seedOperators lhs rhs (wider lhs rhs) ["+", "-", "*", "/"]
    |> seedOperators lhs rhs .bool ["<", "<=", ">", ">=", "==", "!="]

def seedMethods (c : Catalog) : Catalog :=
  numbers.foldl (fun c lhs => numbers.foldl (seedArithmetic lhs) c) c
    |> seedOperators .bool .bool .bool ["==", "!="]
    |> seedOperators .char .char .bool ["==", "!="]
    |> (·.defineBuiltin .string "length" [] (.fixed .int))
    |> (·.defineBuiltin .pointer "value" [] .pointee)
    |> (·.defineBuiltin .pointer "value=" [⟨"value", none, none⟩] .firstArgument)
    |> (·.defineBuiltin .array "length" [] (.fixed .int))
    |> (·.defineBuiltin .array "[]" [parameterOf "index" .int] .element)

/-- The catalog that every run starts from. -/
def seeded : Catalog := seedMethods (seedSlots seedTypes)

end FlowTyping.Catalog
