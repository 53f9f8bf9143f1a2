/-
  Handles

  Types, class tables, methods, graph nodes and call sites live in arrays and
  are named by their position there. Positions are only handed out in
  increasing order, so the handle of a type also orders the members of a union.

  The built-in types come first. Each takes two positions, its own and the next
  one for its metaclass, and their class tables stand at the same positions.
-/
namespace FlowTyping

/-- Identity of a type. -/
structure Ty where
  index : Nat
  deriving DecidableEq, Repr, Inhabited

/-- Identity of a class table. -/
structure ClassHandle where
  index : Nat
  deriving DecidableEq, Repr, Inhabited

/-- Identity of a method definition. -/
structure MethodHandle where
  index : Nat
  deriving DecidableEq, Repr, Inhabited

/-- Identity of a node of the flow graph. -/
structure Node where
  index : Nat
  deriving DecidableEq, Repr, Inhabited

/-- Identity of a call site. -/
structure Site where
  index : Nat
  deriving DecidableEq, Repr, Inhabited

namespace Ty

/-- The root namespace, which holds top-level definitions. -/
def main : Ty := ⟨0⟩
def object : Ty := ⟨2⟩
def value : Ty := ⟨4⟩
def numeric : Ty := ⟨6⟩
def void : Ty := ⟨8⟩
def nil : Ty := ⟨10⟩
def bool : Ty := ⟨12⟩
def char : Ty := ⟨14⟩
def short : Ty := ⟨16⟩
def int : Ty := ⟨18⟩
def long : Ty := ⟨20⟩
def float : Ty := ⟨22⟩
def double : Ty := ⟨24⟩
def symbol : Ty := ⟨26⟩
/-- The template of all pointer types. -/
def pointer : Ty := ⟨28⟩
def string : Ty := ⟨30⟩
/-- The template of all array types. -/
def array : Ty := ⟨32⟩
def math : Ty := ⟨34⟩

/-- The position next to this one, where the metaclass of a class-like type stands. -/
def next (t : Ty) : Ty := ⟨t.index + 1⟩

/-- The built-in types under their names, in order of declaration. -/
def builtins : List (String × Ty) :=
  [("main", main), ("Object", object), ("Value", value), ("Numeric", numeric), ("Void", void),
    ("Nil", nil), ("Bool", bool), ("Char", char), ("Short", short), ("Int", int), ("Long", long),
    ("Float", float), ("Double", double), ("Symbol", symbol), ("Pointer", pointer),
    ("String", string), ("Array", array), ("Math", math)]

end Ty

/-- The class table shared by every pointer type. -/
def ClassHandle.pointer : ClassHandle := ⟨28⟩

end FlowTyping
