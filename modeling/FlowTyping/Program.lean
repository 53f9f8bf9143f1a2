import FlowTyping.Handle
import FlowTyping.Source.Place

/-
  Programs

  A program is one expression. Every expression carries a mark: a number that
  names it in results and a place for reports.

  `Expr.yields` tells whether typing an expression can reach a `yield` of the
  method that the expression belongs to. Methods, classes and modules nested in
  it do not count.
-/
namespace FlowTyping

/-- Identity of an expression and where it stands in the text. -/
structure Mark where
  id : Nat
  place : Place
  deriving DecidableEq, Repr

/-- The kinds of literals. Their values have no part in typing. -/
inductive Literal where
  | nil | bool | char | int | long | float | double | string | symbol
  deriving DecidableEq, Repr

def Literal.type : Literal → Ty
  | nil => .nil
  | bool => .bool
  | char => .char
  | int => .int
  | long => .long
  | float => .float
  | double => .double
  | string => .string
  | symbol => .symbol

/-- A type as written: a path of names, or `self`. -/
inductive TypeName where
  | path (names : List String)
  | receiver
  deriving DecidableEq, Repr

/-- What an assignment writes to. -/
inductive Target where
  | localVar (name : String)
  | slot (name : String)
  | constant (name : String)
  deriving DecidableEq, Repr

/-- A parameter as written: a name, perhaps a type, perhaps a default of type `ε`. -/
structure WrittenParameter (ε : Type) where
  name : String
  type : Option TypeName
  fallback : Option ε
  deriving Repr

/-- Programs and their parts. -/
inductive Expr where
  | literal (mark : Mark) (kind : Literal)
  | localVar (mark : Mark) (name : String)
  /-- An instance variable of `self`. -/
  | slot (mark : Mark) (name : String)
  | self (mark : Mark)
  /-- A path that names a type or a constant. -/
  | path (mark : Mark) (names : List String)
  | assign (mark : Mark) (target : Target) (value : Expr)
  | assignMany (mark : Mark) (targets : List Target) (values : List Expr)
  | sequence (mark : Mark) (items : List Expr)
  | branch (mark : Mark) (condition accepted : Expr) (refused : Option Expr)
  | loop (mark : Mark) (condition body : Expr)
  /-- A call, with the parameter names and the body of its block if it has one. -/
  | call (mark : Mark) (receiver : Option Expr) (name : String) (arguments : List Expr)
      (block : Option (List String × Expr))
  | yielding (mark : Mark) (arguments : List Expr)
  | returning (mark : Mark) (value : Option Expr)
  | array (mark : Mark) (elements : List Expr) (of : Option TypeName)
  /-- A pointer to a value. -/
  | addressOf (mark : Mark) (value : Expr)
  /-- A method of the enclosing type, or of its metaclass. -/
  | methodDef (mark : Mark) (name : String) (onMetaclass : Bool) (params : List (WrittenParameter Expr))
      (body : Expr)
  | classDef (mark : Mark) (name : String) (superclass : Option (List String)) (generic : Bool)
      (body : Expr)
  | moduleDef (mark : Mark) (name : String) (body : Expr)
  | recordDef (mark : Mark) (name : String) (fields : List (String × TypeName))
  | inclusion (mark : Mark) (names : List String)
  deriving Repr

namespace Expr

def mark : Expr → Mark
  | literal m _ | localVar m _ | slot m _ | self m | path m _ | assign m _ _ | assignMany m _ _
  | sequence m _ | branch m _ _ _ | loop m _ _ | call m _ _ _ _ | yielding m _ | returning m _
  | array m _ _ | addressOf m _ | methodDef m _ _ _ _ | classDef m _ _ _ _ | moduleDef m _ _
  | recordDef m _ _ | inclusion m _ => m

def place (e : Expr) : Place := e.mark.place

instance : Inhabited Expr := ⟨literal ⟨0, .synthesized⟩ .nil⟩

mutual

/-- Whether the expression yields to the block of the method it belongs to. -/
def yields : Expr → Bool
  | yielding _ _ => true
  | assign _ _ value => value.yields
  | assignMany _ _ values => anyYields values
  | sequence _ items => anyYields items
  | branch _ condition accepted refused =>
    condition.yields || accepted.yields || optionYields refused
  | loop _ condition body => condition.yields || body.yields
  | call _ receiver _ arguments block =>
    optionYields receiver || anyYields arguments || blockYields block
  | returning _ value => optionYields value
  | array _ elements _ => anyYields elements
  | addressOf _ value => value.yields
  | _ => false

def anyYields : List Expr → Bool
  | [] => false
  | e :: rest => e.yields || anyYields rest

def optionYields : Option Expr → Bool
  | none => false
  | some e => e.yields

def blockYields : Option (List String × Expr) → Bool
  | none => false
  | some (_, body) => body.yields

end

end Expr

end FlowTyping
