import FlowTyping.Handle
import FlowTyping.Source.Place
import FlowTyping.Table

/-
  Local variables and what surrounds an expression

  Scopes map the names of local variables to nodes. A block opens a scope of
  its own inside those of its method and closes it at its end; the outermost
  scope cannot be closed.

  A context is what an expression is typed in apart from its variables: the type
  of `self`, the namespace, the method instance and the frames of all instances
  that are being typed.
-/
namespace FlowTyping

/-- Scopes of local variables, of which there is always at least one. -/
structure Scopes where
  inner : Table String Node
  /-- The enclosing scopes, innermost first. -/
  outer : List (Table String Node)
  deriving Repr

namespace Scopes

/-- One scope without variables. -/
def empty : Scopes := ⟨.empty, []⟩

def depth (s : Scopes) : Nat := s.outer.length + 1

/-- Opens a scope. -/
def push (s : Scopes) : Scopes := ⟨.empty, s.inner :: s.outer⟩

/-- Closes the innermost scope, unless it is the only one. -/
def pop? (s : Scopes) : Option Scopes :=
  match s.outer with
  | [] => none
  | scope :: rest => some ⟨scope, rest⟩

/-- Names a node in the innermost scope. -/
def define (s : Scopes) (name : String) (n : Node) : Scopes := { s with inner := s.inner.put name n }

/-- The node that a name means: that of the innermost scope which has the name. -/
def find (s : Scopes) (name : String) : Option Node :=
  (s.inner :: s.outer).findSome? (·.get? name)

end Scopes

/-- The block given to a call: a node for each parameter and the node of its body. -/
structure BlockFlow where
  parameters : List Node
  result : Node
  deriving DecidableEq, Repr

/-- The method instance that is being typed: the node of its result and the block it was given. -/
structure BodyFlow where
  result : Node
  block : Option BlockFlow
  deriving DecidableEq, Repr

/-- A method instance and the place it was first called from. -/
structure Frame where
  signature : String
  place : Place
  deriving DecidableEq, Repr

/-- What an expression is typed in. -/
structure Context where
  /-- The type of `self`. -/
  receiver : Ty
  /-- The namespace in which paths and constants are looked up. -/
  home : Ty
  body : Option BodyFlow
  /-- Whether the nodes of expressions are kept for the result. -/
  records : Bool
  /-- The instances that are being typed, innermost first. -/
  active : List Frame
  deriving Repr

/-- The block of the method instance that is being typed, if it was given one. -/
def Context.block (ctx : Context) : Option BlockFlow := ctx.body.bind (·.block)

end FlowTyping
