import FlowTyping.Catalog.Overload
import FlowTyping.Inference.State

/-
  What a call does

  A call is looked at once for each type that its receiver can have and each
  choice of one type for each argument. For one such combination it either takes
  the result of a definition, or makes a new value, or is an error. All of this
  is read off the catalog and changes nothing.
-/
namespace FlowTyping

/-- Every way to pick one item from each list, the last list varying fastest. -/
def choices {α : Type} : List (List α) → List (List α)
  | [] => [[]]
  | options :: rest => options.flatMap fun a => (choices rest).map (a :: ·)

/-- What a call does for one receiver type and one choice of argument types. -/
inductive Dispatch where
  /-- It takes the result of a definition, called on `owner`. -/
  | method (owner : Ty) (id : MethodHandle)
  /-- It makes a new value of an object type. -/
  | construct (type : Ty)
  | miss (miss : Miss)
  deriving DecidableEq, Repr

namespace Catalog

/-- The error of a call that selects no definition. -/
def missError (c : Catalog) (owner : Ty) (name : String) (arguments : List Ty) (miss : Miss)
    (place : Place) : TypingError :=
  let shown := arguments.map c.display
  let candidates := miss.candidates.map c.methodText
  match miss with
  | .undefined => .located (.missingMember (c.display owner) name) place
  | .inapplicable _ => .located (.noOverload name shown candidates) place
  | .tied _ => .located (.tiedOverloads name shown candidates) place

/-- The result type of a builtin method called on `owner`. -/
def builtinType (c : Catalog) (owner : Ty) (name : String) (builtin : Builtin)
    (arguments : List Ty) (place : Place) : Except TypingError Ty :=
  let orUnknown : Option Ty → Except TypingError Ty
    | some t => .ok t
    | none => .error (.located (.missingMember (c.display owner) name) place)
  match builtin with
  | .fixed t => .ok t
  | .allocate => .ok (c.subject owner)
  | .slot slot => orUnknown (c.slot? owner slot).join
  | .pointee => orUnknown (c.pointee? owner)
  | .firstArgument =>
    match arguments with
    | t :: _ => .ok t
    | [] => .error (.fault .missingValue)
  | .element => orUnknown ((c.slot? owner "@buffer").join.bind c.pointee?)

/-- Whether objects of type `t` are specialized by the types of their slots. -/
def isGeneric (c : Catalog) (t : Ty) : Bool :=
  match c.shape t with
  | .object o => o.generic
  | _ => false

/-- The object type that `new` on `owner` makes without a definition of `new`. -/
def constructed (c : Catalog) (owner : Ty) : Option Ty :=
  match c.shape owner with
  | .metaclass _ t =>
    match c.shape t with
    | .object _ => some t
    | _ => none
  | _ => none

/-- Selects what a call does. A call without receiver falls back to top-level definitions, and
`new` without a definition makes a new value. -/
def dispatch (c : Catalog) (call : CallSite) (owner : Ty) (arguments : List Ty) : Dispatch :=
  let yields := call.block.isSome
  match c.select owner ⟨call.name, arguments, yields, owner⟩ with
  | .ok id => .method owner id
  | .error miss =>
    let atTop := if call.receiver.isNone ∧ owner ≠ .main
      then some (c.select .main ⟨call.name, arguments, yields, .main⟩) else none
    match atTop with
    | some (.ok id) => .method .main id
    | other =>
      let miss := match miss, other with
        | .undefined, some (.error topMiss) => topMiss
        | miss, _ => miss
      if call.name = "new" ∧ miss = .undefined then
        match c.constructed owner with
        | some t => .construct t
        | none => .miss miss
      else .miss miss

end Catalog

/-- The receiver types and choices of argument types of a call; nothing while one of the types is
not known. -/
def Run.combinations (r : Run) (call : CallSite) : Option (List (Ty × List Ty)) := do
  let owners ← match call.receiver with
    | some n => (r.graph.typeAt n).map r.catalog.members
    | none => some [call.caller]
  let arguments ← call.arguments.mapM fun n => (r.graph.typeAt n).map r.catalog.members
  some (owners.flatMap fun owner => (choices arguments).map fun choice => (owner, choice))

end FlowTyping
