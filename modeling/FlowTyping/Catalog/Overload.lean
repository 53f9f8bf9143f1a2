import FlowTyping.Catalog.Declare

/-
  Overloads

  A restriction accepts a type that is the same, has the same class table, or
  has an accepted parent; it accepts a union if it accepts every member. A
  definition is applicable to a call if it stands under a key of as many
  restrictions as there are arguments, each accepting its argument, and takes a
  block exactly if the call has one.

  Class tables are searched in order, the receiver's own first and then those of
  its ancestors, depth first. The first table decides in which one applicable
  definition is more specific than all others; if there is none, the first
  table that knows the name tells why.
-/
namespace FlowTyping

/-- Why a call selects no definition. -/
inductive Miss where
  /-- No table has the name. -/
  | undefined
  /-- No definition is applicable; these are the ones to show. -/
  | inapplicable (candidates : List MethodHandle)
  /-- Several are applicable and these are tied. -/
  | tied (candidates : List MethodHandle)
  deriving DecidableEq, Repr

def Miss.candidates : Miss → List MethodHandle
  | undefined => []
  | inapplicable ms => ms
  | tied ms => ms

/-- What a call asks of a definition. -/
structure Query where
  name : String
  arguments : List Ty
  /-- Whether the call has a block. -/
  yields : Bool
  /-- The receiver, which a `self` restriction stands for. -/
  receiver : Ty
  deriving DecidableEq, Repr

/-- The type that a restriction stands for at a call on `receiver`. -/
def Restriction.typeFor (receiver : Ty) : Restriction → Ty
  | .type t => t
  | .receiver => receiver

namespace Catalog

/-- Whether two types have one class table. -/
def sameClass (c : Catalog) (a b : Ty) : Bool :=
  match c.cls? a, c.cls? b with
  | some k, some l => k == l
  | _, _ => false

/-- Acceptance through at most `bound` steps to parents or members. -/
def acceptsWithin (c : Catalog) : Nat → Ty → Ty → Bool
  | 0, _, _ => false
  | bound + 1, restriction, t =>
    c.resolve restriction == c.resolve t ||
      match c.resolvedShape t with
      | .union members => members.all (c.acceptsWithin bound restriction)
      | _ => c.sameClass restriction t || (c.parents t).any (c.acceptsWithin bound restriction)

/-- Whether a parameter restricted to `restriction` takes a value of type `t`. -/
def accepts (c : Catalog) (restriction t : Ty) : Bool :=
  c.acceptsWithin (c.size + 2) restriction t

/-- Whether a parameter takes an argument; one without restriction takes any. -/
def acceptsArgument (c : Catalog) (receiver : Ty) (restriction : Option Restriction) (t : Ty) :
    Bool :=
  match restriction with
  | some r => c.accepts (r.typeFor receiver) t
  | none => true

/-- Whether the restrictions accept the arguments one by one. -/
def acceptsArguments (c : Catalog) (receiver : Ty) : List (Option Restriction) → List Ty → Bool
  | [], [] => true
  | r :: rs, t :: ts => c.acceptsArgument receiver r t && c.acceptsArguments receiver rs ts
  | _, _ => false

/-- Whether a definition under `key` is applicable to a call. -/
def fits (c : Catalog) (q : Query) (key : MethodKey) : Bool :=
  key.yields == q.yields && c.acceptsArguments q.receiver key.restrictions q.arguments

/-- Whether one parameter takes whatever the other takes. A parameter with a restriction is less
general than one without. -/
def moreGeneralParameter (c : Catalog) (receiver : Ty) (general specific : Parameter) : Bool :=
  match general.restriction, specific.restriction with
  | some _, none => false
  | some g, some s => c.accepts (g.typeFor receiver) (s.typeFor receiver)
  | none, _ => true

/-- Whether each parameter of the first definition takes what the parameter of the second at its
position takes. Parameters without a counterpart do not count. -/
def moreGeneral (c : Catalog) (receiver : Ty) (general specific : MethodHandle) : Bool :=
  ((c.method general).parameters.zip (c.method specific).parameters).all fun pair =>
    c.moreGeneralParameter receiver pair.1 pair.2

/-- The definitions of one name under keys that `keep` holds of, each once. -/
def definitions (overloads : Table MethodKey MethodHandle) (keep : MethodKey → Bool) : List MethodHandle :=
  ((overloads.entries.filter fun entry => keep entry.1).map (·.2)).eraseDups

/-- The candidates that every other candidate is more general than. -/
def mostSpecific (c : Catalog) (receiver : Ty) (candidates : List MethodHandle) : List MethodHandle :=
  candidates.filter fun m => candidates.all fun other => other == m || c.moreGeneral receiver other m

/-- What one table says to a call, given its definitions of the name. -/
def selectAmong (c : Catalog) (q : Query) (overloads : Table MethodKey MethodHandle) :
    Except Miss MethodHandle :=
  match definitions overloads (c.fits q) with
  | [] =>
    let sameForm := definitions overloads fun key =>
      key.restrictions.length == q.arguments.length && key.yields == q.yields
    .error (.inapplicable
      (if sameForm.isEmpty then definitions overloads fun _ => true else sameForm))
  | applicable =>
    match c.mostSpecific q.receiver applicable with
    | [best] => .ok best
    | [] => .error (.tied applicable)
    | minimal => .error (.tied minimal)

/-- The types whose tables are searched for a call on `owner`. For `new` on a metaclass that is
the owner alone. -/
def searchOrder (c : Catalog) (owner : Ty) (q : Query) : List Ty :=
  if q.name = "new" ∧ c.isMeta q.receiver then [c.resolve owner]
  else preorder (fun t => (c.parents t).map c.resolve) (c.size + 1) [] [c.resolve owner]

/-- What the tables that know the name say to a call, in the order of search. -/
def verdicts (c : Catalog) (owner : Ty) (q : Query) : List (Except Miss MethodHandle) :=
  (c.searchOrder owner q).filterMap fun t =>
    ((c.tableOf t).bind (·.methods.get? q.name)).map (c.selectAmong q)

/-- The first definition that a table selected, or the first reason why none was. -/
def firstSelected : List (Except Miss MethodHandle) → Except Miss MethodHandle
  | [] => .error .undefined
  | .ok m :: _ => .ok m
  | .error miss :: rest =>
    match firstSelected rest with
    | .ok m => .ok m
    | .error _ => .error miss

/-- The definition that a call on `owner` selects. -/
def select (c : Catalog) (owner : Ty) (q : Query) : Except Miss MethodHandle :=
  firstSelected (c.verdicts owner q)

end Catalog

end FlowTyping
