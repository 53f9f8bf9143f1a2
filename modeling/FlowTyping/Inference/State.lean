import FlowTyping.Flow.Provisional
import FlowTyping.Scope

/-
  The state of a run

  A run owns a store and remembers what has been typed: the call sites, the
  method instances, the node of each instance variable of each type, and the
  nodes of constants, of fixed types and of expressions whose type is asked for.

  Steps of a run are `RunM`, and steps that also see the local variables are
  `TypingM`. Both keep the state when they fail.
-/
namespace FlowTyping

/-- Limits of a run and the target it is meant for. -/
structure Options where
  /-- How many nodes may be taken off the queue. -/
  stepLimit : Nat
  /-- How many provisional types may succeed one another on one node. -/
  generationLimit : Nat
  /-- The width of a pointer in bytes. -/
  pointerWidth : Nat
  /-- How deep the typing of bodies and constants may nest. -/
  depthLimit : Nat
  deriving DecidableEq, Repr

def Options.standard : Options := ⟨1000000, 64, 8, 100000⟩

/-- A call in a program, or in one instance of a method. -/
structure CallSite where
  name : String
  place : Place
  /-- The node of the receiver, if the call has one. -/
  receiver : Option Node
  arguments : List Node
  block : Option BlockFlow
  /-- The type of `self` at the call. -/
  caller : Ty
  result : Node
  /-- The nodes that the result is bound to. -/
  targets : List Node
  /-- The instances that were being typed when the call was met, innermost first. -/
  frames : List Frame
  deriving Repr

instance : Inhabited CallSite :=
  ⟨⟨"", .synthesized, none, [], none, .main, default, [], []⟩⟩

/-- What tells method instances apart. Calls with a block have instances of their own. -/
structure Invocation where
  owner : Ty
  method : MethodHandle
  arguments : List Ty
  site : Option Site
  deriving DecidableEq, Repr

/-- A method instance of the program text. -/
structure Instance where
  signature : String
  result : Node
  deriving DecidableEq, Repr

/-- A read of an instance variable. -/
structure SlotRead where
  owner : Ty
  name : String
  place : Place
  deriving DecidableEq, Repr

structure Run where
  store : Store
  sites : Array CallSite
  /-- The result node of every method instance, builtin ones included. -/
  results : Table Invocation Node
  /-- The instances whose bodies were typed, in that order. -/
  instances : Array Instance
  /-- One node for each instance variable of each type. -/
  slotNodes : Table (Ty × String) Node
  /-- The nodes of generic values made by `new`, for each site and its arguments. -/
  constructions : Table (Site × List Ty) Node
  slotReads : Array SlotRead
  /-- One node for each constant. -/
  constantNodes : Table Ty Node
  /-- One node for each type that something has from the start and keeps. -/
  sharedNodes : Table Ty Node
  /-- The nodes of the expressions whose types are part of the result. -/
  recorded : Table Nat Node
  deriving Repr

/-- Why a run stopped. -/
inductive Halt where
  | failed (error : TypingError)
  /-- Bodies and constants nest deeper than allowed. -/
  | tooDeep
  /-- More rounds of waking than the step limit allows. -/
  | tooManyRounds
  deriving Repr

abbrev RunM := EStateM Halt Run

/-- A run together with the local variables of the expression that is being typed. -/
structure Typing where
  scopes : Scopes
  run : Run

abbrev TypingM := EStateM Halt Typing

/-- A way to type an expression in a context. -/
abbrev Typer := Context → Expr → TypingM Node

/-- Lets a step of a run be a step of typing. -/
def Typing.lift {α : Type} (act : RunM α) : TypingM α := fun s =>
  match act s.run with
  | .ok a run => .ok a ⟨s.scopes, run⟩
  | .error halt run => .error halt ⟨s.scopes, run⟩

instance : MonadLift RunM TypingM := ⟨Typing.lift⟩

namespace Run

/-- The state before anything is typed. -/
def start (c : Catalog) (options : Options) : Run :=
  { store := ⟨c, .empty options.stepLimit⟩
    sites := #[]
    results := .empty
    instances := #[]
    slotNodes := .empty
    constructions := .empty
    slotReads := #[]
    constantNodes := .empty
    sharedNodes := .empty
    recorded := .empty }

def catalog (r : Run) : Catalog := r.store.catalog

def graph (r : Run) : Graph := r.store.graph

def site (r : Run) (s : Site) : CallSite := r.sites[s.index]?.getD default

def withCatalog (r : Run) (c : Catalog) : Run := { r with store := ⟨c, r.store.graph⟩ }

def withGraph (r : Run) (g : Graph) : Run := { r with store := ⟨r.store.catalog, g⟩ }

def freshNode (r : Run) (kind : CellKind) (place : Place) : Node × Run :=
  (r.graph.add kind none place).map id r.withGraph

def bind (r : Run) (n dependency : Node) : Run := { r with store := r.store.bind n dependency }

def unbind (r : Run) (n dependency : Node) : Run := { r with store := r.store.unbind n dependency }

/-- The node that has type `t` from the start, shared by all that do. -/
def sharedNode (r : Run) (t : Ty) : Node × Run :=
  match r.sharedNodes.get? t with
  | some n => (n, r)
  | none =>
    let (n, g) := r.graph.add .plain (some t) .synthesized
    (n, { r.withGraph g with sharedNodes := r.sharedNodes.put t n })

/-- The node of an instance variable. A slot that has a type by declaration gives it that type. -/
def slotNode (r : Run) (owner : Ty) (name : String) : Node × Run :=
  match r.slotNodes.get? (owner, name) with
  | some n => (n, r)
  | none =>
    let (n, r) := r.freshNode .plain .synthesized
    let r := match r.catalog.slot? owner name with
      | some (some declared) =>
        let (seed, r) := r.sharedNode declared
        r.bind n seed
      | _ => r
    (n, { r with slotNodes := r.slotNodes.put (owner, name) n })

end Run

namespace RunM

def fail {α : Type} (e : TypingError) : RunM α := throw (.failed e)

/-- Lets a step on the store be a step of a run. -/
def onStore {α : Type} (act : StoreM α) : RunM α := fun r =>
  match act r.store with
  | .ok a store => .ok a { r with store := store }
  | .error e store => .error (.failed e) { r with store := store }

def ofExcept {α : Type} : Except TypingError α → RunM α
  | .ok a => pure a
  | .error e => fail e

def catalog : RunM Catalog := return (← get).catalog

def freshNode (place : Place) : RunM Node := modifyGet (·.freshNode .plain place)

def freshAddress (place : Place) : RunM Node := modifyGet (·.freshNode .pointer place)

def sharedNode (t : Ty) : RunM Node := modifyGet (·.sharedNode t)

def sharedNil : RunM Node := sharedNode .nil

def slotNode (owner : Ty) (name : String) : RunM Node := modifyGet (·.slotNode owner name)

def bind (n dependency : Node) : RunM Unit := modify (·.bind n dependency)

/-- Types something with no local variables in scope. -/
def inFreshScopes {α : Type} (act : TypingM α) : RunM α := fun r =>
  match act ⟨.empty, r⟩ with
  | .ok a s => .ok a s.run
  | .error halt s => .error halt s.run

/-- Puts the frame of an instance around an error met while typing it. -/
def framed {α : Type} (frame : Frame) (act : RunM α) : RunM α := fun r =>
  match act r with
  | .error (.failed e) r => .error (.failed (.instantiating frame.signature frame.place e)) r
  | result => result

end RunM

end FlowTyping
