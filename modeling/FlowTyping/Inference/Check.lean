import FlowTyping.Catalog.Storage
import FlowTyping.Inference.Expression

/-
  Checking a program

  A check declares the types and methods of a program, types its expressions and
  then settles: it propagates types, resolves the calls and refreshes the
  provisional types that were woken, and goes on until nothing is. Each round
  that wakes something takes a node off the queue, so the step limit also limits
  the rounds.

  At the end, nodes take the types that their provisional types stand for, the
  slots of plain objects get the types of their nodes, and reads of instance
  variables that nothing was assigned to are errors.
-/
namespace FlowTyping

namespace RunM

/-- Puts the frames that were active at a call around an error met while resolving it again. -/
def inFramesOf {α : Type} (site : Site) (act : RunM α) : RunM α := fun r =>
  match act r with
  | .error (.failed e) r =>
    let wrapped := (r.site site).frames.foldl
      (fun e frame => TypingError.instantiating frame.signature frame.place e) e
    .error (.failed wrapped) r
  | result => result

/-- Lets a woken call or provisional type react. -/
def wake (typer : Typer) (options : Options) : Wake → RunM Unit
  | .site site => inFramesOf site (rebindCall typer [] site)
  | .provisional t => onStore (Store.refresh t options.generationLimit)

/-- Propagates and wakes for at most `rounds` rounds, until a round wakes nothing. -/
def settleWithin (typer : Typer) (options : Options) : Nat → RunM Unit
  | 0 => throw .tooManyRounds
  | rounds + 1 => do
    let wakes ← onStore Store.propagate
    if wakes.isEmpty then pure ()
    else
      wakes.forM (wake typer options)
      settleWithin typer options rounds

/-- Propagates and wakes until nothing is woken. Each round but the last uses up some budget. -/
def settle (typer : Typer) (options : Options) : RunM Unit := do
  settleWithin typer options ((← get).graph.budget + 1)

end RunM

namespace Run

/-- The type that a node stands for. -/
def resolvedType (r : Run) (n : Node) : Option Ty := (r.graph.typeAt n).map r.catalog.resolve

/-- Gives a node with a provisional type the type that it stands for. -/
def collapse (c : Catalog) (g : Graph) (n : Node) : Graph :=
  match g.typeAt n with
  | some t =>
    match c.shape t with
    | .provisional _ => g.overwriteType n (c.resolve t)
    | _ => g
  | none => g

/-- Replaces all provisional types of nodes by what they stand for. -/
def collapseAll (r : Run) : Run := r.withGraph (r.graph.nodes.foldl (collapse r.catalog) r.graph)

/-- Whether a type is an object type that is neither generic nor a specialization. -/
def isPlainObject (c : Catalog) (t : Ty) : Bool :=
  match c.shape t with
  | .object o => !o.generic && o.template.isNone
  | _ => false

/-- Writes the type of the node of an instance variable to the slot of its owner. -/
def writeSlot (g : Graph) (c : Catalog) (entry : (Ty × String) × Node) : Catalog :=
  match g.typeAt entry.2 with
  | some t =>
    if isPlainObject c entry.1.1 then c.setSlot entry.1.1 entry.1.2 (c.resolve t) else c
  | none => c

/-- Writes the types of all instance variables of plain objects to their slots. -/
def writeSlots (r : Run) : Run :=
  r.withCatalog (r.slotNodes.entries.foldl (writeSlot r.graph) r.catalog)

/-- Whether something with a type was assigned to the instance variable that is read. -/
def isAssigned (r : Run) (read : SlotRead) : Bool :=
  ((r.slotNodes.get? (read.owner, read.name)).bind r.graph.typeAt).isSome

/-- The error of the first read of an instance variable that nothing was assigned to, or of nodes
that are still dirty. -/
def defect (r : Run) : Option TypingError :=
  match r.slotReads.find? fun read => !r.isAssigned read with
  | some read => some
      (.located (.missingMember (r.catalog.display read.owner) read.name) read.place)
  | none =>
    if r.graph.isQuiet then none else some (.fault (.stillDirty r.graph.countDirty))

end Run

/-- A method instance and the type of its result, if its body ever produces one. -/
structure TypedInstance where
  signature : String
  result : Option Ty
  deriving DecidableEq, Repr

/-- What checking a program finds. -/
structure Checked where
  /-- All types, with the final types of instance variables. -/
  catalog : Catalog
  /-- The types of the expressions outside methods, by the number of the expression. -/
  types : List (Nat × Ty)
  result : Option Ty
  instances : List TypedInstance
  pointerWidth : Nat

namespace Checked

def typeAt (r : Checked) (id : Nat) : Option Ty := r.types.lookup id

/-- The text of the type of an expression, or a question mark if it has none. -/
def shownType (r : Checked) (e : Expr) : String :=
  ((r.typeAt e.mark.id).map r.catalog.display).getD "?"

def storage (r : Checked) (t : Ty) : Option Storage := r.catalog.storage r.pointerWidth t

/-- The instances whose signatures begin with `start`. -/
def instancesStarting (r : Checked) (start : String) : List TypedInstance :=
  r.instances.filter fun i => i.signature.startsWith start

end Checked

/-- What a settled run has found, with the node of the program as its result. -/
def Run.checked (r : Run) (options : Options) (result : Node) : Checked :=
  { catalog := r.catalog
    types := r.recorded.entries.filterMap fun entry =>
      (r.resolvedType entry.2).map fun t => (entry.1, t)
    result := r.resolvedType result
    instances := r.instances.toList.map fun i => ⟨i.signature, r.resolvedType i.result⟩
    pointerWidth := options.pointerWidth }

namespace RunM

/-- Types the expressions of a program. -/
def typeProgram (typer : Typer) (program : Expr) : RunM Node :=
  inFreshScopes (typer ⟨.main, .main, none, true, []⟩ program)

/-- Types a program whose declarations are in the catalog. -/
def checkDeclared (options : Options) (program : Expr) : RunM Checked := do
  let typer := TypingM.typerWithin options.depthLimit
  let result ← typeProgram typer program
  settle typer options
  modify fun r => r.collapseAll.writeSlots
  let r ← get
  match r.defect with
  | some e => fail e
  | none => pure (r.checked options result)

end RunM

/-- Checks a program. -/
def check (program : Expr) (options : Options) : Except Halt Checked :=
  match DeclareM.declareProgram program Catalog.seeded with
  | .error e _ => .error (.failed e)
  | .ok _ c =>
    match RunM.checkDeclared options program (.start c options) with
    | .ok checked _ => .ok checked
    | .error halt _ => .error halt

end FlowTyping
