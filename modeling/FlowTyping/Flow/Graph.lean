import FlowTyping.Handle
import FlowTyping.Source.Place

/-
  The flow graph

  A node of the graph holds the type of one thing in a program, once that is
  known. It takes its type from the nodes it depends on, and it is watched by
  nodes, call sites and provisional types that have to react when its type
  changes. A node whose type has changed is dirty and waits in the queue until
  its watchers have been notified.

  This module holds the graph and the operations that need no catalog.
-/
namespace FlowTyping

/-- How a node takes its type from the nodes it depends on. -/
inductive CellKind where
  /-- The merge of their types. -/
  | plain
  /-- The pointer type for the merge of their types. -/
  | pointer
  deriving DecidableEq, Repr

/-- What reacts to a change of a node. -/
inductive Watcher where
  | node (node : Node)
  | site (site : Site)
  | provisional (type : Ty)
  deriving DecidableEq, Repr

/-- A watcher outside the graph that has to react to a change. -/
inductive Wake where
  | site (site : Site)
  | provisional (type : Ty)
  deriving DecidableEq, Repr

/-- A watcher as a wake, unless it is a node. -/
def Watcher.wake? : Watcher → Option Wake
  | node _ => none
  | site s => some (.site s)
  | provisional t => some (.provisional t)

/-- The contents of a node. -/
structure Cell where
  kind : CellKind
  type : Option Ty
  dependencies : List Node
  watchers : List Watcher
  dirty : Bool
  place : Place
  deriving Repr

instance : Inhabited Cell := ⟨⟨.plain, none, [], [], false, .synthesized⟩⟩

structure Graph where
  cells : Array Cell
  /-- The dirty nodes whose watchers have not been notified, first come first. -/
  queue : List Node
  /-- How many more nodes may be taken off the queue. -/
  budget : Nat
  /-- The budget at the start. -/
  limit : Nat
  deriving Repr

namespace Graph

/-- A graph without nodes that may take `limit` nodes off its queue. -/
def empty (limit : Nat) : Graph := ⟨#[], [], limit, limit⟩

def size (g : Graph) : Nat := g.cells.size

def nodes (g : Graph) : List Node := (List.range g.size).map Node.mk

def cell (g : Graph) (n : Node) : Cell := g.cells[n.index]?.getD default

def typeAt (g : Graph) (n : Node) : Option Ty := (g.cell n).type

def dependencies (g : Graph) (n : Node) : List Node := (g.cell n).dependencies

def dirtyAt (g : Graph) (n : Node) : Bool := (g.cell n).dirty

def countDirty (g : Graph) : Nat := (g.cells.toList.filter (·.dirty)).length

/-- Nothing is queued and no node is dirty. -/
def isQuiet (g : Graph) : Bool := g.queue.isEmpty && g.countDirty == 0

def modify (g : Graph) (n : Node) (f : Cell → Cell) : Graph :=
  { g with cells := g.cells.modify n.index f }

/-- Adds a node without dependencies, with a type or without. -/
def add (g : Graph) (kind : CellKind) (type : Option Ty) (place : Place) : Node × Graph :=
  (⟨g.cells.size⟩, { g with cells := g.cells.push ⟨kind, type, [], [], false, place⟩ })

/-- Adds an item at the end of a list unless it is there. -/
def addOnce {α : Type} [DecidableEq α] (item : α) (items : List α) : List α :=
  if items.contains item then items else items ++ [item]

def watch (g : Graph) (n : Node) (w : Watcher) : Graph :=
  g.modify n fun cell => { cell with watchers := addOnce w cell.watchers }

def unwatch (g : Graph) (n : Node) (w : Watcher) : Graph :=
  g.modify n fun cell => { cell with watchers := cell.watchers.filter (· != w) }

/-- Gives a node a type. Any type other than the one it has makes it dirty, also a provisional type
that stands for the same. -/
def retype (g : Graph) (n : Node) (t : Ty) : Graph :=
  if g.typeAt n = some t then g
  else if g.dirtyAt n then g.modify n fun cell => { cell with type := some t }
  else
    let changed := g.modify n fun cell => { cell with type := some t, dirty := true }
    { changed with queue := changed.queue ++ [n] }

/-- Gives a node a type without making it dirty. -/
def overwriteType (g : Graph) (n : Node) (t : Ty) : Graph :=
  g.modify n fun cell => { cell with type := some t }

/-- The known types of the nodes that `n` depends on. -/
def inputs (g : Graph) (n : Node) : List Ty := (g.dependencies n).filterMap g.typeAt

end Graph

end FlowTyping
