import FlowTyping.Catalog.Specialization
import FlowTyping.Catalog.Union
import FlowTyping.Flow.Graph

/-
  Types flowing through the graph

  A store is a catalog with a flow graph over its types. Binding a node to
  another one makes it depend on it; `Store.propagate` notifies the watchers of
  dirty nodes, which may make further nodes dirty, until none is left or the
  budget is used up. It reports the watchers outside the graph that it met.
-/
namespace FlowTyping

structure Store where
  catalog : Catalog
  graph : Graph
  deriving Repr

/-- Steps on a store that can fail. What was done before the failure stays. -/
abbrev StoreM := EStateM TypingError Store

namespace Store

/-- The type that a node of some kind takes from its inputs: nothing from none, a single one as it
is, and otherwise their merge. -/
def combine (c : Catalog) (kind : CellKind) (inputs : List Ty) : Option Ty × Catalog :=
  let (merged, c) := match inputs with
    | [] => (none, c)
    | [t] => (some t, c)
    | ts => c.merge ts
  match merged, kind with
  | none, _ => (none, c)
  | some t, .plain => (some t, c)
  | some t, .pointer => (c.pointerFor t).map some id

/-- Takes the type of a node from its dependencies again. Without a typed one it stays as it is. -/
def recompute (s : Store) (n : Node) : Store :=
  match combine s.catalog (s.graph.cell n).kind (s.graph.inputs n) with
  | (some t, c) => ⟨c, s.graph.retype n t⟩
  | (none, c) => ⟨c, s.graph⟩

/-- Makes `n` depend on `dependency`. -/
def bind (s : Store) (n dependency : Node) : Store :=
  let linked := (s.graph.modify n fun cell =>
    { cell with dependencies := Graph.addOnce dependency cell.dependencies }).watch dependency
      (.node n)
  if (linked.typeAt dependency).isSome then recompute ⟨s.catalog, linked⟩ n
  else ⟨s.catalog, linked⟩

/-- Makes `n` no longer depend on `dependency`. -/
def unbind (s : Store) (n dependency : Node) : Store :=
  let unlinked := (s.graph.modify n fun cell =>
    { cell with dependencies := cell.dependencies.filter (· != dependency) }).unwatch dependency
      (.node n)
  recompute ⟨s.catalog, unlinked⟩ n

/-- Notifies one watcher: a node is recomputed, any other is added to the wakes. -/
def notify (state : Store × List Wake) (w : Watcher) : Store × List Wake :=
  match w with
  | .node n => (state.1.recompute n, state.2)
  | .site site => (state.1, Graph.addOnce (.site site) state.2)
  | .provisional t => (state.1, Graph.addOnce (.provisional t) state.2)

/-- Takes `n` off the queue, of which `rest` is left, and notifies its watchers. -/
def step (s : Store) (n : Node) (rest : List Node) (budget : Nat) (wakes : List Wake) :
    Store × List Wake :=
  let graph := { s.graph with queue := rest, budget := budget }
  (graph.cell n).watchers.foldl notify
    (⟨s.catalog, graph.modify n fun cell => { cell with dirty := false }⟩, wakes)

/-- Notifies watchers until the queue is empty, with a budget of so many nodes. The node at which
the budget runs out leaves the queue without its watchers being notified. -/
def drain : Nat → Store → List Wake → EStateM.Result TypingError Store (List Wake)
  | 0, s, wakes =>
    match s.graph.queue with
    | [] => .ok wakes s
    | _ :: rest =>
      .error (.fault (.stepLimit s.graph.limit)) ⟨s.catalog, { s.graph with queue := rest }⟩
  | budget + 1, s, wakes =>
    match s.graph.queue with
    | [] => .ok wakes s
    | n :: rest =>
      let (s, wakes) := s.step n rest budget wakes
      drain budget s wakes

/-- Notifies the watchers of dirty nodes until none is dirty, and gives the wakes in the order in
which they were first met. -/
def propagate : StoreM (List Wake) := fun s => drain s.graph.budget s []

end Store

end FlowTyping
