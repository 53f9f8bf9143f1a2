import FlowTyping.Proofs.Flow.Contained
import FlowTyping.Proofs.Inference.Step

/-
  Entries of a run

  A run remembers what has been typed in tables (`Run.Has`), and each entry
  stores handles. A run is contained if all handles in its store and in its
  entries are below the lengths of their arenas (`Run.Contained`).

  A run acts on its store and enters things (`Run.Acts`). On valid handles each
  of these steps keeps it contained (`Acts.proceeds`), and so do all of them one
  after the other (`Moves.proceeds`).
-/
namespace FlowTyping

/-! ## What entries store -/

def BlockFlow.handles (b : BlockFlow) : List Handle := .node b.result :: b.parameters.map .node

def CallSite.handles (call : CallSite) : List Handle :=
  .type call.caller :: .node call.result ::
    ((call.receiver.toList ++ call.arguments ++ call.targets).map .node ++
      call.block.toList.flatMap BlockFlow.handles)

def Invocation.handles (key : Invocation) : List Handle :=
  .type key.owner :: .method key.method :: (key.arguments.map .type ++ key.site.toList.map .site)

/-- What a run remembers of something that it has typed. -/
inductive Entry where
  | call (call : CallSite)
  | result (key : Invocation) (n : Node)
  | typed (i : Instance)
  | slotNode (key : Ty × String) (n : Node)
  | construction (key : Site × List Ty) (n : Node)
  | slotRead (read : SlotRead)
  | constantNode (t : Ty) (n : Node)
  | sharedNode (t : Ty) (n : Node)
  | recorded (id : Nat) (n : Node)

def Entry.handles : Entry → List Handle
  | call c => c.handles
  | result key n => .node n :: key.handles
  | typed i => [.node i.result]
  | slotNode key n => [.type key.1, .node n]
  | construction key n => .node n :: .site key.1 :: key.2.map .type
  | slotRead read => [.type read.owner]
  | constantNode t n => [.type t, .node n]
  | sharedNode t n => [.type t, .node n]
  | recorded _ n => [.node n]

/-- The graph in which a call watches some nodes. -/
def Graph.observe (g : Graph) (ns : List Node) (site : Site) : Graph :=
  ns.foldl (fun g n => g.watch n (.site site)) g

theorem Graph.size_observe (g : Graph) (ns : List Node) (site : Site) :
    (g.observe ns site).size = g.size := by
  refine List.foldlRecOn ns _ (motive := fun g' : Graph => g'.size = g.size) rfl ?_
  exact fun g' hg n _ => (Graph.size_modify _ _ _).trans hg

theorem Graph.Within.observe {g : Graph} {a : Arenas} (h : g.Within a) (ns : List Node) {site : Site}
    (hsite : site.index < a.sites) : (g.observe ns site).Within a := by
  refine List.foldlRecOn ns _ (motive := fun g' : Graph => g'.Within a) h ?_
  exact fun g' hg n _ => hg.watch n hsite

namespace Run

variable {r r' r'' : Run} {e e' : Entry} {n d : Node} {t : Ty}

/-- A run remembers an entry. -/
def Has (r : Run) : Entry → Prop
  | .call call => call ∈ r.sites
  | .result key n => (key, n) ∈ r.results.entries
  | .typed i => i ∈ r.instances
  | .slotNode key n => (key, n) ∈ r.slotNodes.entries
  | .construction key n => (key, n) ∈ r.constructions.entries
  | .slotRead read => read ∈ r.slotReads
  | .constantNode t n => (t, n) ∈ r.constantNodes.entries
  | .sharedNode t n => (t, n) ∈ r.sharedNodes.entries
  | .recorded id n => (id, n) ∈ r.recorded.entries

/-- The run with one more entry. A call from then on watches its receiver and its arguments. -/
def enter (r : Run) : Entry → Run
  | .call call =>
    { r.withGraph (r.graph.observe (call.receiver.toList ++ call.arguments) ⟨r.sites.size⟩) with
      sites := r.sites.push call }
  | .result key n => { r with results := r.results.put key n }
  | .typed i => { r with instances := r.instances.push i }
  | .slotNode key n => { r with slotNodes := r.slotNodes.put key n }
  | .construction key n => { r with constructions := r.constructions.put key n }
  | .slotRead read => { r with slotReads := r.slotReads.push read }
  | .constantNode t n => { r with constantNodes := r.constantNodes.put t n }
  | .sharedNode t n => { r with sharedNodes := r.sharedNodes.put t n }
  | .recorded id n => { r with recorded := r.recorded.put id n }

/-- The run in which a call is bound to other nodes. -/
def retargeted (r : Run) (site : Site) (targets : List Node) : Run :=
  { r with sites := r.sites.modify site.index fun call => { call with targets := targets } }

/-- The arenas of a run. -/
def arenas (r : Run) : Arenas := r.store.arenas r.sites.size

@[simp] theorem types_arenas : r.arenas.types = r.catalog.size := rfl

@[simp] theorem nodes_arenas : r.arenas.nodes = r.graph.size := rfl

@[simp] theorem sites_arenas : r.arenas.sites = r.sites.size := rfl

/-- All handles that a run stores are below the lengths of their arenas. -/
structure Contained (r : Run) : Prop where
  store : r.store.Contained r.sites.size
  entries : ∀ e, r.Has e → r.arenas.Stores e.handles

/-- One step of a run: an operation on its store, an entry, or a call that is bound to other nodes.
All that it is given is in its arenas. -/
inductive Acts (r : Run) : Run → Prop
  | store (act : Store.Act) (h : r.arenas.Stores act.handles) :
      Acts r (r.withStore (act.after r.store))
  | enter (e : Entry) (h : r.arenas.Stores e.handles) : Acts r (r.enter e)
  | retarget (site : Site) (targets : List Node)
      (h : r.arenas.Stores (.site site :: targets.map .node)) : Acts r (r.retargeted site targets)

/-- Steps in any number and order. -/
def Moves : Run → Run → Prop := Relation.ReflTransGen Acts

/-- The second run is contained and comes from the first one by steps, which leave no arena shorter. -/
structure Proceeds (r r' : Run) : Prop where
  contained : r'.Contained
  moves : r.Moves r'
  grown : r.arenas ≤ r'.arenas

namespace Proceeds

theorem refl (h : r.Contained) : r.Proceeds r := ⟨h, .refl, le_refl _⟩

theorem trans (h : r.Proceeds r') (h' : r'.Proceeds r'') : r.Proceeds r'' :=
  ⟨h'.contained, h.moves.trans h'.moves, h.grown.trans h'.grown⟩

end Proceeds

/-! ## Entering -/

/-- Nothing else comes to be remembered with an entry. -/
theorem has_of_enter (h : (r.enter e).Has e') : e' = e ∨ r.Has e' := by
  cases e with
  | call call =>
    cases e' with
    | call call' => exact (Array.mem_push.mp h).symm.imp (congrArg Entry.call) id
    | _ => exact .inr h
  | result key n =>
    cases e' with
    | result key' n' => exact (Table.mem_put h).imp (fun heq => by cases heq; rfl) id
    | _ => exact .inr h
  | typed i =>
    cases e' with
    | typed i' => exact (Array.mem_push.mp h).symm.imp (congrArg Entry.typed) id
    | _ => exact .inr h
  | slotNode key n =>
    cases e' with
    | slotNode key' n' => exact (Table.mem_put h).imp (fun heq => by cases heq; rfl) id
    | _ => exact .inr h
  | construction key n =>
    cases e' with
    | construction key' n' => exact (Table.mem_put h).imp (fun heq => by cases heq; rfl) id
    | _ => exact .inr h
  | slotRead read =>
    cases e' with
    | slotRead read' => exact (Array.mem_push.mp h).symm.imp (congrArg Entry.slotRead) id
    | _ => exact .inr h
  | constantNode t n =>
    cases e' with
    | constantNode t' n' => exact (Table.mem_put h).imp (fun heq => by cases heq; rfl) id
    | _ => exact .inr h
  | sharedNode t n =>
    cases e' with
    | sharedNode t' n' => exact (Table.mem_put h).imp (fun heq => by cases heq; rfl) id
    | _ => exact .inr h
  | recorded id n =>
    cases e' with
    | recorded id' n' => exact (Table.mem_put h).imp (fun heq => by cases heq; rfl) fun h => h
    | _ => exact .inr h

/-- Only the arena of the calls may be longer after an entry. -/
theorem arenas_enter (r : Run) (e : Entry) :
    r.sites.size ≤ (r.enter e).sites.size ∧
      (r.enter e).arenas = r.store.arenas (r.enter e).sites.size := by
  cases e with
  | call call =>
    have hsize := r.graph.size_observe (call.receiver.toList ++ call.arguments) ⟨r.sites.size⟩
    refine ⟨by simp [enter], ?_⟩
    simp only [arenas, Store.arenas, enter, withGraph, hsize]
    rfl
  | _ => exact ⟨Nat.le_refl _, rfl⟩

theorem grown_enter (r : Run) (e : Entry) : r.arenas ≤ (r.enter e).arenas := by
  obtain ⟨hsites, harenas⟩ := arenas_enter r e
  rw [harenas]
  exact Catalog.arenas_mono (Nat.le_refl _) hsites

namespace Contained

theorem enter (h : r.Contained) (he : r.arenas.Stores e.handles) : (r.enter e).Contained := by
  refine ⟨?_, fun e' he' => ?_⟩
  · cases e with
    | call call =>
      have hcalls : r.store.Contained (r.sites.push call).size :=
        h.store.beside (by simp)
      exact (hcalls.withGraph (Graph.size_observe _ _ _)
        (hcalls.graph.observe (call.receiver.toList ++ call.arguments) (by simp))).contained
    | _ => exact h.store
  · rcases has_of_enter he' with rfl | he'
    · exact he.mono (grown_enter r e')
    · exact (h.entries e' he').mono (grown_enter r e)

theorem withStore (h : r.Contained) {s : Store} (hs : r.store.Carries r.sites.size s) :
    (r.withStore s).Contained := by
  refine ⟨hs.contained, fun e he => ?_⟩
  have he' : r.Has e := by cases e <;> exact he
  exact (h.entries e he').mono hs.grown

theorem site (h : r.Contained) (site : Site) (hsite : site.index < r.sites.size) :
    r.arenas.Stores (r.site site).handles := by
  unfold Run.site
  rw [Array.getElem?_eq_getElem hsite]
  exact h.entries (.call r.sites[site.index]) (Array.getElem_mem hsite)

theorem retargeted (h : r.Contained) (site : Site) {targets : List Node}
    (htargets : ∀ n ∈ targets, n.index < r.graph.size) : (r.retargeted site targets).Contained := by
  have hsize : (r.retargeted site targets).sites.size = r.sites.size := Array.size_modify
  have harenas : (r.retargeted site targets).arenas = r.arenas := by
    rw [arenas, hsize]
    rfl
  refine ⟨?_, fun e he => ?_⟩
  · rw [hsize]
    exact h.store
  · rw [harenas]
    cases e with
    | call call =>
      have hmem : call ∈ r.sites.modify site.index fun call => { call with targets := targets } := he
      refine forall_mem_modify (p := fun call : CallSite => r.arenas.Stores call.handles) site.index
        (fun call hcall => h.entries (.call call) hcall) (fun call hcall => ?_) call hmem
      simp only [CallSite.handles, List.map_append, Arenas.stores_cons, Arenas.stores_append,
        Arenas.stores_map, Arenas.holds_node, nodes_arenas] at hcall ⊢
      obtain ⟨hcaller, hresult, ⟨hgiven, -⟩, hblock⟩ := hcall
      exact ⟨hcaller, hresult, ⟨hgiven, htargets⟩, hblock⟩
    | _ => exact h.entries _ he

end Contained

/-! ## Steps -/

/-- Each step keeps a contained run contained. -/
theorem Acts.proceeds (h : r.Contained) (hact : r.Acts r') : r.Proceeds r' := by
  have hmoves : r.Moves r' := .single hact
  cases hact with
  | store act hhandles =>
    have hs := Store.Act.carries h.store hhandles
    exact ⟨h.withStore hs, hmoves, hs.grown⟩
  | enter e hhandles => exact ⟨h.enter hhandles, hmoves, grown_enter r e⟩
  | retarget site targets hhandles =>
    simp only [Arenas.stores_cons, Arenas.stores_map] at hhandles
    refine ⟨h.retargeted site hhandles.2, hmoves, ?_⟩
    exact Catalog.arenas_mono (Nat.le_refl _) (Nat.le_of_eq Array.size_modify.symm)

/-- Any number of steps keep a contained run contained. -/
theorem Moves.proceeds (h : r.Contained) (hmoves : r.Moves r') : r.Proceeds r' := by
  induction hmoves with
  | refl => exact .refl h
  | tail _ hact ih => exact ih.trans (hact.proceeds ih.contained)

/-- A run that has typed nothing remembers nothing. -/
theorem contained_start {c : Catalog} (hc : c.Contained 0 0) (options : Options) :
    (start c options).Contained := by
  refine ⟨⟨hc, .empty _⟩, fun e he => ?_⟩
  cases e <;> simp [Has, start, Table.empty] at he

end Run

end FlowTyping
