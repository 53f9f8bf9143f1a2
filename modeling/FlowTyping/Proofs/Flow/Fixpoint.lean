import FlowTyping.Proofs.Flow.Session

/-
  The fixpoint of propagation

  A graph over the catalog of any session whose nodes hold no provisional types
  is settled by every round of propagation that ends: each node with a typed
  dependency has exactly the type that its dependencies have together
  (`propagate_determines`). Dependencies may form cycles and come and go between
  rounds.
-/
namespace FlowTyping.Store

variable {s s' : Store} {c : Catalog} {limit : Nat} {wakes : List Wake} {n : Node}

/-- Adds a node to the graph of a store. -/
def add (s : Store) (kind : CellKind) (type : Option Ty) (place : Place) : Store :=
  ⟨s.catalog, (s.graph.add kind type place).2⟩

/-- Graphs built over the catalog `c` from definite types. A type is set only where there are no
dependencies. -/
inductive Built (c : Catalog) (limit : Nat) : Store → Prop
  | start : Built c limit ⟨c, .empty limit⟩
  | addNode {s : Store} (h : Built c limit s) (place : Place) :
      Built c limit (s.add .plain none place)
  | addPointer {s : Store} (h : Built c limit s) (place : Place) :
      Built c limit (s.add .pointer none place)
  | addTyped {s : Store} (h : Built c limit s) (t : Ty) (place : Place)
      (ht : s.catalog.Definite t) : Built c limit (s.add .plain (some t) place)
  | bind {s : Store} (h : Built c limit s) (n d : Node) (hn : n.index < s.graph.size)
      (hd : d.index < s.graph.size) : Built c limit (s.bind n d)
  | unbind {s : Store} (h : Built c limit s) (n d : Node) (hn : n.index < s.graph.size)
      (hd : d.index < s.graph.size) : Built c limit (s.unbind n d)
  | observe {s : Store} (h : Built c limit s) (n : Node) (w : Watcher)
      (hn : n.index < s.graph.size) : Built c limit ⟨s.catalog, s.graph.watch n w⟩
  | setType {s : Store} (h : Built c limit s) (n : Node) (t : Ty) (hn : n.index < s.graph.size)
      (hdeps : s.graph.dependencies n = []) (ht : s.catalog.Definite t) :
      Built c limit ⟨s.catalog, s.graph.retype n t⟩
  | propagate {s s' : Store} {wakes : List Wake} (h : Built c limit s)
      (hs' : propagate s = .ok wakes s') : Built c limit s'

/-- The type that types have together: the one type there is, or their merge. -/
def Together (c : Catalog) (ts : List Ty) (t : Ty) : Prop :=
  ts = [t] ∨ (2 ≤ ts.length ∧ c.merge ts = (some t, c))

/-- The type of `n` is exactly what its dependencies determine: the type they have together or, for
a pointer node, the pointer type for that. Both are entered already. -/
def Determined (s : Store) (n : Node) : Prop :=
  ∃ t u, s.graph.typeAt n = some t ∧ Together s.catalog (s.graph.inputs n) u ∧
    Forms s.catalog (s.graph.cell n).kind u t

theorem together_of_joined {ts : List Ty} {t : Ty} (h : joined c ts = (some t, c)) :
    Together c ts t := by
  rcases ts with _ | ⟨u, _ | ⟨v, ts⟩⟩
  · cases h
  · cases h
    exact .inl rfl
  · exact .inr ⟨by simp, h⟩

/-- Every type of a node is definite. -/
def AllDefinite (s : Store) : Prop := ∀ n t, s.graph.typeAt n = some t → s.catalog.Definite t

theorem AllDefinite.recompute (h : s.AllDefinite) (hs : s.Formed) (n : Node) :
    (s.recompute n).AllDefinite := by
  have hg := (combine_extends s.catalog (s.graph.cell n).kind (s.graph.inputs n)).toGrows
  have hin : ∀ t ∈ s.graph.inputs n, s.catalog.Definite t := by
    intro t ht
    obtain ⟨d, -, hd⟩ := mem_inputs.mp ht
    exact h d t hd
  intro m t hm
  rcases recompute_cases s n with ⟨u, hu, heq⟩ | ⟨-, heq⟩
  · rw [heq] at hm ⊢
    have hm' : (s.graph.retype n u).typeAt m = some t := hm
    rw [Graph.typeAt_retype] at hm'
    split at hm'
    · cases hm'
      exact combine_definite hs.canonical hin hu
    · exact hg.definite (h m t hm')
  · rw [heq] at hm ⊢
    exact hg.definite (h m t hm)

/-- The types of nodes are as definite as they were if the nodes keep them. -/
theorem AllDefinite.of_typeAt (h : s.AllDefinite) {g : Graph}
    (htypes : ∀ n, g.typeAt n = s.graph.typeAt n) : AllDefinite ⟨s.catalog, g⟩ :=
  fun n t ht => h n t ((htypes n).symm.trans ht)

theorem AllDefinite.add (h : s.AllDefinite) (kind : CellKind) {type : Option Ty} (place : Place)
    (htype : ∀ t, type = some t → s.catalog.Definite t) :
    AllDefinite ⟨s.catalog, (s.graph.add kind type place).2⟩ := by
  intro n t ht
  have ht' : ((s.graph.add kind type place).2.cell n).type = some t := ht
  rw [Graph.cell_add] at ht'
  split at ht'
  · exact htype t ht'
  · exact h n t ht'

theorem AllDefinite.retype (h : s.AllDefinite) (n : Node) {t : Ty} (ht : s.catalog.Definite t) :
    AllDefinite ⟨s.catalog, s.graph.retype n t⟩ := by
  intro m u hu
  have hu' : (s.graph.retype n t).typeAt m = some u := hu
  rw [Graph.typeAt_retype] at hu'
  split at hu'
  · cases hu'
    exact ht
  · exact h m u hu'

theorem AllDefinite.bind (h : s.AllDefinite) (hs : s.Formed) (n : Node) {d : Node}
    (hd : d.index < s.graph.size) : (s.bind n d).AllDefinite := by
  have hlink : AllDefinite ⟨s.catalog, s.graph.link n d⟩ :=
    h.of_typeAt (Graph.typeAt_link s.graph n d)
  rw [bind_eq]
  split
  · exact hlink.recompute (hs.link n hd) n
  · exact hlink

theorem AllDefinite.unbind (h : s.AllDefinite) (hs : s.Formed) (n d : Node) :
    (s.unbind n d).AllDefinite :=
  (h.of_typeAt (Graph.typeAt_unlink s.graph n d)).recompute (hs.unlink n d) n

theorem AllDefinite.propagate (h : s.AllDefinite) (hs : s.Formed)
    (hok : propagate s = .ok wakes s') : s'.AllDefinite := by
  have hboth : s'.Formed ∧ s'.AllDefinite :=
    drain_keeps (fun s => s.Formed ∧ s.AllDefinite)
      (fun s n h => ⟨h.1.recompute n, h.2.recompute h.1 n⟩)
      (fun s n rest budget hq h => ⟨h.1.taken hq budget,
        h.2.of_typeAt (field_taken (·.type) (fun _ => rfl) s n rest budget)⟩) ⟨hs, h⟩ hok
  exact hboth.2

/-- What holds of every graph that is built. -/
theorem Built.invariant (hc : c.Canonical) (h : Built c limit s) :
    s.Formed ∧ s.Balanced [] ∧ s.AllDefinite := by
  have add : ∀ {s : Store}, s.Formed ∧ s.Balanced [] ∧ s.AllDefinite → ∀ kind type place,
      (∀ t, type = some t → s.catalog.Definite t) →
      (s.add kind type place).Formed ∧ (s.add kind type place).Balanced [] ∧
        (s.add kind type place).AllDefinite := fun ⟨hs, hb, hd⟩ kind type place htype =>
    ⟨hs.add kind place fun t ht => (htype t ht).1, hb.add kind type place hs,
      hd.add kind place htype⟩
  induction h with
  | start =>
    refine ⟨formed_start hc limit, fun n => .inl (solved_of_no_dependencies ?_), fun n t ht => ?_⟩
    · rw [Graph.dependencies, Graph.cell_of_size_le (Nat.zero_le _)]
      rfl
    · have := Graph.lt_size_of_typed ht
      simp [Graph.empty, Graph.size] at this
  | addNode _ place ih => exact add ih .plain none place fun t ht => by cases ht
  | addPointer _ place ih => exact add ih .pointer none place fun t ht => by cases ht
  | addTyped _ t place ht ih => exact add ih .plain (some t) place fun u hu => by cases hu; exact ht
  | bind _ n d _ hdn ih =>
    obtain ⟨hs, hb, hd⟩ := ih
    exact ⟨hs.bind n hdn, hb.bind hs n hdn, hd.bind hs n hdn⟩
  | unbind _ n d _ _ ih =>
    obtain ⟨hs, hb, hd⟩ := ih
    exact ⟨hs.unbind n d, hb.unbind hs n d, hd.unbind hs n d⟩
  | @observe s _ n w _ ih =>
    obtain ⟨hs, hb, hd⟩ := ih
    have hrw := Graph.Rewatches.watch s.graph n w
    exact ⟨hs.rewatch hrw, hb.rewatch hrw, hd.of_typeAt hrw.typeAt⟩
  | setType _ n t _ hdeps ht ih =>
    obtain ⟨hs, hb, hd⟩ := ih
    exact ⟨hs.retype n ht.1, hb.retype hdeps t, hd.retype n ht⟩
  | propagate _ hok ih =>
    obtain ⟨hs, hb, hd⟩ := ih
    have hp := propagate_ok hs hb hok
    exact ⟨hp.formed, hp.balanced, hd.propagate hs hok⟩

/-- A node whose equation is solved has the type that its dependencies determine. -/
theorem Solved.determined (h : s.Solved n) (hd : s.AllDefinite)
    (htyped : ∃ d ∈ s.graph.dependencies n, (s.graph.typeAt d).isSome) : s.Determined n := by
  obtain ⟨d, hdn, ht⟩ := htyped
  obtain ⟨t, ht⟩ := Option.isSome_iff_exists.mp ht
  have hne : s.graph.inputs n ≠ [] := List.ne_nil_of_mem (mem_inputs.mpr ⟨d, hdn, ht⟩)
  have hlive : ∀ u ∈ s.graph.inputs n, s.catalog.isSuperseded u = false := by
    intro u hu
    obtain ⟨e, -, he⟩ := mem_inputs.mp hu
    exact Catalog.isSuperseded_of_definite (hd e u he)
  obtain ⟨t, htype, u, hjoined, hforms⟩ := h.exact hne hlive
  exact ⟨t, u, htype, together_of_joined hjoined, hforms⟩

/-- After a round of propagation nothing is queued or dirty, and the type of every node with a typed
dependency is determined by its dependencies, whatever was done before. -/
theorem propagate_determines {c : Catalog} (hc : c.Started) {limit : Nat} {s s' : Store}
    (hs : Built c limit s) {wakes : List Wake} (h : propagate s = .ok wakes s') :
    s'.graph.isQuiet = true ∧
      ∀ n, (∃ d ∈ s'.graph.dependencies n, (s'.graph.typeAt d).isSome) → s'.Determined n := by
  obtain ⟨hformed, hbalanced, hdefinite⟩ := hs.invariant hc.canonical
  have hp := propagate_ok hformed hbalanced h
  refine ⟨hp.formed.wired.isQuiet hp.queue, fun n htyped => ?_⟩
  rcases hp.balanced n with hsolved | ⟨d, -, hdirty⟩ | hdue
  · exact hsolved.determined (hdefinite.propagate hformed h) htyped
  · rw [hp.quiet d] at hdirty
    cases hdirty
  · cases hdue

/-- Whether a round of propagation ends and leaves `n` with a typed dependency. -/
def endsTyped (s : Store) (n : Node) : Bool :=
  match propagate s with
  | .ok _ s' => (s'.graph.dependencies n).any fun d => (s'.graph.typeAt d).isSome
  | .error _ _ => false

/-- Nodes 0 and 1 have types, node 2 depends on both and on itself, and node 3 points to it. The
round ends and determines the node in the loop and the pointer. -/
theorem propagate_determines_looped : ∃ s s' wakes, Built .seeded 10 s ∧
    propagate s = .ok wakes s' ∧ s'.graph.isQuiet = true ∧ s'.Determined ⟨2⟩ ∧
    s'.Determined ⟨3⟩ := by
  have sources : ∀ {c : Catalog}, c.Definite .int → c.Definite .string → Built c 10 _ :=
    fun hint hstring => (Built.start.addTyped .int .synthesized hint).addTyped .string
      .synthesized hstring
  have h₂ := sources (Catalog.elementary_seeded.sound.builtin (by decide))
    (Catalog.elementary_seeded.sound.builtin (by decide))
  have h₃ := (h₂.addNode .synthesized).addPointer .synthesized
  have h₄ := h₃.bind ⟨2⟩ ⟨0⟩ (by decide) (by decide)
  have h₅ := h₄.bind ⟨2⟩ ⟨1⟩ (by rw [size_bind]; decide) (by rw [size_bind]; decide)
  have h₆ := h₅.bind ⟨2⟩ ⟨2⟩ (by simp only [size_bind]; decide)
    (by simp only [size_bind]; decide)
  obtain ⟨s, hs, hloop, hpointer⟩ :
      ∃ s, Built .seeded 10 s ∧ s.endsTyped ⟨2⟩ = true ∧ s.endsTyped ⟨3⟩ = true :=
    ⟨_, h₆.bind ⟨3⟩ ⟨2⟩ (by simp only [size_bind]; decide) (by simp only [size_bind]; decide),
      by decide +kernel, by decide +kernel⟩
  unfold endsTyped at hloop hpointer
  cases h : propagate s with
  | error e s' => rw [h] at hloop; cases hloop
  | ok wakes s' =>
    rw [h] at hloop hpointer
    obtain ⟨hquiet, hdetermined⟩ := propagate_determines Catalog.started_seeded hs h
    exact ⟨s, s', wakes, hs, h, hquiet, hdetermined _ (List.any_eq_true.mp hloop),
      hdetermined _ (List.any_eq_true.mp hpointer)⟩

end FlowTyping.Store
