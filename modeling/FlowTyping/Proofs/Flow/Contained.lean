import FlowTyping.Proofs.Catalog.Contained
import FlowTyping.Proofs.Flow.Session

/-
  Contained stores

  A graph stores handles in its nodes and in its queue. A store is contained if
  all handles in its catalog and in its graph are below the lengths of their
  arenas; calls stand outside of the store (`Store.Contained`).

  Every operation on a contained store that is given valid handles keeps it
  contained (`Store.Act.carries`), and what propagation reports to have been
  woken is valid again (`Contained.stores_wakes`).
-/
namespace FlowTyping

open Steps

def Watcher.handle : Watcher → Handle
  | .node n => .node n
  | .site s => .site s
  | .provisional t => .type t

def Wake.handle : Wake → Handle
  | .site s => .site s
  | .provisional t => .type t

/-- The handles that a node of the graph stores. -/
def Cell.handles (cell : Cell) : List Handle :=
  cell.type.toList.map .type ++ cell.dependencies.map .node ++ cell.watchers.map Watcher.handle

theorem stores_cell {a : Arenas} {cell : Cell} : a.Stores cell.handles ↔
    (∀ t, cell.type = some t → t.index < a.types) ∧ (∀ d ∈ cell.dependencies, d.index < a.nodes) ∧
      ∀ w ∈ cell.watchers, a.Holds w.handle := by
  simp [Cell.handles]

theorem stores_provisional {a : Arenas} {p : Provisional} :
    a.Stores (Shape.provisional p).handles ↔ p.template.index < a.types ∧
      p.standing.type.index < a.types ∧ p.holder.index < a.nodes ∧
        ∀ b ∈ p.observed, b.2.index < a.nodes := by
  simp [Shape.handles, Shape.cls?, Shape.types, Shape.flowHandles, Provisional.handles]

theorem Store.type_standing (g : Graph) (observed : List (String × Node)) (target : Ty) :
    (standing g observed target).type = target := by
  unfold standing
  split <;> rfl

/-! ## Graphs -/

/-- All handles that a graph stores are below the lengths of some arenas. -/
structure Graph.Within (g : Graph) (a : Arenas) : Prop where
  cells : ∀ cell ∈ g.cells, a.Stores cell.handles
  queue : ∀ n ∈ g.queue, n.index < a.nodes

namespace Graph.Within

variable {g : Graph} {a b : Arenas} {n d : Node} {w : Watcher} {t : Ty}

theorem mono (hle : a ≤ b) (h : g.Within a) : g.Within b where
  cells cell hcell := (h.cells cell hcell).mono hle
  queue n hn := Nat.lt_of_lt_of_le (h.queue n hn) hle.nodes

theorem empty (limit : Nat) : (Graph.empty limit).Within a := by
  constructor <;> simp [Graph.empty]

theorem cell (h : g.Within a) (n : Node) : a.Stores (g.cell n).handles := by
  unfold Graph.cell
  cases hn : g.cells[n.index]? with
  | none => simp [stores_cell, default]
  | some cell => exact h.cells cell (Array.mem_of_getElem? hn)

theorem lt_of_typeAt (h : g.Within a) (ht : g.typeAt n = some t) : t.index < a.types :=
  (stores_cell.mp (h.cell n)).1 t ht

theorem holds_of_watcher (h : g.Within a) (hw : w ∈ (g.cell n).watchers) : a.Holds w.handle :=
  (stores_cell.mp (h.cell n)).2.2 w hw

theorem lt_of_inputs (h : g.Within a) (ht : t ∈ g.inputs n) : t.index < a.types := by
  obtain ⟨d, -, hd⟩ := List.mem_filterMap.mp ht
  exact h.lt_of_typeAt hd

theorem modify (h : g.Within a) (n : Node) {f : Cell → Cell}
    (hf : ∀ cell : Cell, a.Stores cell.handles → a.Stores (f cell).handles) : (g.modify n f).Within a :=
  ⟨forall_mem_modify n.index h.cells hf, h.queue⟩

theorem watch (h : g.Within a) (n : Node) (hw : a.Holds w.handle) : (g.watch n w).Within a := by
  apply h.modify
  intro cell hcell
  obtain ⟨htype, hdependencies, hwatchers⟩ := stores_cell.mp hcell
  refine stores_cell.mpr ⟨htype, hdependencies, fun w' hw' => ?_⟩
  rcases mem_addOnce.mp hw' with rfl | hw'
  · exact hw
  · exact hwatchers w' hw'

theorem unwatch (h : g.Within a) (n : Node) (w : Watcher) : (g.unwatch n w).Within a := by
  apply h.modify
  intro cell hcell
  obtain ⟨htype, hdependencies, hwatchers⟩ := stores_cell.mp hcell
  exact stores_cell.mpr ⟨htype, hdependencies, fun w' hw' => hwatchers w' (List.mem_filter.mp hw').1⟩

theorem depend (h : g.Within a) (n : Node) (hd : d.index < a.nodes) :
    (g.modify n fun cell => { cell with dependencies := addOnce d cell.dependencies }).Within a := by
  apply h.modify
  intro cell hcell
  obtain ⟨htype, hdependencies, hwatchers⟩ := stores_cell.mp hcell
  refine stores_cell.mpr ⟨htype, fun e he => ?_, hwatchers⟩
  rcases mem_addOnce.mp he with rfl | he
  · exact hd
  · exact hdependencies e he

theorem detach (h : g.Within a) (n d : Node) :
    (g.modify n fun cell => { cell with dependencies := cell.dependencies.filter (· != d) }).Within a := by
  apply h.modify
  intro cell hcell
  obtain ⟨htype, hdependencies, hwatchers⟩ := stores_cell.mp hcell
  exact stores_cell.mpr ⟨htype, fun e he => hdependencies e (List.mem_filter.mp he).1, hwatchers⟩

theorem overwriteType (h : g.Within a) (n : Node) (ht : t.index < a.types) :
    (g.overwriteType n t).Within a := by
  apply h.modify
  intro cell hcell
  refine stores_cell.mpr ⟨fun u hu => ?_, (stores_cell.mp hcell).2⟩
  obtain rfl : t = u := Option.some.inj hu
  exact ht

theorem retype (h : g.Within a) (hn : n.index < a.nodes) (ht : t.index < a.types) :
    (g.retype n t).Within a := by
  rcases retype_cases g n t with ⟨-, heq⟩ | ⟨-, heq⟩ | ⟨-, heq⟩
  · rwa [heq]
  · rw [heq]
    exact h.overwriteType n ht
  · rw [heq]
    refine ⟨(h.modify n (f := fun cell => { cell with type := some t, dirty := true })
      fun cell hcell => ?_).cells, fun m hm => ?_⟩
    · exact stores_cell.mpr ⟨fun u hu => Option.some.inj hu ▸ ht, (stores_cell.mp hcell).2⟩
    · rcases List.mem_append.mp hm with hm | hm
      · exact h.queue m hm
      · rwa [List.mem_singleton.mp hm]

theorem add (h : g.Within a) (kind : CellKind) {type : Option Ty}
    (htype : ∀ t, type = some t → t.index < a.types) (place : Place) :
    (g.add kind type place).2.Within a := by
  refine ⟨fun cell hcell => ?_, h.queue⟩
  rcases Array.mem_push.mp hcell with hcell | rfl
  · exact h.cells cell hcell
  · exact stores_cell.mpr ⟨htype, by simp, by simp⟩

/-- A node is taken off the queue. -/
theorem dequeue (h : g.Within a) {rest : List Node} (hrest : ∀ m ∈ rest, m ∈ g.queue) (budget : Nat) :
    ({ g with queue := rest, budget := budget } : Graph).Within a :=
  ⟨h.cells, fun m hm => h.queue m (hrest m hm)⟩

theorem watchAll (h : g.Within a) (observed : List (String × Node)) (ht : t.index < a.types) :
    (Store.watchAll g observed t).Within a := by
  refine List.foldlRecOn observed _ (motive := fun g : Graph => g.Within a) h ?_
  exact fun g hg binding _ => hg.watch binding.2 ht

theorem handOver (h : g.Within a) (observed : List (String × Node)) (former : Ty)
    (ht : t.index < a.types) : (Store.handOver g observed former t).Within a := by
  refine List.foldlRecOn observed _ (motive := fun g : Graph => g.Within a) h ?_
  exact fun g hg binding _ => (hg.unwatch binding.2 _).watch binding.2 ht

end Graph.Within

/-! ## Stores -/

namespace Store

/-- The arenas of a store, with that of calls beside it. -/
def arenas (s : Store) (calls : Nat) : Arenas := s.catalog.arenas s.graph.size calls

/-- All handles that a store stores are below the lengths of their arenas. -/
structure Contained (calls : Nat) (s : Store) : Prop where
  catalog : s.catalog.Contained s.graph.size calls
  graph : s.graph.Within (s.arenas calls)

/-- The arenas of the second store are no shorter, and it is contained. -/
structure Carries (calls : Nat) (s s' : Store) : Prop where
  contained : s'.Contained calls
  grown : s.arenas calls ≤ s'.arenas calls

variable {calls : Nat} {s s' s'' : Store} {c : Catalog} {g : Graph} {n d : Node} {t : Ty}
  {wakes : List Wake}

@[simp] theorem types_arenas : (s.arenas calls).types = s.catalog.size := rfl

@[simp] theorem nodes_arenas : (s.arenas calls).nodes = s.graph.size := rfl

@[simp] theorem sites_arenas : (s.arenas calls).sites = calls := rfl

namespace Carries

theorem refl (h : s.Contained calls) : s.Carries calls s := ⟨h, le_refl _⟩

theorem trans (h : s.Carries calls s') (h' : s'.Carries calls s'') : s.Carries calls s'' :=
  ⟨h'.contained, h.grown.trans h'.grown⟩

end Carries

namespace Contained

/-- Calls are added beside the store. -/
theorem beside {calls' : Nat} (h : s.Contained calls) (hcalls : calls ≤ calls') :
    s.Contained calls' :=
  ⟨h.catalog.beside (Nat.le_refl _) hcalls,
    h.graph.mono (Catalog.arenas_mono (Nat.le_refl _) hcalls)⟩

theorem withCatalog (h : s.Contained calls) (hc : s.catalog.Carries s.graph.size calls c) :
    s.Carries calls ⟨c, s.graph⟩ :=
  ⟨⟨hc.contained, h.graph.mono hc.grown⟩, hc.grown⟩

theorem withGraph (h : s.Contained calls) (hsize : g.size = s.graph.size)
    (hg : g.Within (s.arenas calls)) : s.Carries calls ⟨s.catalog, g⟩ := by
  have harenas : arenas ⟨s.catalog, g⟩ calls = s.arenas calls := by
    simp only [arenas, hsize]
  refine ⟨⟨?_, ?_⟩, ?_⟩
  · show s.catalog.Contained g.size calls
    rw [hsize]
    exact h.catalog
  · rw [harenas]
    exact hg
  · rw [harenas]

theorem add (h : s.Contained calls) (kind : CellKind) {type : Option Ty}
    (htype : ∀ t, type = some t → t.index < s.catalog.size) (place : Place) :
    s.Carries calls ⟨s.catalog, (s.graph.add kind type place).2⟩ := by
  have hsize := Graph.size_lt_size_add s.graph kind type place
  have hgrown : s.arenas calls ≤ arenas ⟨s.catalog, (s.graph.add kind type place).2⟩ calls :=
    Catalog.arenas_mono (Nat.le_of_lt hsize) (Nat.le_refl _)
  exact ⟨⟨h.catalog.beside (Nat.le_of_lt hsize) (Nat.le_refl _),
    (h.graph.add kind htype place).mono hgrown⟩, hgrown⟩

theorem retype (h : s.Contained calls) (hn : n.index < s.graph.size) (ht : t.index < s.catalog.size) :
    s.Carries calls ⟨s.catalog, s.graph.retype n t⟩ :=
  h.withGraph (Graph.size_retype _ _ _) (h.graph.retype hn ht)

end Contained

/-! ## Taking types from other nodes -/

theorem combine_carries {nodes sites : Nat} (h : c.Contained nodes sites) (kind : CellKind)
    {ts : List Ty} (hts : ∀ t ∈ ts, t.index < c.size) :
    c.Carries nodes sites (combine c kind ts).2 ∧
      ∀ t, (combine c kind ts).1 = some t → t.index < (combine c kind ts).2.size := by
  have hjoined : c.Carries nodes sites (joined c ts).2 ∧
      ∀ t, (joined c ts).1 = some t → t.index < (joined c ts).2.size := by
    unfold joined
    split
    · exact ⟨.refl h, by simp⟩
    · next t =>
      refine ⟨.refl h, fun u hu => ?_⟩
      obtain rfl : t = u := Option.some.inj hu
      exact hts t (List.mem_singleton_self t)
    · exact h.merge hts
  rw [combine_eq_joined]
  split
  · exact ⟨hjoined.1, by simp⟩
  · next t ht =>
    refine ⟨hjoined.1, fun u hu => ?_⟩
    obtain rfl : t = u := Option.some.inj hu
    exact hjoined.2 t ht
  · next t ht =>
    obtain ⟨hpointer, hnew⟩ := hjoined.1.contained.pointerFor (hjoined.2 t ht)
    refine ⟨hjoined.1.trans hpointer, fun u hu => ?_⟩
    obtain rfl := Option.some.inj hu
    exact hnew

/-- A node that is not in the graph depends on nothing, so it takes no type. -/
theorem lt_of_combine
    (ht : (combine s.catalog (s.graph.cell n).kind (s.graph.inputs n)).1 = some t) :
    n.index < s.graph.size := by
  refine Nat.lt_of_not_le fun hle => ?_
  have hnone : s.graph.inputs n = [] := by
    simp [Graph.inputs, Graph.dependencies, Graph.cell_of_size_le hle, default]
  rw [hnone] at ht
  cases ht

namespace Contained

theorem recompute (h : s.Contained calls) (n : Node) : s.Carries calls (s.recompute n) := by
  obtain ⟨hcatalog, htype⟩ := combine_carries h.catalog (s.graph.cell n).kind
    fun t ht => h.graph.lt_of_inputs (n := n) ht
  have hcombined := h.withCatalog hcatalog
  rcases recompute_cases s n with ⟨t, ht, heq⟩ | ⟨-, heq⟩
  · rw [heq]
    have hn := lt_of_combine ht
    exact hcombined.trans (hcombined.contained.retype hn (htype t ht))
  · rw [heq]
    exact hcombined

theorem bind (h : s.Contained calls) (hn : n.index < s.graph.size) (hd : d.index < s.graph.size) :
    s.Carries calls (s.bind n d) := by
  have hlinked : s.Carries calls ⟨s.catalog, (s.graph.modify n fun cell =>
      { cell with dependencies := Graph.addOnce d cell.dependencies }).watch d (.node n)⟩ :=
    h.withGraph (by simp only [Graph.watch, Graph.size_modify]) ((h.graph.depend n hd).watch d hn)
  unfold Store.bind
  dsimp only
  split
  · exact hlinked.trans (hlinked.contained.recompute n)
  · exact hlinked

theorem unbind (h : s.Contained calls) (n d : Node) : s.Carries calls (s.unbind n d) := by
  have hunlinked : s.Carries calls ⟨s.catalog, (s.graph.modify n fun cell =>
      { cell with dependencies := cell.dependencies.filter (· != d) }).unwatch d (.node n)⟩ :=
    h.withGraph (by simp only [Graph.unwatch, Graph.size_modify]) ((h.graph.detach n d).unwatch d _)
  exact hunlinked.trans (hunlinked.contained.recompute n)

/-! ## Propagation -/

/-- What a watcher has to do, it does to a contained store. -/
theorem notify (h : s.Contained calls) (hwakes : (s.arenas calls).Stores (wakes.map Wake.handle))
    {w : Watcher} (hw : (s.arenas calls).Holds w.handle) :
    s.Carries calls (Store.notify (s, wakes) w).1 ∧
      ((Store.notify (s, wakes) w).1.arenas calls).Stores
        ((Store.notify (s, wakes) w).2.map Wake.handle) := by
  have hadded : ∀ wake : Wake, (s.arenas calls).Holds wake.handle →
      (s.arenas calls).Stores ((Graph.addOnce wake wakes).map Wake.handle) := by
    intro wake hwake
    refine Arenas.stores_map.mpr fun other hother => ?_
    rcases Graph.mem_addOnce.mp hother with rfl | hother
    · exact hwake
    · exact Arenas.stores_map.mp hwakes other hother
  cases w with
  | node n => exact ⟨h.recompute n, hwakes.mono (h.recompute n).grown⟩
  | site site => exact ⟨.refl h, hadded (.site site) hw⟩
  | provisional t => exact ⟨.refl h, hadded (.provisional t) hw⟩

theorem notifyAll (h : s.Contained calls) (ws : List Watcher)
    (hwakes : (s.arenas calls).Stores (wakes.map Wake.handle))
    (hws : ∀ w ∈ ws, (s.arenas calls).Holds w.handle) :
    s.Carries calls (ws.foldl Store.notify (s, wakes)).1 ∧
      ((ws.foldl Store.notify (s, wakes)).1.arenas calls).Stores
        ((ws.foldl Store.notify (s, wakes)).2.map Wake.handle) := by
  induction ws generalizing s wakes with
  | nil => exact ⟨.refl h, hwakes⟩
  | cons w ws ih =>
    obtain ⟨hcarries, hwoken⟩ := h.notify hwakes (hws w List.mem_cons_self)
    obtain ⟨hrest, hall⟩ := ih hcarries.contained hwoken fun w' hw' =>
      (hws w' (List.mem_cons_of_mem w hw')).mono hcarries.grown
    exact ⟨hcarries.trans hrest, hall⟩

theorem step (h : s.Contained calls) (hwakes : (s.arenas calls).Stores (wakes.map Wake.handle))
    {rest : List Node} (hrest : ∀ m ∈ rest, m ∈ s.graph.queue) (n : Node) (budget : Nat) :
    s.Carries calls (s.step n rest budget wakes).1 ∧
      ((s.step n rest budget wakes).1.arenas calls).Stores
        ((s.step n rest budget wakes).2.map Wake.handle) := by
  have htaken : s.Carries calls (s.taken n rest budget) := by
    refine h.withGraph (Graph.size_modify _ _ _) ?_
    exact (h.graph.dequeue hrest budget).modify n fun cell hcell => hcell
  obtain ⟨hnotified, hwoken⟩ := htaken.contained.notifyAll (s.graph.cell n).watchers
    (hwakes.mono htaken.grown) fun w hw => (h.graph.holds_of_watcher hw).mono htaken.grown
  exact ⟨htaken.trans hnotified, hwoken⟩

/-- Propagation, with a budget or without one that is enough. -/
theorem drain (budget : Nat) (h : s.Contained calls)
    (hwakes : (s.arenas calls).Stores (wakes.map Wake.handle)) :
    s.Carries calls (left (Store.drain budget s wakes)) ∧
      ∀ woken s', Store.drain budget s wakes = .ok woken s' →
        (s'.arenas calls).Stores (woken.map Wake.handle) := by
  induction budget generalizing s wakes with
  | zero =>
    unfold Store.drain
    split
    · refine ⟨.refl h, fun woken s' hok => ?_⟩
      cases hok
      exact hwakes
    · next n rest hqueue =>
      refine ⟨h.withGraph rfl (h.graph.dequeue (fun m hm => ?_) s.graph.budget), by simp⟩
      rw [hqueue]
      exact List.mem_cons_of_mem n hm
  | succ budget ih =>
    unfold Store.drain
    split
    · refine ⟨.refl h, fun woken s' hok => ?_⟩
      cases hok
      exact hwakes
    · next n rest hqueue =>
      have hrest : ∀ m ∈ rest, m ∈ s.graph.queue := fun m hm => by
        rw [hqueue]
        exact List.mem_cons_of_mem n hm
      obtain ⟨hstep, hwoken⟩ := h.step hwakes hrest n budget
      obtain ⟨hdrained, hall⟩ := ih hstep.contained hwoken
      exact ⟨hstep.trans hdrained, hall⟩

theorem propagate (h : s.Contained calls) : s.Carries calls (left (Store.propagate s)) :=
  (h.drain s.graph.budget Arenas.stores_nil).1

/-- What propagation reports is in its arena. -/
theorem stores_wakes (h : s.Contained calls) {woken : List Wake}
    (hok : Store.propagate s = .ok woken s') : (s'.arenas calls).Stores (woken.map Wake.handle) :=
  (h.drain s.graph.budget Arenas.stores_nil).2 woken s' hok

/-! ## Provisional types -/

theorem lt_of_bindings (h : s.Contained calls) {observed : List (String × Node)}
    {b : String × Ty} (hb : b ∈ bindings s.graph observed) : b.2.index < s.catalog.size := by
  obtain ⟨binding, -, hbinding⟩ := List.mem_filterMap.mp hb
  obtain ⟨t, ht, rfl⟩ := Option.map_eq_some_iff.mp hbinding
  exact h.graph.lt_of_typeAt ht

theorem specialization (h : s.Contained calls) {template target : Ty}
    (htemplate : template.index < s.catalog.size) {observed : List (String × Node)}
    (hok : s.catalog.instantiate template (bindings s.graph observed) = .ok (target, c)) :
    s.Carries calls ⟨c, s.graph⟩ ∧ target.index < c.size := by
  obtain ⟨hcarries, htarget⟩ := h.catalog.instantiate htemplate (fun b => h.lt_of_bindings) hok
  exact ⟨h.withCatalog hcarries, htarget⟩

/-- A provisional type is entered, whose template, target and nodes are valid. -/
theorem pushProvisional (h : s.Contained calls) {p : Provisional}
    (hp : (s.arenas calls).Stores (Shape.provisional p).handles) :
    s.Carries calls ⟨(s.catalog.push (.provisional p)).2, s.graph⟩ ∧
      s.catalog.size < (s.catalog.push (.provisional p)).2.size := by
  refine ⟨h.withCatalog (h.catalog.push hp), ?_⟩
  rw [Catalog.size_push]
  exact Nat.lt_succ_self _

theorem install (h : s.Contained calls) {template : Ty} (htemplate : template.index < s.catalog.size)
    {observed : List (String × Node)} (hobserved : ∀ b ∈ observed, b.2.index < s.graph.size)
    {holder : Node} (hholder : holder.index < s.graph.size) :
    s.Carries calls (left (Store.install template observed holder s)) := by
  unfold Store.install
  rw [Steps.bind_eq]
  rcases specializationFor_cases s template observed with ⟨target, c, hc, heq⟩ | ⟨e, heq⟩
  · obtain ⟨hfound, htarget⟩ := h.specialization htemplate hc
    have hstores : (arenas ⟨c, s.graph⟩ calls).Stores
        (Shape.provisional (installed s.graph template observed holder target)).handles := by
      refine stores_provisional.mpr ⟨?_, ?_, hholder, hobserved⟩
      · exact Nat.lt_of_lt_of_le htemplate hfound.grown.types
      · rw [installed, type_standing]
        exact htarget
    obtain ⟨hpushed, hnew⟩ := hfound.contained.pushProvisional hstores
    have hwatched := hpushed.contained.withGraph (watchAll_rewatches s.graph observed ⟨c.size⟩).size
      (hpushed.contained.graph.watchAll observed hnew)
    have htyped := hwatched.contained.retype (n := holder) (t := ⟨c.size⟩) (by
      show holder.index < (Store.watchAll s.graph observed ⟨c.size⟩).size
      rw [(watchAll_rewatches s.graph observed ⟨c.size⟩).size]
      exact hholder) hnew
    rw [heq]
    exact hfound.trans (hpushed.trans (hwatched.trans htyped))
  · rw [heq]
    exact .refl h

theorem restand (h : s.Contained calls) {p : Provisional} {target : Ty}
    (hp : s.catalog.shape t = .provisional p) (htarget : target.index < s.catalog.size) :
    s.Carries calls (s.restand t p target) := by
  have hstored := Catalog.Within.shape h.catalog t
  rw [hp] at hstored
  obtain ⟨htemplate, -, hnodes⟩ := stores_provisional.mp hstored
  refine h.withCatalog (h.catalog.setShape (stores_provisional.mpr ⟨htemplate, ?_, hnodes⟩))
  rw [type_standing]
  exact htarget

theorem supersede (h : s.Contained calls) {p : Provisional} {target : Ty}
    (hp : s.catalog.shape t = .provisional p) (htarget : target.index < s.catalog.size) :
    s.Carries calls (s.supersede t p target) := by
  have hstored := Catalog.Within.shape h.catalog t
  rw [hp] at hstored
  obtain ⟨htemplate, -, hholder, hobserved⟩ := stores_provisional.mp hstored
  have hstores : (s.arenas calls).Stores (Shape.provisional (succeeding s.graph p target)).handles := by
    refine stores_provisional.mpr ⟨htemplate, ?_, hholder, hobserved⟩
    rw [succeeding, type_standing]
    exact htarget
  obtain ⟨hpushed, hnew⟩ := h.pushProvisional hstores
  have hended := hpushed.contained.withCatalog (hpushed.contained.catalog.setShape (t := t)
    (s := .provisional { p with standing := .superseded ⟨s.catalog.size⟩ })
    (stores_provisional.mpr ⟨Nat.lt_of_lt_of_le htemplate hpushed.grown.types, hnew, hholder, hobserved⟩))
  have hsuccessor := Nat.lt_of_lt_of_le hnew hended.grown.types
  have htyped := hended.contained.retype hholder hsuccessor
  have hhanded := htyped.contained.withGraph
    (handOver_rewatches (s.graph.retype p.holder ⟨s.catalog.size⟩) p.observed t ⟨s.catalog.size⟩).size
    (htyped.contained.graph.handOver p.observed t hsuccessor)
  rw [supersede_eq]
  exact hpushed.trans (hended.trans (htyped.trans hhanded))

theorem refresh (h : s.Contained calls) (t : Ty) (limit : Nat) :
    s.Carries calls (left (Store.refresh t limit s)) := by
  rcases refresh_left s t limit with heq | ⟨p, former, target, c, hp, -, hc, hleft⟩
  · rw [heq]
    exact .refl h
  · have hstored := Catalog.Within.shape h.catalog t
    rw [hp] at hstored
    obtain ⟨hfound, htarget⟩ := h.specialization (stores_provisional.mp hstored).1 hc
    have hp' : c.shape t = .provisional p := by
      rw [Catalog.shape_instantiate hc (Catalog.lt_size_of_provisional hp), hp]
    rcases hleft with heq | ⟨-, heq⟩ | heq
    · rw [heq]
      exact hfound
    · rw [heq]
      exact hfound.trans (hfound.contained.restand hp' htarget)
    · rw [heq]
      exact hfound.trans (hfound.contained.supersede hp' htarget)

end Contained

/-! ## Acts -/

/-- One operation on a store and what it is given. -/
inductive Act where
  | request (r : Request)
  | add (kind : CellKind) (type : Option Ty) (place : Place)
  | bind (n d : Node)
  | unbind (n d : Node)
  | watch (n : Node) (w : Watcher)
  | unwatch (n : Node) (w : Watcher)
  | retype (n : Node) (t : Ty)
  | overwrite (n : Node) (t : Ty)
  | propagate
  | install (template : Ty) (observed : List (String × Node)) (holder : Node)
  | refresh (t : Ty) (limit : Nat)

/-- The handles that an act is given. -/
def Act.handles : Act → List Handle
  | request r => r.mentions.map .type
  | add _ type _ => type.toList.map .type
  | bind n d => [.node n, .node d]
  | unbind n d => [.node n, .node d]
  | watch n w => [.node n, w.handle]
  | unwatch n w => [.node n, w.handle]
  | retype n t => [.node n, .type t]
  | overwrite n t => [.node n, .type t]
  | propagate => []
  | install template observed holder =>
    .type template :: .node holder :: observed.map fun b => .node b.2
  | refresh t _ => [.type t]

/-- The store after an act, also if the act fails. -/
def Act.after (s : Store) : Act → Store
  | request r => ⟨s.catalog.perform r, s.graph⟩
  | add kind type place => ⟨s.catalog, (s.graph.add kind type place).2⟩
  | bind n d => s.bind n d
  | unbind n d => s.unbind n d
  | watch n w => ⟨s.catalog, s.graph.watch n w⟩
  | unwatch n w => ⟨s.catalog, s.graph.unwatch n w⟩
  | retype n t => ⟨s.catalog, s.graph.retype n t⟩
  | overwrite n t => ⟨s.catalog, s.graph.overwriteType n t⟩
  | propagate => left (Store.propagate s)
  | install template observed holder => left (Store.install template observed holder s)
  | refresh t limit => left (Store.refresh t limit s)

namespace Act

/-- Each act on valid handles keeps a contained store contained. -/
theorem carries {act : Act} (h : s.Contained calls) (hact : (s.arenas calls).Stores act.handles) :
    s.Carries calls (act.after s) := by
  cases act with
  | request r => exact h.withCatalog (h.catalog.perform (Arenas.stores_map.mp hact))
  | add kind type place => exact h.add kind (fun t ht => hact (.type t) (by simp [handles, ht])) place
  | bind n d => exact h.bind (hact (.node n) (by simp [handles])) (hact (.node d) (by simp [handles]))
  | unbind n d => exact h.unbind n d
  | watch n w =>
    exact h.withGraph (Graph.size_modify _ _ _) (h.graph.watch n (hact w.handle (by simp [handles])))
  | unwatch n w => exact h.withGraph (Graph.size_modify _ _ _) (h.graph.unwatch n w)
  | retype n t =>
    exact h.retype (hact (.node n) (by simp [handles])) (hact (.type t) (by simp [handles]))
  | overwrite n t =>
    exact h.withGraph (Graph.size_modify _ _ _)
      (h.graph.overwriteType n (hact (.type t) (by simp [handles])))
  | propagate => exact h.propagate
  | install template observed holder =>
    simp only [handles, Arenas.stores_cons, Arenas.stores_map, Arenas.holds_type,
      Arenas.holds_node] at hact
    obtain ⟨htemplate, hholder, hobserved⟩ := hact
    exact h.install htemplate hobserved hholder
  | refresh t limit => exact h.refresh t limit

/-- Each act on valid handles is an operation of a session. -/
theorem move {act : Act} (hact : (s.arenas calls).Stores act.handles) : s.Move (act.after s) := by
  cases act with
  | request r => exact .request r (Arenas.stores_map.mp hact)
  | add kind type place => exact .add kind type place fun t ht => hact (.type t) (by simp [handles, ht])
  | bind n d => exact .bind n d
  | unbind n d => exact .unbind n d
  | watch n w => exact .watch n w
  | unwatch n w => exact .unwatch n w
  | retype n t => exact .retype n t (hact (.type t) (by simp [handles]))
  | overwrite n t => exact .overwrite n t (hact (.type t) (by simp [handles]))
  | propagate => exact .propagate
  | install template observed holder => exact .install template observed holder
  | refresh t limit => exact .refresh t limit

end Act

end Store

end FlowTyping
