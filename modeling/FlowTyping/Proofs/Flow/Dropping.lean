import FlowTyping.Proofs.Flow.Notifying
import FlowTyping.Proofs.Flow.Limits
import FlowTyping.Proofs.Flow.Marking

/-
  Rounds that fail

  A round of propagation fails when its budget is used up and a node is still
  queued. That node has left the queue by then, and it stays dirty: it is dropped
  (`Store.dropped`). Nothing queues it again, since only nodes that get dirty are
  queued, so its watchers are never told, and a later round may come to its end
  although the node is dirty.

  These nodes are all that goes missing. Whatever is done to a store, its queue
  holds each dirty node once and no other, but for those that failed rounds have
  dropped (`Interrupted.enqueuedBut`).
-/
namespace FlowTyping

open Steps

namespace Graph

variable {g g' g'' : Graph} {n : Node} {lost : List Node}

/-- Between `g` and `g'` clean nodes get dirty, and each is queued behind those that wait. -/
def Lines (g g' : Graph) : Prop :=
  ∃ fresh : List Node, g'.queue = g.queue ++ fresh ∧ fresh.Nodup ∧
    (∀ n ∈ fresh, g.dirtyAt n = false) ∧
    ∀ n, g'.dirtyAt n = true ↔ g.dirtyAt n = true ∨ n ∈ fresh

namespace Lines

theorem of_eq (hqueue : g'.queue = g.queue) (hdirty : ∀ n, g'.dirtyAt n = g.dirtyAt n) :
    g.Lines g' :=
  ⟨[], by simp [hqueue], List.nodup_nil, by simp, fun n => by simp [hdirty]⟩

theorem refl (g : Graph) : g.Lines g := of_eq rfl fun _ => rfl

theorem trans (h₁ : g.Lines g') (h₂ : g'.Lines g'') : g.Lines g'' := by
  obtain ⟨first, hqueue, hnodup, hclean, hdirty⟩ := h₁
  obtain ⟨second, hqueue', hnodup', hclean', hdirty'⟩ := h₂
  have hnew : ∀ n ∈ second, g.dirtyAt n = false ∧ n ∉ first := by
    intro n hn
    have hold := hclean' n hn
    rw [Bool.eq_false_iff, Ne, hdirty, not_or] at hold
    exact ⟨Bool.eq_false_iff.mpr hold.1, hold.2⟩
  refine ⟨first ++ second, ?_, ?_, ?_, ?_⟩
  · rw [hqueue', hqueue, List.append_assoc]
  · refine List.nodup_append.mpr ⟨hnodup, hnodup', ?_⟩
    rintro n hfirst _ hsecond rfl
    exact (hnew n hsecond).2 hfirst
  · intro n hn
    rcases List.mem_append.mp hn with hn | hn
    · exact hclean n hn
    · exact (hnew n hn).1
  · intro n
    rw [hdirty', hdirty, List.mem_append, or_assoc]

theorem rewatch (h : g.Rewatches g') : g.Lines g' := of_eq h.queue h.dirtyAt

/-- A change of a node that leaves it as dirty as it is. -/
theorem modify (g : Graph) (n : Node) {f : Cell → Cell}
    (hf : ∀ cell, (f cell).dirty = cell.dirty) : g.Lines (g.modify n f) :=
  of_eq rfl fun m => field_modify (·.dirty) hf g n m

theorem add (g : Graph) (kind : CellKind) (type : Option Ty) (place : Place) :
    g.Lines (g.add kind type place).2 := by
  refine of_eq rfl fun m => ?_
  unfold dirtyAt
  rw [cell_add]
  split
  · next hm => rw [cell_of_size_le (Nat.le_of_eq hm.symm)]; rfl
  · rfl

theorem retype (g : Graph) (hn : n.index < g.size) (t : Ty) : g.Lines (g.retype n t) := by
  rcases retype_cases g n t with ⟨-, heq⟩ | ⟨-, heq⟩ | ⟨hclean, heq⟩
  · rw [heq]
    exact .refl g
  · rw [heq]
    exact .modify g n fun _ => rfl
  · by_cases ht : g.typeAt n = some t
    · rw [show g.retype n t = g by rw [Graph.retype, if_pos ht]]
      exact .refl g
    · refine ⟨[n], by rw [heq], by simp, by simpa using hclean, fun m => ?_⟩
      rw [dirtyAt_retype, List.mem_singleton]
      simp [hn, ht]

end Lines

/-- The queue holds each dirty node once, and no other, but for some that are dirty and wait no
more. -/
structure EnqueuedBut (lost : List Node) (g : Graph) : Prop where
  once : (g.queue ++ lost).Nodup
  queued : ∀ n, g.dirtyAt n = true ↔ n ∈ g.queue ∨ n ∈ lost

namespace EnqueuedBut

theorem empty (limit : Nat) : (Graph.empty limit).EnqueuedBut [] := by
  have hclean := (Enqueued.empty limit).queued
  exact ⟨by simp [Graph.empty], fun n => by rw [← hclean]; simp⟩

theorem lines (h : g.EnqueuedBut lost) (hg : g.Lines g') : g'.EnqueuedBut lost := by
  obtain ⟨fresh, hqueue, hnodup, hclean, hdirty⟩ := hg
  have hnew : ∀ n ∈ fresh, n ∉ g.queue ∧ n ∉ lost := by
    intro n hn
    have hold := hclean n hn
    rwa [Bool.eq_false_iff, Ne, h.queued, not_or] at hold
  obtain ⟨hfirst, hlost, hdisjoint⟩ := List.nodup_append.mp h.once
  refine ⟨?_, fun n => ?_⟩
  · rw [hqueue, List.append_assoc]
    refine List.nodup_append.mpr ⟨hfirst, List.nodup_append.mpr ⟨hnodup, hlost, ?_⟩, ?_⟩
    · rintro n hn _ hm rfl
      exact (hnew n hn).2 hm
    · rintro n hn m hm rfl
      rcases List.mem_append.mp hm with hm | hm
      · exact (hnew n hm).1 hn
      · exact hdisjoint n hn n hm rfl
  · rw [hdirty, h.queued, hqueue, List.mem_append]
    tauto

/-- A node that leaves the queue and stays dirty is one of the lost. -/
theorem drop {rest : List Node} (h : g.EnqueuedBut lost) (hqueue : g.queue = n :: rest) :
    EnqueuedBut (n :: lost) { g with queue := rest } := by
  have honce := h.once
  rw [hqueue, List.cons_append] at honce
  refine ⟨List.perm_middle.nodup_iff.mpr honce, fun m => ?_⟩
  show g.dirtyAt m = true ↔ m ∈ rest ∨ m ∈ n :: lost
  rw [h.queued, hqueue, List.mem_cons, List.mem_cons]
  tauto

theorem not_mem_of_lost (h : g.EnqueuedBut lost) (hn : n ∈ lost) : n ∉ g.queue :=
  fun hqueue => (List.nodup_append.mp h.once).2.2 n hqueue n hn rfl

end EnqueuedBut

theorem clean_of_isQuiet (h : g.isQuiet = true) : g.queue = [] ∧ ∀ n, g.dirtyAt n = false := by
  have hboth : g.queue = [] ∧ g.cells.toList.filter (·.dirty) = [] := by
    simpa [isQuiet, countDirty] using h
  refine ⟨hboth.1, fun n => Bool.eq_false_iff.mpr fun hd => ?_⟩
  have hn := lt_size_of_dirty hd
  have hcell : g.cell n ∈ g.cells.toList := by
    rw [cell, Array.getElem?_eq_getElem hn]
    exact Array.getElem_mem_toList hn
  exact List.filter_eq_nil_iff.mp hboth.2 _ hcell hd

/-- A graph is quiet if nothing is queued and nothing is lost. -/
theorem EnqueuedBut.isQuiet_iff (h : g.EnqueuedBut lost) :
    g.isQuiet = true ↔ g.queue = [] ∧ lost = [] := by
  constructor
  · intro hquiet
    obtain ⟨hqueue, hclean⟩ := clean_of_isQuiet hquiet
    refine ⟨hqueue, List.eq_nil_iff_forall_not_mem.mpr fun n hn => ?_⟩
    exact Bool.eq_false_iff.mp (hclean n) ((h.queued n).mpr (.inr hn))
  · rintro ⟨hqueue, rfl⟩
    refine isQuiet_of_clean hqueue fun n => Bool.eq_false_iff.mpr fun hd => ?_
    rcases (h.queued n).mp hd with hn | hn
    · rw [hqueue] at hn
      cases hn
    · cases hn

end Graph

namespace Store

variable {s s' : Store} {n m : Node} {lost : List Node} {act : Act} {calls : Nat} {t : Ty}
  {wakes wakes' : List Wake} {e : TypingError}

/-! ## What queues nodes -/

theorem lines_recompute (s : Store) (n : Node) : s.graph.Lines (s.recompute n).graph := by
  rcases recompute_cases s n with ⟨t, ht, heq⟩ | ⟨-, heq⟩
  · rw [heq]
    exact .retype s.graph (lt_of_combine ht) t
  · rw [heq]
    exact .refl s.graph

theorem lines_told (s : Store) (w : Watcher) : s.graph.Lines (s.told w).graph := by
  cases w with
  | node n => exact lines_recompute s n
  | site site => exact .refl s.graph
  | provisional t => exact .refl s.graph

theorem lines_bind (s : Store) (n d : Node) : s.graph.Lines (s.bind n d).graph := by
  have hlink : s.graph.Lines (s.graph.link n d) := .of_eq rfl (Graph.dirtyAt_link s.graph n d)
  rw [bind_eq]
  split
  · exact hlink.trans (lines_recompute ⟨s.catalog, s.graph.link n d⟩ n)
  · exact hlink

theorem lines_unbind (s : Store) (n d : Node) : s.graph.Lines (s.unbind n d).graph := by
  have hunlink : s.graph.Lines (s.graph.unlink n d) :=
    .of_eq rfl (Graph.dirtyAt_unlink s.graph n d)
  exact hunlink.trans (lines_recompute ⟨s.catalog, s.graph.unlink n d⟩ n)

/-- What installing a provisional type does to the graph, whether it fails or not. -/
theorem graph_install (s : Store) (template : Ty) (observed : List (String × Node))
    (holder : Node) :
    (left (install template observed holder s)).graph = s.graph ∨
      ∃ t, (left (install template observed holder s)).graph =
        (watchAll s.graph observed t).retype holder t := by
  unfold install
  rw [Steps.bind_eq]
  rcases specializationFor_cases s template observed with ⟨target, c, -, heq⟩ | ⟨e, heq⟩
  · rw [heq]
    exact .inr ⟨⟨c.size⟩, rfl⟩
  · rw [heq]
    exact .inl rfl

/-- What refreshing a provisional type does to the graph, whether it fails or not. -/
theorem graph_refresh (s : Store) (t : Ty) (limit : Nat) :
    (left (refresh t limit s)).graph = s.graph ∨
      ∃ p successor, s.catalog.shape t = .provisional p ∧ (left (refresh t limit s)).graph =
        handOver (s.graph.retype p.holder successor) p.observed t successor := by
  rcases refresh_left s t limit with heq | ⟨p, former, target, c, hp, -, -, hleft⟩
  · rw [heq]
    exact .inl rfl
  · rcases hleft with heq | ⟨-, heq⟩ | heq
    · rw [heq]
      exact .inl rfl
    · rw [heq]
      exact .inl rfl
    · rw [heq, supersede_eq]
      exact .inr ⟨p, ⟨c.size⟩, hp, rfl⟩

/-- Any act but a round of propagation queues the nodes that get dirty. -/
theorem Act.lines (hs : s.Contained calls) (hact : (s.arenas calls).Stores act.handles)
    (hround : act ≠ .propagate) : s.graph.Lines (act.after s).graph := by
  cases act with
  | request r => exact .refl s.graph
  | add kind type place => exact .add s.graph kind type place
  | bind n d => exact lines_bind s n d
  | unbind n d => exact lines_unbind s n d
  | watch n w => exact .rewatch (.watch s.graph n w)
  | unwatch n w => exact .modify s.graph n fun _ => rfl
  | retype n t => exact .retype s.graph (hact (.node n) (by simp [handles])) t
  | overwrite n t => exact .modify s.graph n fun _ => rfl
  | propagate => exact absurd rfl hround
  | install template observed holder =>
    have hholder : holder.index < s.graph.size := hact (.node holder) (by simp [handles])
    show s.graph.Lines (left (Store.install template observed holder s)).graph
    rcases graph_install s template observed holder with heq | ⟨t, heq⟩
    · rw [heq]
      exact .refl s.graph
    · rw [heq]
      have hrewatch := watchAll_rewatches s.graph observed t
      exact (Graph.Lines.rewatch hrewatch).trans (.retype _ (hrewatch.size ▸ hholder) t)
  | refresh t limit =>
    show s.graph.Lines (left (Store.refresh t limit s)).graph
    rcases graph_refresh s t limit with heq | ⟨p, successor, hp, heq⟩
    · rw [heq]
      exact .refl s.graph
    · have hstored := Catalog.Within.shape hs.catalog t
      rw [hp] at hstored
      have hholder : p.holder.index < s.graph.size := (stores_provisional.mp hstored).2.2.1
      rw [heq]
      exact (Graph.Lines.retype s.graph hholder successor).trans
        (.rewatch (handOver_rewatches _ _ _ _))

/-- Any act but a round of propagation leaves dirty what it changes, unless it overwrites a type,
which is meant not to. -/
theorem Act.marks (s : Store) (hround : act ≠ .propagate)
    (hoverwrite : ∀ n t, act ≠ .overwrite n t) : s.graph.Marks (act.after s).graph := by
  cases act with
  | request r => exact .refl s.graph
  | add kind type place => exact .add s.graph kind type place
  | bind n d => exact marks_bind s n d
  | unbind n d => exact marks_unbind s n d
  | watch n w => exact .rewatch (.watch s.graph n w)
  | unwatch n w =>
    have hkeep : ∀ {β : Type} (field : Cell → β) (m : Node),
        (∀ cell ws, field { cell with watchers := ws } = field cell) →
        field ((s.graph.unwatch n w).cell m) = field (s.graph.cell m) := fun field m hfield =>
      Graph.field_modify field (fun _ => hfield _ _) s.graph n m
    exact .of_eq (Graph.size_modify _ _ _) (fun m => hkeep (·.dirty) m fun _ _ => rfl)
      fun m => hkeep (·.type) m fun _ _ => rfl
  | retype n t => exact .retype s.graph n t
  | overwrite n t => exact absurd rfl (hoverwrite n t)
  | propagate => exact absurd rfl hround
  | install template observed holder =>
    show s.graph.Marks (left (Store.install template observed holder s)).graph
    rcases graph_install s template observed holder with heq | ⟨t, heq⟩
    · rw [heq]
      exact .refl s.graph
    · rw [heq]
      exact (Graph.Marks.rewatch (watchAll_rewatches s.graph observed t)).trans
        (.retype _ holder t)
  | refresh t limit =>
    show s.graph.Marks (left (Store.refresh t limit s)).graph
    rcases graph_refresh s t limit with heq | ⟨p, successor, -, heq⟩
    · rw [heq]
      exact .refl s.graph
    · rw [heq]
      exact (Graph.Marks.retype s.graph p.holder successor).trans
        (.rewatch (handOver_rewatches _ _ _ _))

/-! ## Rounds -/

/-- The node that is taken off the queue when a budget of so many nodes is used up, if the round
fails. -/
def droppedWithin : Nat → Store → List Node
  | 0, s => s.graph.queue.take 1
  | budget + 1, s =>
    match s.graph.queue with
    | [] => []
    | n :: rest => droppedWithin budget (s.stepped n rest budget)

/-- The node that a round of propagation drops: one if it fails, and none otherwise. -/
def dropped (s : Store) : List Node := droppedWithin s.graph.budget s

theorem droppedWithin_of_queue {rest : List Node} (hqueue : s.graph.queue = n :: rest)
    (budget : Nat) :
    droppedWithin (budget + 1) s = droppedWithin budget (s.stepped n rest budget) := by
  rw [droppedWithin, hqueue]

theorem droppedWithin_of_drains {budget : Nat} (h : Drains budget s wakes wakes' s') :
    droppedWithin budget s = [] ∧ s'.graph.queue = [] := by
  induction h with
  | @done budget s wakes hqueue =>
    refine ⟨?_, hqueue⟩
    cases budget with
    | zero => rw [droppedWithin, hqueue]; rfl
    | succ budget => rw [droppedWithin, hqueue]
  | next hqueue _ ih =>
    rw [droppedWithin_of_queue hqueue]
    exact ih

/-- How a round goes on after its first node. -/
theorem drain_of_queue {rest : List Node} (hqueue : s.graph.queue = n :: rest) (budget : Nat)
    (wakes : List Wake) : ∃ wakes', drain (budget + 1) s wakes =
      drain budget (s.stepped n rest budget) wakes' := by
  refine ⟨((s.graph.cell n).watchers.filterMap Watcher.wake?).foldl
    (fun wakes k => Graph.addOnce k wakes) wakes, ?_⟩
  rw [drain, hqueue]
  dsimp only
  rw [step_eq, foldl_notify]
  rfl

theorem budget_stepped (s : Store) (n : Node) (rest : List Node) (budget : Nat) :
    (s.stepped n rest budget).graph.budget = budget :=
  foldl_told_keeps (fun s => s.graph.budget = budget)
    (fun s w h => by
      cases w with
      | node m => exact (budget_recompute s m).1.trans h
      | site site => exact h
      | provisional t => exact h) _ rfl

/-- A round that fails has used up its budget and drops one node. -/
theorem dropped_of_error {budget : Nat} (hbudget : s.graph.budget = budget)
    (h : drain budget s wakes = .error e s') :
    s'.graph.budget = 0 ∧ ∃ n, droppedWithin budget s = [n] := by
  induction budget generalizing s wakes with
  | zero =>
    cases hqueue : s.graph.queue with
    | nil => rw [drain, hqueue] at h; cases h
    | cons n rest =>
      rw [drain, hqueue] at h
      cases h
      exact ⟨hbudget, n, by rw [droppedWithin, hqueue]; rfl⟩
  | succ budget ih =>
    cases hqueue : s.graph.queue with
    | nil => rw [drain, hqueue] at h; cases h
    | cons n rest =>
      obtain ⟨wakes', heq⟩ := drain_of_queue hqueue budget wakes
      rw [droppedWithin_of_queue hqueue]
      exact ih (budget_stepped s n rest budget) (heq ▸ h)

/-- A round that drops a node fails. -/
theorem propagate_of_dropped (h : s.dropped ≠ []) :
    propagate s = .error (.fault (.stepLimit s.graph.limit)) (left (propagate s)) := by
  cases hround : propagate s with
  | ok wakes s' => exact absurd (droppedWithin_of_drains (drains_of_ok hround)).1 h
  | error e s' =>
    obtain rfl := propagate_error hround
    rfl

/-- A round that drops no node gives a result. -/
theorem propagate_of_none_dropped (h : s.dropped = []) :
    ∃ wakes, propagate s = .ok wakes (left (propagate s)) := by
  cases hround : propagate s with
  | ok wakes s' => exact ⟨wakes, rfl⟩
  | error e s' =>
    obtain ⟨-, n, hn⟩ := dropped_of_error rfl hround
    cases h.symm.trans hn

/-- A node that is taken off the queue in time is not dirty any more. -/
theorem enqueuedBut_taken {rest : List Node} (h : s.graph.EnqueuedBut lost)
    (hqueue : s.graph.queue = n :: rest) (budget : Nat) :
    (s.taken n rest budget).graph.EnqueuedBut lost := by
  have honce := h.once
  rw [hqueue, List.cons_append, List.nodup_cons, List.mem_append, not_or] at honce
  obtain ⟨⟨hrest, hlost⟩, hnodup⟩ := honce
  refine ⟨hnodup, fun m => ?_⟩
  show _ ↔ m ∈ rest ∨ m ∈ lost
  by_cases hmn : m = n
  · subst hmn
    refine ⟨fun hd => absurd rfl (dirtyAt_taken hd).1, fun hm => ?_⟩
    exact hm.elim (fun hm => absurd hm hrest) fun hm => absurd hm hlost
  · rw [dirtyAt_taken_of_ne hmn, h.queued, hqueue, List.mem_cons, or_iff_right hmn]

theorem enqueuedBut_stepped {rest : List Node} (h : s.graph.EnqueuedBut lost)
    (hqueue : s.graph.queue = n :: rest) (budget : Nat) :
    (s.stepped n rest budget).graph.EnqueuedBut lost :=
  foldl_told_keeps (fun s => s.graph.EnqueuedBut lost) (fun s w h => h.lines (lines_told s w)) _
    (enqueuedBut_taken h hqueue budget)

/-- After a round, whether it fails or not, only what it dropped is lost in addition. -/
theorem enqueuedBut_drain (budget : Nat) (wakes : List Wake) (h : s.graph.EnqueuedBut lost) :
    (left (drain budget s wakes)).graph.EnqueuedBut (droppedWithin budget s ++ lost) := by
  induction budget generalizing s wakes with
  | zero =>
    cases hqueue : s.graph.queue with
    | nil =>
      rw [drain, droppedWithin, hqueue]
      exact h
    | cons n rest =>
      rw [drain, droppedWithin, hqueue]
      exact h.drop hqueue
  | succ budget ih =>
    cases hqueue : s.graph.queue with
    | nil =>
      rw [drain, droppedWithin, hqueue]
      exact h
    | cons n rest =>
      obtain ⟨wakes', heq⟩ := drain_of_queue hqueue budget wakes
      rw [heq, droppedWithin_of_queue hqueue]
      exact ih wakes' (enqueuedBut_stepped h hqueue budget)

/-- What a round stirs is dirty after it, unless it was taken off the queue in time. -/
theorem visited_or_dirty (budget : Nat) (wakes : List Wake) (hm : StirsWithin budget s m) :
    m ∈ visitedWithin budget s ∨ (left (drain budget s wakes)).graph.dirtyAt m = true := by
  have quiet {s : Store} (hd : s.graph.dirtyAt m = true ∨
      ∃ t ∈ [s], t.graph.typeAt m ≠ s.graph.typeAt m) : s.graph.dirtyAt m = true := by
    rcases hd with hd | ⟨t, ht, hne⟩
    · exact hd
    · rw [List.mem_singleton.mp ht] at hne
      exact absurd rfl hne
  induction budget generalizing s wakes with
  | zero =>
    have hd := quiet hm
    right
    cases hqueue : s.graph.queue <;> rw [drain, hqueue] <;> exact hd
  | succ budget ih =>
    cases hqueue : s.graph.queue with
    | nil =>
      rw [StirsWithin, momentsWithin_of_empty hqueue] at hm
      rw [drain, hqueue]
      exact .inr (quiet hm)
    | cons n rest =>
      obtain ⟨wakes', heq⟩ := drain_of_queue hqueue budget wakes
      rw [heq, visitedWithin_of_queue hqueue]
      rcases hm.stepped hqueue with rfl | hm
      · exact .inl List.mem_cons_self
      · exact (ih wakes' hm).imp_left (List.mem_cons_of_mem n)

/-! ## Histories with failed rounds -/

/-- The node that an act drops, if it is a round that fails. -/
def Act.drops (s : Store) : Act → List Node
  | .propagate => s.dropped
  | _ => []

theorem Act.drops_of_ne (h : act ≠ .propagate) : act.drops s = [] := by
  cases act <;> first | rfl | exact absurd rfl h

/-- Stores that acts on valid handles lead to from the built-in types and an empty graph, with the
nodes that rounds which failed on the way have dropped. -/
inductive Interrupted (calls : Nat) : List Node → Store → Prop
  | start (limit : Nat) : Interrupted calls [] ⟨.seeded, .empty limit⟩
  | step {lost : List Node} {s : Store} (act : Act) (h : Interrupted calls lost s)
      (hact : (s.arenas calls).Stores act.handles) :
      Interrupted calls (act.drops s ++ lost) (act.after s)

theorem Act.enqueuedBut (h : s.graph.EnqueuedBut lost) (hs : s.Contained calls)
    (hact : (s.arenas calls).Stores act.handles) :
    (act.after s).graph.EnqueuedBut (act.drops s ++ lost) := by
  by_cases hround : act = .propagate
  · subst hround
    exact enqueuedBut_drain s.graph.budget [] h
  · rw [Act.drops_of_ne hround]
    exact h.lines (Act.lines hs hact hround)

theorem Interrupted.contained (h : Interrupted calls lost s) : s.Contained calls := by
  induction h with
  | start limit => exact contained_empty (Catalog.contained_seeded 0 calls) limit
  | step act _ hact ih => exact (Act.carries ih hact).contained

theorem Interrupted.enqueuedBut (h : Interrupted calls lost s) : s.graph.EnqueuedBut lost := by
  induction h with
  | start limit => exact .empty limit
  | step act h hact ih => exact Act.enqueuedBut ih h.contained hact

/-- Where every round came to its end, nothing was dropped. -/
theorem Undisturbed.interrupted (h : Undisturbed calls s) : Interrupted calls [] s := by
  induction h with
  | start limit => exact .start limit
  | @step s act _ hact hend ih =>
    have hnone : act.drops s = [] := by
      by_cases hround : act = .propagate
      · obtain ⟨wakes, s', hok⟩ := hend hround
        subst hround
        exact (droppedWithin_of_drains (drains_of_ok hok)).1
      · exact Act.drops_of_ne hround
    have hnext := ih.step act hact
    rwa [hnone] at hnext

/-- What there is to say of the work list of a store, where rounds that failed on the way have
dropped some nodes, and of the next act. -/
structure Accounted (calls : Nat) (lost : List Node) (s : Store) : Prop where
  /-- A node is dirty if it is queued or was dropped, which are different nodes. -/
  enqueued : s.graph.EnqueuedBut lost
  /-- The graph is settled if nothing is queued and nothing was ever dropped. -/
  settled : s.graph.isQuiet = true ↔ s.graph.queue = [] ∧ lost = []
  /-- Between rounds, a node that gets another type is queued, unless it has been dropped. -/
  changed : ∀ act : Act, (s.arenas calls).Stores act.handles → act ≠ .propagate →
    (∀ n t, act ≠ .overwrite n t) → ∀ n, n.index < s.graph.size →
    (act.after s).graph.typeAt n ≠ s.graph.typeAt n → n ∈ (act.after s).graph.queue ∨ n ∈ lost
  /-- A round that ends drops nothing. It empties the queue and takes from it each node that was
  dirty or changed, but for those dropped before, which stay dirty. -/
  ended : ∀ wakes s', propagate s = .ok wakes s' → s.dropped = [] ∧ s'.graph.queue = [] ∧
    (∀ n, s'.graph.dirtyAt n = true ↔ n ∈ lost) ∧ (s'.graph.isQuiet = true ↔ lost = []) ∧
    ∀ n, s.Stirs n → n ∈ s.visited ∨ n ∈ lost
  /-- A round that fails has reached the limit and drops one node, which stays dirty. Any other node
  that was dirty or changed has been taken off the queue in time, or is still queued, or was dropped
  before. -/
  failed : ∀ e s', propagate s = .error e s' →
    e = .fault (.stepLimit s.graph.limit) ∧ s'.graph.budget = 0 ∧ ∃ n, s.dropped = [n] ∧
      s'.graph.dirtyAt n = true ∧ n ∉ s'.graph.queue ∧ n ∉ lost ∧
      ∀ m, s.Stirs m → m ∈ s.visited ∨ m ∈ s'.graph.queue ∨ m = n ∨ m ∈ lost

theorem ended_accounts (h : s.graph.EnqueuedBut lost) (hok : propagate s = .ok wakes s') :
    s.dropped = [] ∧ s'.graph.queue = [] ∧ s'.graph.EnqueuedBut lost ∧
      ∀ n, s.Stirs n → n ∈ s.visited ∨ n ∈ lost := by
  obtain ⟨hnone, hqueue⟩ := droppedWithin_of_drains (drains_of_ok hok)
  have hleft : left (propagate s) = s' := by rw [hok]; rfl
  have hkeep : s'.graph.EnqueuedBut lost := by
    have hdrain := enqueuedBut_drain s.graph.budget [] h
    rw [hnone] at hdrain
    exact hleft ▸ hdrain
  refine ⟨hnone, hqueue, hkeep, fun n hn => ?_⟩
  refine (visited_or_dirty s.graph.budget [] hn).imp_right fun hd => ?_
  have hn : n ∈ s'.graph.queue ∨ n ∈ lost := (hkeep.queued n).mp (hleft ▸ hd)
  rw [hqueue] at hn
  exact hn.resolve_left List.not_mem_nil

theorem failed_accounts (h : s.graph.EnqueuedBut lost) (hfail : propagate s = .error e s') :
    ∃ n, s.dropped = [n] ∧ s'.graph.EnqueuedBut (n :: lost) ∧
      ∀ m, s.Stirs m → m ∈ s.visited ∨ m ∈ s'.graph.queue ∨ m = n ∨ m ∈ lost := by
  obtain ⟨-, n, hn⟩ := dropped_of_error rfl hfail
  have hleft : left (propagate s) = s' := by rw [hfail]; rfl
  have hkeep : s'.graph.EnqueuedBut (n :: lost) := by
    have hdrain := enqueuedBut_drain s.graph.budget [] h
    rw [hn] at hdrain
    exact hleft ▸ hdrain
  refine ⟨n, hn, hkeep, fun m hm => ?_⟩
  refine (visited_or_dirty s.graph.budget [] hm).imp_right fun hd => ?_
  have hm : m ∈ s'.graph.queue ∨ m ∈ n :: lost := (hkeep.queued m).mp (hleft ▸ hd)
  exact hm.imp_right List.mem_cons.mp

/-- Whatever is done to a store, rounds that fail included: its queue holds each dirty node once and
no other, but for the nodes that failed rounds have dropped, and these alone keep a round that ends
from settling the graph. Where no round has failed there are none. -/
theorem work_list_accounted :
    (∀ lost s, Interrupted calls lost s → s.Accounted calls lost) ∧
      ∀ s, Undisturbed calls s → s.Accounted calls [] := by
  have haccount : ∀ lost s, Interrupted calls lost s → s.Accounted calls lost := by
    intro lost s h
    have hkeep := h.enqueuedBut
    refine ⟨hkeep, hkeep.isQuiet_iff, ?_, ?_, ?_⟩
    · intro act hact hround hoverwrite n hn hne
      have hd := ((Act.marks s hround hoverwrite).types n hn).resolve_left hne
      exact ((hkeep.lines (Act.lines h.contained hact hround)).queued n).mp hd
    · intro wakes s' hok
      obtain ⟨hnone, hqueue, hkeep', hstirs⟩ := ended_accounts hkeep hok
      refine ⟨hnone, hqueue, fun n => ?_, ?_, hstirs⟩
      · rw [hkeep'.queued, hqueue]
        simp
      · rw [hkeep'.isQuiet_iff]
        exact and_iff_right hqueue
    · intro e s' hfail
      obtain ⟨n, hn, hkeep', hstirs⟩ := failed_accounts hkeep hfail
      have hnew : n ∉ lost :=
        (List.nodup_cons.mp (List.nodup_append.mp hkeep'.once).2.1).1
      exact ⟨propagate_error hfail, (dropped_of_error rfl hfail).1, n, hn,
        (hkeep'.queued n).mpr (.inr List.mem_cons_self),
        hkeep'.not_mem_of_lost List.mem_cons_self, hnew, hstirs⟩
  exact ⟨haccount, fun s h => haccount [] s h.interrupted⟩

/-- Two nodes get a type in a graph that may take one node off its queue. -/
def stalled : Store :=
  let acts : List Act := [
    .add .plain none .synthesized,
    .add .plain none .synthesized,
    .retype ⟨0⟩ .int,
    .retype ⟨1⟩ .int]
  acts.foldl (fun s act => act.after s) ⟨.seeded, .empty 1⟩

theorem dropped_stalled : stalled.dropped = [⟨1⟩] := by decide +kernel

/-- The graph after a round that fails. -/
def halted : Store := left (propagate stalled)

theorem interrupted_halted : Interrupted 0 [⟨1⟩] halted := by
  have h₀ : Interrupted 0 [] ⟨.seeded, .empty 1⟩ := .start 1
  have h₁ := h₀.step (.add .plain none .synthesized) (by decide +kernel)
  have h₂ := h₁.step (.add .plain none .synthesized) (by decide +kernel)
  have h₃ := h₂.step (.retype ⟨0⟩ .int) (by decide +kernel)
  have h₄ := h₃.step (.retype ⟨1⟩ .int) (by decide +kernel)
  have h₅ := h₄.step .propagate (by decide +kernel)
  show Interrupted 0 [⟨1⟩] (Act.after stalled .propagate)
  rw [← dropped_stalled, ← List.append_nil stalled.dropped]
  exact h₅

/-- The second of the nodes is dropped, and stays dirty when a later round ends. -/
theorem work_list_accounted_stalled :
    Interrupted 0 [⟨1⟩] halted ∧ halted.Accounted 0 [⟨1⟩] :=
  ⟨interrupted_halted, work_list_accounted.1 _ _ interrupted_halted⟩

/-- A node whose type has changed is dropped when the limit is hit: it is dirty and not queued, and
another round ends without settling the graph. -/
theorem changed_node_dropped :
    propagate stalled = .error (.fault (.stepLimit 1)) halted ∧
      halted.graph.dirtyAt ⟨1⟩ = true ∧ ⟨1⟩ ∉ halted.graph.queue ∧
      ∃ wakes s, propagate halted = .ok wakes s ∧ s.graph.dirtyAt ⟨1⟩ = true ∧
        s.graph.isQuiet = false := by
  have hfails := propagate_of_dropped (s := stalled) (by rw [dropped_stalled]; simp)
  obtain ⟨wakes, hends⟩ := propagate_of_none_dropped (s := halted) (by decide +kernel)
  exact ⟨hfails, by decide +kernel, by decide +kernel, wakes, _, hends, by decide +kernel⟩

end Store

end FlowTyping
