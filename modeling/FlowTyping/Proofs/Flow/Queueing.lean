import FlowTyping.Proofs.Flow.Contained

/-
  The queue and the dirty nodes

  A node is queued when it gets dirty and is dirty no longer when it is taken off
  the queue. So the queue holds each dirty node once and nothing else
  (`Graph.Enqueued`), as long as no round of propagation fails: the node at which
  the budget runs out stays dirty and is lost to the queue
  (`Undisturbed.enqueued`).
-/
namespace FlowTyping

open Steps

namespace Graph

variable {g g' : Graph} {n : Node} {t : Ty}

/-- The queue holds each dirty node once, and no other. -/
structure Enqueued (g : Graph) : Prop where
  once : g.queue.Nodup
  queued : ∀ n, n ∈ g.queue ↔ g.dirtyAt n = true

namespace Enqueued

theorem empty (limit : Nat) : (Graph.empty limit).Enqueued := by
  refine ⟨List.nodup_nil, fun n => ?_⟩
  rw [dirtyAt, cell_of_size_le (Nat.zero_le _)]
  exact ⟨fun h => (by cases h), fun h => (by cases h)⟩

theorem of_eq (h : g.Enqueued) (hqueue : g'.queue = g.queue)
    (hdirty : ∀ n, g'.dirtyAt n = g.dirtyAt n) : g'.Enqueued :=
  ⟨hqueue ▸ h.once, fun n => by rw [hqueue, hdirty]; exact h.queued n⟩

theorem rewatch (h : g.Enqueued) (hg : g.Rewatches g') : g'.Enqueued := h.of_eq hg.queue hg.dirtyAt

/-- A change of a node that leaves it as dirty as it is. -/
theorem modify (h : g.Enqueued) (n : Node) {f : Cell → Cell}
    (hf : ∀ cell, (f cell).dirty = cell.dirty) : (g.modify n f).Enqueued :=
  h.of_eq rfl fun m => field_modify (·.dirty) hf g n m

theorem add (h : g.Enqueued) (kind : CellKind) (type : Option Ty) (place : Place) :
    (g.add kind type place).2.Enqueued := by
  refine h.of_eq rfl fun m => ?_
  unfold dirtyAt
  rw [cell_add]
  split
  · next hm => rw [cell_of_size_le (Nat.le_of_eq hm.symm)]; rfl
  · rfl

theorem retype (h : g.Enqueued) (hn : n.index < g.size) (t : Ty) : (g.retype n t).Enqueued := by
  refine ⟨?_, fun m => ?_⟩
  · rcases retype_cases g n t with ⟨-, heq⟩ | ⟨-, heq⟩ | ⟨hclean, heq⟩
    · rw [heq]
      exact h.once
    · rw [heq]
      exact h.once
    · rw [heq]
      refine List.nodup_append.mpr ⟨h.once, by simp, fun a ha b hb => ?_⟩
      rintro rfl
      rw [List.mem_singleton.mp hb, h.queued, hclean] at ha
      cases ha
  · rw [queue_retype, dirtyAt_retype, h.queued]
    refine or_congr_right' fun hm => and_congr_right fun hmn => and_congr_left fun _ => ?_
    subst hmn
    simpa [hn] using hm

end Enqueued

end Graph

namespace Store

variable {s s' : Store} {n d : Node} {t : Ty} {wakes : List Wake} {calls : Nat} {act : Act}

theorem enqueued_recompute (h : s.graph.Enqueued) (n : Node) : (s.recompute n).graph.Enqueued := by
  rcases recompute_cases s n with ⟨t, ht, heq⟩ | ⟨-, heq⟩
  · rw [heq]
    exact h.retype (lt_of_combine ht) t
  · rw [heq]
    exact h

theorem enqueued_bind (h : s.graph.Enqueued) (n d : Node) : (s.bind n d).graph.Enqueued := by
  have hlink : (s.graph.link n d).Enqueued := h.of_eq rfl (Graph.dirtyAt_link s.graph n d)
  rw [bind_eq]
  split
  · exact enqueued_recompute (s := ⟨s.catalog, s.graph.link n d⟩) hlink n
  · exact hlink

theorem enqueued_unbind (h : s.graph.Enqueued) (n d : Node) : (s.unbind n d).graph.Enqueued :=
  enqueued_recompute (s := ⟨s.catalog, s.graph.unlink n d⟩)
    (h.of_eq rfl (Graph.dirtyAt_unlink s.graph n d)) n

/-- A node that is taken off the queue is not dirty any more. -/
theorem enqueued_taken {rest : List Node} (h : s.graph.Enqueued)
    (hqueue : s.graph.queue = n :: rest) (budget : Nat) :
    (s.taken n rest budget).graph.Enqueued := by
  have honce := h.once
  rw [hqueue, List.nodup_cons] at honce
  refine ⟨honce.2, fun m => ?_⟩
  show m ∈ rest ↔ _
  by_cases hmn : m = n
  · subst hmn
    refine ⟨fun hm => absurd hm honce.1, fun hd => absurd rfl (dirtyAt_taken hd).1⟩
  · rw [dirtyAt_taken_of_ne hmn, ← h.queued, hqueue, List.mem_cons, or_iff_right hmn]

theorem enqueued_propagate (h : s.graph.Enqueued) (hok : propagate s = .ok wakes s') :
    s'.graph.Enqueued :=
  drain_keeps (fun s => s.graph.Enqueued) (fun _ n h => enqueued_recompute h n)
    (fun _ _ _ budget hqueue h => enqueued_taken h hqueue budget) h hok

theorem enqueued_install (h : s.graph.Enqueued) (template : Ty) (observed : List (String × Node))
    {holder : Node} (hholder : holder.index < s.graph.size) :
    (left (install template observed holder s)).graph.Enqueued := by
  unfold install
  rw [Steps.bind_eq]
  rcases specializationFor_cases s template observed with ⟨target, c, -, heq⟩ | ⟨e, heq⟩
  · rw [heq]
    have hrewatch := watchAll_rewatches s.graph observed ⟨c.size⟩
    exact (h.rewatch hrewatch).retype (hrewatch.size ▸ hholder) _
  · rw [heq]
    exact h

theorem enqueued_refresh (h : s.graph.Enqueued) (hs : s.Contained calls) (t : Ty) (limit : Nat) :
    (left (refresh t limit s)).graph.Enqueued := by
  rcases refresh_left s t limit with heq | ⟨p, former, target, c, hp, -, hc, hleft⟩
  · rw [heq]
    exact h
  · have hholder : p.holder.index < s.graph.size := by
      have hstored := Catalog.Within.shape hs.catalog t
      rw [hp] at hstored
      exact (stores_provisional.mp hstored).2.2.1
    rcases hleft with heq | ⟨-, heq⟩ | heq
    · rw [heq]
      exact h
    · rw [heq]
      exact h
    · rw [heq, supersede_eq]
      exact (h.retype hholder _).rewatch (handOver_rewatches _ _ _ _)

/-! ## Without a failed round -/

/-- Stores that acts on valid handles lead to from the built-in types and an empty graph, if every
round of propagation came to its end. -/
inductive Undisturbed (calls : Nat) : Store → Prop
  | start (limit : Nat) : Undisturbed calls ⟨.seeded, .empty limit⟩
  | step {s : Store} (act : Act) (h : Undisturbed calls s)
      (hact : (s.arenas calls).Stores act.handles)
      (hend : act = .propagate → ∃ wakes s', propagate s = .ok wakes s') :
      Undisturbed calls (act.after s)

theorem Act.enqueued (h : s.graph.Enqueued) (hs : s.Contained calls)
    (hact : (s.arenas calls).Stores act.handles)
    (hend : act = .propagate → ∃ wakes s', Store.propagate s = .ok wakes s') :
    (act.after s).graph.Enqueued := by
  cases act with
  | request r => exact h
  | add kind type place => exact h.add kind type place
  | bind n d => exact enqueued_bind h n d
  | unbind n d => exact enqueued_unbind h n d
  | watch n w => exact h.rewatch (.watch _ n w)
  | unwatch n w => exact h.modify n fun _ => rfl
  | retype n t => exact h.retype (hact (.node n) (by simp [handles])) t
  | overwrite n t => exact h.modify n fun _ => rfl
  | propagate =>
    obtain ⟨wakes, s', hok⟩ := hend rfl
    show (left (Store.propagate s)).graph.Enqueued
    rw [hok]
    exact enqueued_propagate h hok
  | install template observed holder =>
    exact enqueued_install h template observed (hact (.node holder) (by simp [handles]))
  | refresh t limit => exact enqueued_refresh h hs t limit

theorem contained_empty {c : Catalog} (hc : c.Contained 0 calls) (limit : Nat) :
    Store.Contained calls ⟨c, .empty limit⟩ := ⟨hc, .empty limit⟩

theorem Undisturbed.enqueued (h : Undisturbed calls s) :
    s.Contained calls ∧ s.graph.Enqueued := by
  induction h with
  | start limit =>
    exact ⟨contained_empty (Catalog.contained_seeded 0 calls) limit, .empty limit⟩
  | step act _ hact hend ih =>
    exact ⟨(Act.carries ih.1 hact).contained, Act.enqueued ih.2 ih.1 hact hend⟩

end Store

end FlowTyping
