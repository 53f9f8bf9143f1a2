import FlowTyping.Proofs.Flow.Provisional

/-
  Which calls watch

  Only the entry of a call lets it watch nodes. Nothing that is done to a store,
  whether between rounds of propagation or in one, makes a node watched by a
  call that did not watch it before (`Store.Unwatched`).
-/
namespace FlowTyping.Store

/-- Every call that watches a node of `s'` watched that node of `s`. -/
def Unwatched (s s' : Store) : Prop :=
  ∀ n site, .site site ∈ (s'.graph.cell n).watchers → .site site ∈ (s.graph.cell n).watchers

variable {s s' s'' : Store} {n d : Node} {t : Ty}

namespace Unwatched

theorem refl (s : Store) : s.Unwatched s := fun _ _ h => h

theorem trans (h₁ : s.Unwatched s') (h₂ : s'.Unwatched s'') : s.Unwatched s'' :=
  fun n site h => h₁ n site (h₂ n site h)

theorem of_watchers_eq (h : ∀ n, (s'.graph.cell n).watchers = (s.graph.cell n).watchers) :
    s.Unwatched s' :=
  fun n _ hw => h n ▸ hw

theorem of_flows (h : s.Flows s') : s.Unwatched s' := of_watchers_eq h.watchers

theorem add (s : Store) (kind : CellKind) (type : Option Ty) (place : Place) :
    s.Unwatched ⟨s.catalog, (s.graph.add kind type place).2⟩ := by
  intro m site h
  rw [Graph.cell_add] at h
  split at h
  · cases h
  · exact h

theorem bind (s : Store) (n d : Node) : s.Unwatched (s.bind n d) := by
  have hlink : s.Unwatched ⟨s.catalog, s.graph.link n d⟩ := by
    intro m site h
    rw [Graph.watchers_link] at h
    split at h
    · exact (Graph.mem_addOnce.mp h).resolve_left fun h => by cases h
    · exact h
  rw [bind_eq]
  split
  · exact hlink.trans (of_flows (recompute_flows _ n))
  · exact hlink

theorem unbind (s : Store) (n d : Node) : s.Unwatched (s.unbind n d) := by
  have hunlink : s.Unwatched ⟨s.catalog, s.graph.unlink n d⟩ := by
    intro m site h
    rw [Graph.watchers_unlink] at h
    split at h
    · exact (List.mem_filter.mp h).1
    · exact h
  rw [unbind_eq]
  exact hunlink.trans (of_flows (recompute_flows _ n))

end Unwatched

/-! ## Provisional types -/

/-- Watching for provisional types lets no call watch. -/
theorem site_of_watch {g : Graph} {m : Node} {site : Site}
    (h : .site site ∈ ((g.watch n (.provisional t)).cell m).watchers) :
    .site site ∈ (g.cell m).watchers := by
  unfold Graph.watch at h
  rw [Graph.cell_modify] at h
  split at h
  · exact (Graph.mem_addOnce.mp h).resolve_left fun h => by cases h
  · exact h

theorem site_of_unwatch {g : Graph} {m : Node} {w : Watcher} {site : Site}
    (h : .site site ∈ ((g.unwatch n w).cell m).watchers) : .site site ∈ (g.cell m).watchers := by
  unfold Graph.unwatch at h
  rw [Graph.cell_modify] at h
  split at h
  · exact (List.mem_filter.mp h).1
  · exact h

theorem site_of_watchAll {g : Graph} {observed : List (String × Node)} {m : Node} {site : Site}
    (h : .site site ∈ ((watchAll g observed t).cell m).watchers) :
    .site site ∈ (g.cell m).watchers := by
  unfold watchAll at h
  induction observed generalizing g with
  | nil => exact h
  | cons b observed ih => exact site_of_watch (ih h)

theorem site_of_handOver {g : Graph} {observed : List (String × Node)} {former successor : Ty}
    {m : Node} {site : Site}
    (h : .site site ∈ ((handOver g observed former successor).cell m).watchers) :
    .site site ∈ (g.cell m).watchers := by
  unfold handOver at h
  induction observed generalizing g with
  | nil => exact h
  | cons b observed ih => exact site_of_unwatch (site_of_watch (ih h))

theorem Unwatched.install {template : Ty} {observed : List (String × Node)} {holder : Node}
    (h : Store.install template observed holder s = .ok t s') : s.Unwatched s' := by
  obtain ⟨target, c, -, rfl, rfl⟩ := install_ok h
  intro m site hw
  rw [Graph.watchers_retype] at hw
  exact site_of_watchAll hw

theorem Unwatched.refresh {limit : Nat} {u : Unit} (h : Store.refresh t limit s = .ok u s') :
    s.Unwatched s' := by
  obtain ⟨p, -, ⟨-, rfl⟩ | ⟨former, target, c, -, -, ⟨-, rfl⟩ | ⟨-, rfl⟩⟩⟩ := refresh_ok h
  · exact .refl _
  · exact fun m site hw => hw
  · intro m site hw
    have hw := site_of_handOver hw
    rwa [Graph.watchers_retype] at hw

end FlowTyping.Store
