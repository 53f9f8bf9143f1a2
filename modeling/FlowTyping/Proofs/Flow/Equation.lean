import Mathlib.Data.List.Basic
import FlowTyping.Proofs.Flow.Combine
import FlowTyping.Proofs.Flow.Graph

/-
  The equation of a node

  The equation of a node is solved if its type was combined from the types that
  its dependencies have now. `Store.Balanced` is the invariant of propagation:
  every equation is solved, or a dependency of the node is dirty, or the node is
  one of those that are still due to be recomputed. Recomputing a node takes it
  off that list (`Balanced.recompute`), even if the node depends on itself.
-/
namespace FlowTyping.Store

/-- What the flow of types relies on, whatever the entries of the catalog mention. -/
structure Formed (s : Store) : Prop where
  canonical : s.catalog.Canonical
  wired : s.graph.Wired
  typed : ∀ n t, s.graph.typeAt n = some t → t.index < s.catalog.size

/-- What holds of every store, however its graph is settled. -/
structure Sound (s : Store) : Prop where
  catalog : s.catalog.Sound
  wired : s.graph.Wired
  typed : ∀ n t, s.graph.typeAt n = some t → t.index < s.catalog.size

theorem Sound.formed {s : Store} (h : s.Sound) : s.Formed := ⟨h.catalog.canonical, h.wired, h.typed⟩

theorem Formed.sound {s : Store} (h : s.Formed) (hc : s.catalog.Sound) : s.Sound :=
  ⟨hc, h.wired, h.typed⟩

/-- The type of `n` was combined from the types that its dependencies have. -/
def Solved (s : Store) (n : Node) : Prop :=
  Combined s.catalog (s.graph.cell n).kind (s.graph.inputs n) (s.graph.typeAt n)

/-- Every equation is solved, or a dependency of the node is dirty, or the node is due. -/
def Balanced (s : Store) (due : List Node) : Prop :=
  ∀ n, s.Solved n ∨ (∃ d ∈ s.graph.dependencies n, s.graph.dirtyAt d = true) ∨ n ∈ due

/-- What the flow of types does to a store: the catalog is extended and nodes get types. Those
without dependencies keep theirs. -/
structure Flows (s s' : Store) : Prop where
  catalog : s.catalog.Extends s'.catalog
  size : s'.graph.size = s.graph.size
  kind : ∀ n, (s'.graph.cell n).kind = (s.graph.cell n).kind
  dependencies : ∀ n, s'.graph.dependencies n = s.graph.dependencies n
  watchers : ∀ n, (s'.graph.cell n).watchers = (s.graph.cell n).watchers
  typed : ∀ n, (s.graph.typeAt n).isSome → (s'.graph.typeAt n).isSome
  held : ∀ n, s.graph.dependencies n = [] → s'.graph.typeAt n = s.graph.typeAt n

namespace Flows

variable {s s' s'' : Store}

theorem refl (s : Store) : s.Flows s :=
  ⟨.refl _, rfl, fun _ => rfl, fun _ => rfl, fun _ => rfl, fun _ h => h, fun _ _ => rfl⟩

theorem trans (h₁ : s.Flows s') (h₂ : s'.Flows s'') : s.Flows s'' where
  catalog := h₁.catalog.trans h₂.catalog
  size := h₂.size.trans h₁.size
  kind n := (h₂.kind n).trans (h₁.kind n)
  dependencies n := (h₂.dependencies n).trans (h₁.dependencies n)
  watchers n := (h₂.watchers n).trans (h₁.watchers n)
  typed n h := h₂.typed n (h₁.typed n h)
  held n h := (h₂.held n ((h₁.dependencies n).trans h)).trans (h₁.held n h)

end Flows

variable {s s' : Store} {due : List Node} {n : Node}

theorem mem_inputs {t : Ty} :
    t ∈ s.graph.inputs n ↔ ∃ d ∈ s.graph.dependencies n, s.graph.typeAt d = some t := by
  unfold Graph.inputs
  rw [List.mem_filterMap]

theorem Formed.inputs_lt (h : s.Formed) : ∀ t ∈ s.graph.inputs n, t.index < s.catalog.size := by
  intro t ht
  obtain ⟨d, -, hd⟩ := mem_inputs.mp ht
  exact h.typed d t hd

/-- The equation of a node that keeps its type and dependencies stays as it was, if a dependency
with another type than before is dirty. -/
theorem Balanced.keep {r : Store} (h : s.Balanced due) (hg : s.catalog.Grows r.catalog)
    (hkind : (r.graph.cell n).kind = (s.graph.cell n).kind)
    (hdeps : r.graph.dependencies n = s.graph.dependencies n)
    (htype : r.graph.typeAt n = s.graph.typeAt n)
    (hdirty : ∀ d, s.graph.dirtyAt d = true → r.graph.dirtyAt d = true)
    (htypes : ∀ d, r.graph.typeAt d = s.graph.typeAt d ∨ r.graph.dirtyAt d = true) :
    r.Solved n ∨ (∃ d ∈ r.graph.dependencies n, r.graph.dirtyAt d = true) ∨ n ∈ due := by
  rw [hdeps]
  rcases h n with hsolved | ⟨d, hd, hdd⟩ | hdue
  · by_cases hsame : ∀ d ∈ s.graph.dependencies n, r.graph.typeAt d = s.graph.typeAt d
    · left
      have hin : r.graph.inputs n = s.graph.inputs n := by
        unfold Graph.inputs
        rw [hdeps]
        exact List.filterMap_congr hsame
      unfold Solved
      rw [hkind, hin, htype]
      exact hsolved.grow hg
    · -- a dependency whose type is another one is dirty
      right; left
      obtain ⟨d, hd⟩ := Classical.not_forall.mp hsame
      obtain ⟨hd, hne⟩ := Classical.not_imp.mp hd
      exact ⟨d, hd, (htypes d).resolve_left hne⟩
  · exact .inr (.inl ⟨d, hd, hdirty d hdd⟩)
  · exact .inr (.inr hdue)

/-! ## Recomputing a node -/

/-- What recomputing can do: the catalog takes in what was combined, and the node gets its type if
there is one. -/
theorem recompute_cases (s : Store) (n : Node) :
    (∃ t, (combine s.catalog (s.graph.cell n).kind (s.graph.inputs n)).1 = some t ∧
      s.recompute n = ⟨(combine s.catalog (s.graph.cell n).kind (s.graph.inputs n)).2,
        s.graph.retype n t⟩) ∨
    ((combine s.catalog (s.graph.cell n).kind (s.graph.inputs n)).1 = none ∧
      s.recompute n = ⟨(combine s.catalog (s.graph.cell n).kind (s.graph.inputs n)).2, s.graph⟩) := by
  unfold recompute
  rcases combine s.catalog (s.graph.cell n).kind (s.graph.inputs n) with ⟨_ | t, c⟩
  · exact .inr ⟨rfl, rfl⟩
  · exact .inl ⟨t, rfl, rfl⟩

/-- Without a typed dependency a node stays as it is. -/
theorem recompute_of_inputs_nil (h : s.graph.inputs n = []) : s.recompute n = s := by
  unfold recompute
  rw [h]
  cases (s.graph.cell n).kind <;> rfl

theorem budget_retype (g : Graph) (n : Node) (t : Ty) :
    (g.retype n t).budget = g.budget ∧ (g.retype n t).limit = g.limit := by
  unfold Graph.retype
  split
  · exact ⟨rfl, rfl⟩
  · split <;> exact ⟨rfl, rfl⟩

theorem budget_recompute (s : Store) (n : Node) :
    (s.recompute n).graph.budget = s.graph.budget ∧
      (s.recompute n).graph.limit = s.graph.limit := by
  rcases recompute_cases s n with ⟨t, -, heq⟩ | ⟨-, heq⟩
  · rw [heq]
    exact budget_retype s.graph n t
  · rw [heq]
    exact ⟨rfl, rfl⟩

theorem catalog_recompute (s : Store) (n : Node) :
    (s.recompute n).catalog = (combine s.catalog (s.graph.cell n).kind (s.graph.inputs n)).2 := by
  rcases recompute_cases s n with ⟨t, -, heq⟩ | ⟨-, heq⟩ <;> rw [heq]

theorem recompute_flows (s : Store) (n : Node) : s.Flows (s.recompute n) := by
  have hext := combine_extends s.catalog (s.graph.cell n).kind (s.graph.inputs n)
  rcases recompute_cases s n with ⟨t, ht, heq⟩ | ⟨-, heq⟩
  · rw [heq]
    refine ⟨hext, Graph.size_retype _ _ _, fun m => Graph.kind_retype _ _ _ _,
      fun m => Graph.dependencies_retype _ _ _ _, fun m => Graph.watchers_retype _ _ _ _,
      fun m hm => ?_, fun m hm => ?_⟩
    · show ((s.graph.retype n t).typeAt m).isSome
      rw [Graph.typeAt_retype]
      split
      · rfl
      · exact hm
    · show (s.graph.retype n t).typeAt m = _
      rw [Graph.typeAt_retype, if_neg]
      rintro ⟨rfl, -⟩
      -- a node without dependencies has no inputs
      rw [Graph.inputs, hm] at ht
      cases hk : (s.graph.cell m).kind <;> rw [hk] at ht <;> cases ht
  · rw [heq]
    exact ⟨hext, rfl, fun _ => rfl, fun _ => rfl, fun _ => rfl, fun _ h => h, fun _ _ => rfl⟩

theorem dirtyAt_recompute {d : Node} (h : s.graph.dirtyAt d = true) :
    (s.recompute n).graph.dirtyAt d = true := by
  rcases recompute_cases s n with ⟨t, -, heq⟩ | ⟨-, heq⟩
  · rw [heq]
    exact (Graph.dirtyAt_retype s.graph n d t).mpr (.inl h)
  · rw [heq]
    exact h

theorem typeAt_recompute_eq_or_dirty (s : Store) (n d : Node) :
    (s.recompute n).graph.typeAt d = s.graph.typeAt d ∨
      (s.recompute n).graph.dirtyAt d = true := by
  rcases recompute_cases s n with ⟨t, -, heq⟩ | ⟨-, heq⟩
  · rw [heq]
    exact Graph.typeAt_retype_eq_or_dirty s.graph n d t
  · rw [heq]
    exact .inl rfl

/-- Recomputing changes the type of one node at most. -/
theorem typeAt_recompute_of_ne {d : Node} (h : d ≠ n) :
    (s.recompute n).graph.typeAt d = s.graph.typeAt d := by
  rcases recompute_cases s n with ⟨t, -, heq⟩ | ⟨-, heq⟩
  · rw [heq]
    show (s.graph.retype n t).typeAt d = _
    rw [Graph.typeAt_retype, if_neg fun hd => h hd.1]
  · rw [heq]

theorem Formed.recompute (h : s.Formed) (n : Node) : (s.recompute n).Formed := by
  have hcan := combine_canonical h.canonical (h.inputs_lt (n := n)) (s.graph.cell n).kind
  have hgrow := (combine_extends s.catalog (s.graph.cell n).kind (s.graph.inputs n)).toGrows
  rcases recompute_cases s n with ⟨t, ht, heq⟩ | ⟨-, heq⟩
  · rw [heq]
    refine ⟨hcan, h.wired.retype n t, fun m u hu => ?_⟩
    have hu' : (s.graph.retype n t).typeAt m = some u := hu
    rw [Graph.typeAt_retype] at hu'
    split at hu'
    · obtain rfl : t = u := by simpa using hu'
      exact combine_lt_size h.canonical h.inputs_lt ht
    · exact Nat.lt_of_lt_of_le (h.typed m u hu') hgrow.size_le
  · rw [heq]
    exact ⟨hcan, h.wired, fun m u hu => Nat.lt_of_lt_of_le (h.typed m u hu) hgrow.size_le⟩

theorem Sound.recompute (h : s.Sound) (n : Node) : (s.recompute n).Sound := by
  refine (h.formed.recompute n).sound ?_
  rw [catalog_recompute]
  exact combine_sound h.catalog h.formed.inputs_lt (s.graph.cell n).kind

/-- The type of a node that has been recomputed was combined from the types that its dependencies
had before. -/
theorem Formed.combined_recompute (h : s.Formed) (hn : n.index < s.graph.size) :
    Combined (s.recompute n).catalog (s.graph.cell n).kind (s.graph.inputs n)
      ((s.recompute n).graph.typeAt n) := by
  rw [catalog_recompute]
  refine .of_combine h.canonical h.inputs_lt fun u hu => ?_
  rcases recompute_cases s n with ⟨t, ht, heq⟩ | ⟨hnone, -⟩
  · rw [heq]
    show (s.graph.retype n t).typeAt n = _
    rw [Graph.typeAt_retype, if_pos ⟨rfl, hn⟩, ← ht, hu]
  · rw [hnone] at hu
    cases hu

/-- A node that has been recomputed is solved, unless it depends on itself and is dirty. -/
theorem Formed.solved_recompute (h : s.Formed) (n : Node) :
    (s.recompute n).Solved n ∨
      ∃ d ∈ (s.recompute n).graph.dependencies n, (s.recompute n).graph.dirtyAt d = true := by
  have hflow := recompute_flows s n
  -- a node that depends on itself may have changed its own inputs
  by_cases hsame : ∀ d ∈ s.graph.dependencies n,
      (s.recompute n).graph.typeAt d = s.graph.typeAt d
  · left
    have hin : (s.recompute n).graph.inputs n = s.graph.inputs n := by
      unfold Graph.inputs
      rw [hflow.dependencies]
      exact List.filterMap_congr hsame
    unfold Solved
    rw [hflow.kind, hin]
    by_cases hn : n.index < s.graph.size
    · exact h.combined_recompute hn
    · left
      unfold Graph.inputs Graph.dependencies
      rw [Graph.cell_of_size_le (Nat.le_of_not_lt hn)]
      rfl
  · right
    obtain ⟨d, hd⟩ := Classical.not_forall.mp hsame
    obtain ⟨hd, hne⟩ := Classical.not_imp.mp hd
    exact ⟨d, by rw [hflow.dependencies]; exact hd,
      (typeAt_recompute_eq_or_dirty s n d).resolve_left hne⟩

/-- A node that has been recomputed is no longer due. -/
theorem Balanced.recompute (h : s.Balanced (n :: due)) (hs : s.Formed) :
    (s.recompute n).Balanced due := by
  intro m
  have hflow := recompute_flows s n
  by_cases hm : m = n
  · subst hm
    exact (hs.solved_recompute m).imp_right .inl
  · have := h.keep (r := s.recompute n) hflow.catalog.toGrows (hflow.kind m) (hflow.dependencies m)
      (typeAt_recompute_of_ne hm) (fun _ => dirtyAt_recompute) (typeAt_recompute_eq_or_dirty s n)
    exact this.imp_right (.imp_right fun hd => (List.mem_cons.mp hd).resolve_left hm)

end FlowTyping.Store
