import FlowTyping.Proofs.Flow.Provisional

/-
  Work between rounds of propagation

  Between two rounds a store only advances: nodes are added, the catalog is
  extended, and a node that gets another type than it had is dirty. Of the nodes
  that were there, only some are free to get other dependencies, and the others
  keep their type as long as they have none (`Store.Advances`).
-/
namespace FlowTyping.Store

open Catalog

/-- What work between rounds does to a store, of whose nodes those in `free` may be bound. -/
structure Advances (free : Node → Prop) (s s' : Store) : Prop where
  sound : s'.Sound
  balanced : s'.Balanced []
  catalog : s.catalog.Extends s'.catalog
  size : s.graph.size ≤ s'.graph.size
  kind : ∀ n, n.index < s.graph.size → (s'.graph.cell n).kind = (s.graph.cell n).kind
  watchers : ∀ n site, .site site ∈ (s.graph.cell n).watchers →
    .site site ∈ (s'.graph.cell n).watchers
  dirty : ∀ n, s.graph.dirtyAt n = true → s'.graph.dirtyAt n = true
  types : ∀ n, n.index < s.graph.size →
    s'.graph.typeAt n = s.graph.typeAt n ∨ s'.graph.dirtyAt n = true
  dependencies : ∀ n, n.index < s.graph.size → ¬ free n →
    s'.graph.dependencies n = s.graph.dependencies n
  held : ∀ n, n.index < s.graph.size → ¬ free n → s.graph.dependencies n = [] →
    s'.graph.typeAt n = s.graph.typeAt n

variable {s s' s'' : Store} {free : Node → Prop} {n d : Node}

namespace Advances

theorem refl (hs : s.Sound) (hb : s.Balanced []) : s.Advances free s :=
  ⟨hs, hb, .refl _, Nat.le_refl _, fun _ _ => rfl, fun _ _ h => h, fun _ h => h,
    fun _ _ => .inl rfl, fun _ _ _ => rfl, fun _ _ _ _ => rfl⟩

theorem trans (h₁ : s.Advances free s') (h₂ : s'.Advances free s'') : s.Advances free s'' where
  sound := h₂.sound
  balanced := h₂.balanced
  catalog := h₁.catalog.trans h₂.catalog
  size := Nat.le_trans h₁.size h₂.size
  kind n hn := (h₂.kind n (Nat.lt_of_lt_of_le hn h₁.size)).trans (h₁.kind n hn)
  watchers n site h := h₂.watchers n site (h₁.watchers n site h)
  dirty n h := h₂.dirty n (h₁.dirty n h)
  types n hn := by
    rcases h₁.types n hn with heq | hd
    · rw [← heq]
      exact h₂.types n (Nat.lt_of_lt_of_le hn h₁.size)
    · exact .inr (h₂.dirty n hd)
  dependencies n hn hf :=
    (h₂.dependencies n (Nat.lt_of_lt_of_le hn h₁.size) hf).trans (h₁.dependencies n hn hf)
  held n hn hf hd :=
    (h₂.held n (Nat.lt_of_lt_of_le hn h₁.size) hf ((h₁.dependencies n hn hf).trans hd)).trans
      (h₁.held n hn hf hd)

theorem weaken {free' : Node → Prop} (h : s.Advances free s') (hf : ∀ n, free n → free' n) :
    s.Advances free' s' :=
  ⟨h.sound, h.balanced, h.catalog, h.size, h.kind, h.watchers, h.dirty, h.types,
    fun n hn hn' => h.dependencies n hn fun hf' => hn' (hf n hf'),
    fun n hn hn' => h.held n hn fun hf' => hn' (hf n hf')⟩

/-- Nodes without watchers and dependencies can be added. -/
theorem add (hs : s.Sound) (hb : s.Balanced []) (kind : CellKind) {type : Option Ty} (place : Place)
    (htype : ∀ t, type = some t → t.index < s.catalog.size) :
    s.Advances free ⟨s.catalog, (s.graph.add kind type place).2⟩ := by
  have hold : ∀ m : Node, m.index < s.graph.size →
      (s.graph.add kind type place).2.cell m = s.graph.cell m := fun m hm => by
    rw [Graph.cell_add, if_neg (Nat.ne_of_lt hm)]
  refine ⟨hs.add kind place htype, hb.add kind type place hs.formed, .refl _, ?_, fun m hm => ?_,
    fun m site h => ?_, fun m h => ?_, fun m hm => .inl ?_, fun m hm _ => ?_, fun m hm _ _ => ?_⟩
  · show s.graph.size ≤ (s.graph.add kind type place).2.size
    rw [Graph.size_add]
    exact Nat.le_succ _
  · exact congrArg Cell.kind (hold m hm)
  · have hm : m.index < s.graph.size := by
      refine Nat.lt_of_not_le fun hle => ?_
      rw [Graph.cell_of_size_le hle] at h
      cases h
    rw [show (Store.graph ⟨s.catalog, (s.graph.add kind type place).2⟩).cell m = _ from hold m hm]
    exact h
  · have hm := Graph.lt_size_of_dirty h
    exact (congrArg Cell.dirty (hold m hm)).trans h
  · exact congrArg Cell.type (hold m hm)
  · exact congrArg Cell.dependencies (hold m hm)
  · exact congrArg Cell.type (hold m hm)

theorem extend (hs : s.Sound) (hb : s.Balanced []) {c : Catalog} (hext : s.catalog.Extends c)
    (hc : c.Sound) : s.Advances free ⟨c, s.graph⟩ :=
  ⟨hs.extend hext.toGrows hc, hb.extend hext.toGrows, hext, Nat.le_refl _, fun _ _ => rfl,
    fun _ _ h => h, fun _ h => h, fun _ _ => .inl rfl, fun _ _ _ => rfl, fun _ _ _ _ => rfl⟩

theorem rewatch (hs : s.Sound) (hb : s.Balanced []) {g : Graph} (hg : s.graph.Rewatches g) :
    s.Advances free ⟨s.catalog, g⟩ :=
  ⟨hs.rewatch hg, hb.rewatch hg, .refl _, Nat.le_of_eq hg.size.symm, fun m _ => hg.kind m,
    fun m _ h => hg.kept m _ h fun _ => by simp, fun m h => (hg.dirtyAt m).trans h,
    fun m _ => .inl (hg.typeAt m), fun m _ _ => hg.dependencies m, fun m _ _ _ => hg.typeAt m⟩

/-- What a link or its removal leaves to be done is done by recomputing the node. -/
theorem recompute {g : Graph} (hs : Sound ⟨s.catalog, g⟩) (hb : Balanced ⟨s.catalog, g⟩ [n])
    (hsize : g.size = s.graph.size) (hkind : ∀ m, (g.cell m).kind = (s.graph.cell m).kind)
    (hwatchers : ∀ m site, .site site ∈ (s.graph.cell m).watchers →
      .site site ∈ (g.cell m).watchers)
    (hdirty : ∀ m, g.dirtyAt m = s.graph.dirtyAt m) (htype : ∀ m, g.typeAt m = s.graph.typeAt m)
    (hdeps : ∀ m, m ≠ n → g.dependencies m = s.graph.dependencies m) :
    s.Advances (· = n) (recompute ⟨s.catalog, g⟩ n) := by
  have hflow := recompute_flows ⟨s.catalog, g⟩ n
  refine ⟨hs.recompute n, hb.recompute hs.formed, hflow.catalog, Nat.le_of_eq (hflow.size.trans hsize).symm,
    fun m _ => (hflow.kind m).trans (hkind m), fun m site h => ?_, fun m h => ?_, fun m _ => ?_,
    fun m _ hm => (hflow.dependencies m).trans (hdeps m hm), fun m _ hm _ => ?_⟩
  · rw [hflow.watchers]
    exact hwatchers m site h
  · exact dirtyAt_recompute ((hdirty m).trans h)
  · rw [← htype m]
    exact typeAt_recompute_eq_or_dirty ⟨s.catalog, g⟩ n m
  · exact (typeAt_recompute_of_ne (s := ⟨s.catalog, g⟩) hm).trans (htype m)

theorem bind (hs : s.Sound) (hb : s.Balanced []) (n : Node) (hd : d.index < s.graph.size) :
    s.Advances (· = n) (s.bind n d) := by
  have hdeps : ∀ m, m ≠ n → (s.graph.link n d).dependencies m = s.graph.dependencies m :=
    fun m hm => by rw [Graph.dependencies_link, if_neg fun h => hm h.1]
  have hwatchers : ∀ m site, .site site ∈ (s.graph.cell m).watchers →
      .site site ∈ ((s.graph.link n d).cell m).watchers := by
    intro m site h
    rw [Graph.watchers_link]
    split
    · exact Graph.mem_addOnce.mpr (.inr h)
    · exact h
  rw [bind_eq]
  split
  · exact recompute (hs.link n hd) (hb.link n d) (Graph.size_link ..) (Graph.kind_link _ _ _)
      hwatchers (Graph.dirtyAt_link _ _ _) (Graph.typeAt_link _ _ _) hdeps
  · next hnone =>
    exact ⟨hs.link n hd, hb.link_untyped n (by simpa using hnone), .refl _,
      Nat.le_of_eq (Graph.size_link ..).symm, fun m _ => Graph.kind_link .., hwatchers,
      fun m h => (Graph.dirtyAt_link ..).trans h, fun m _ => .inl (Graph.typeAt_link ..),
      fun m _ hm => hdeps m hm, fun m _ _ _ => Graph.typeAt_link ..⟩

theorem unbind (hs : s.Sound) (hb : s.Balanced []) (n d : Node) :
    s.Advances (· = n) (s.unbind n d) := by
  rw [unbind_eq]
  refine recompute (hs.unlink n d) (hb.unlink n d) (Graph.size_unlink ..) (Graph.kind_unlink _ _ _)
    (fun m site h => ?_) (Graph.dirtyAt_unlink _ _ _) (Graph.typeAt_unlink _ _ _) fun m hm => ?_
  · rw [Graph.watchers_unlink]
    split
    · exact List.mem_filter.mpr ⟨h, by simp⟩
    · exact h
  · rw [Graph.dependencies_unlink, if_neg fun h => hm h.1]

end Advances

theorem bind_steady (s : Store) (n d : Node) : s.catalog.Steady (s.bind n d).catalog := by
  rw [bind_eq]
  split
  · rw [show (recompute ⟨s.catalog, s.graph.link n d⟩ n).catalog = _ from catalog_recompute _ _]
    exact combine_steady _ _ _
  · exact .refl _

theorem unbind_steady (s : Store) (n d : Node) : s.catalog.Steady (s.unbind n d).catalog := by
  rw [unbind_eq, catalog_recompute]
  exact combine_steady _ _ _

/-- Binding adds one dependency. -/
theorem mem_dependencies_bind {m e : Node} (hn : n.index < s.graph.size) :
    e ∈ (s.bind n d).graph.dependencies m ↔ e ∈ s.graph.dependencies m ∨ (m = n ∧ e = d) := by
  have hlink : (s.bind n d).graph.dependencies m = (s.graph.link n d).dependencies m := by
    rw [bind_eq]
    split
    · exact (recompute_flows _ n).dependencies m
    · rfl
  rw [hlink, Graph.dependencies_link]
  by_cases hm : m = n
  · rw [if_pos ⟨hm, hn⟩, Graph.mem_addOnce, or_comm]
    simp [hm]
  · rw [if_neg fun h => hm h.1]
    simp [hm]

/-- Unbinding takes one dependency away. -/
theorem mem_dependencies_unbind {m e : Node} (hn : n.index < s.graph.size) :
    e ∈ (s.unbind n d).graph.dependencies m ↔ e ∈ s.graph.dependencies m ∧ ¬ (m = n ∧ e = d) := by
  rw [unbind_eq, (recompute_flows _ n).dependencies]
  show e ∈ (s.graph.unlink n d).dependencies m ↔ _
  rw [Graph.dependencies_unlink]
  by_cases hm : m = n
  · rw [if_pos ⟨hm, hn⟩, List.mem_filter]
    simp [hm]
  · rw [if_neg fun h => hm h.1]
    simp [hm]

end FlowTyping.Store
