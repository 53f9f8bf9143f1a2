import FlowTyping.Proofs.Flow.Equation

/-
  Operations between rounds

  Adding nodes, watching, binding and unbinding keep a store formed, sound and
  balanced, and so do giving a type to a node without dependencies and letting
  the catalog grow.
-/
namespace FlowTyping.Store

variable {s s' : Store} {due : List Node} {n d : Node}

theorem solved_of_no_dependencies (h : s.graph.dependencies n = []) : s.Solved n := by
  left
  unfold Graph.inputs
  rw [h]
  rfl

/-- Nothing is in an empty graph. -/
theorem formed_start {c : Catalog} (hc : c.Canonical) (limit : Nat) : Formed ⟨c, .empty limit⟩ := by
  refine ⟨hc, .empty limit, fun n t ht => ?_⟩
  have := Graph.lt_size_of_typed ht
  simp [Graph.empty, Graph.size] at this

theorem sound_start {c : Catalog} (hc : c.Sound) (limit : Nat) : Sound ⟨c, .empty limit⟩ :=
  (formed_start hc.canonical limit).sound hc

theorem Sound.extend (h : s.Sound) {c : Catalog} (hg : s.catalog.Grows c) (hc : c.Sound) :
    Sound ⟨c, s.graph⟩ :=
  ⟨hc, h.wired, fun m t ht => Nat.lt_of_lt_of_le (h.typed m t ht) hg.size_le⟩

theorem Balanced.extend (h : s.Balanced due) {c : Catalog} (hg : s.catalog.Grows c) :
    Balanced ⟨c, s.graph⟩ due :=
  fun _ => h.keep (r := ⟨c, s.graph⟩) hg rfl rfl rfl (fun _ hd => hd) (fun _ => .inl rfl)

theorem Formed.add (h : s.Formed) (kind : CellKind) {type : Option Ty} (place : Place)
    (htype : ∀ t, type = some t → t.index < s.catalog.size) :
    Formed ⟨s.catalog, (s.graph.add kind type place).2⟩ := by
  refine ⟨h.canonical, h.wired.add kind type place, fun m t ht => ?_⟩
  have ht' : ((s.graph.add kind type place).2.cell m).type = some t := ht
  rw [Graph.cell_add] at ht'
  split at ht'
  · exact htype t ht'
  · exact h.typed m t ht'

theorem Sound.add (h : s.Sound) (kind : CellKind) {type : Option Ty} (place : Place)
    (htype : ∀ t, type = some t → t.index < s.catalog.size) :
    Sound ⟨s.catalog, (s.graph.add kind type place).2⟩ :=
  (h.formed.add kind place htype).sound h.catalog

theorem Balanced.add (h : s.Balanced due) (kind : CellKind) (type : Option Ty) (place : Place)
    (hs : s.Formed) : Balanced ⟨s.catalog, (s.graph.add kind type place).2⟩ due := by
  intro m
  have hold : ∀ k : Node, k.index ≠ s.graph.size →
      (s.graph.add kind type place).2.cell k = s.graph.cell k := fun k hk => by
    rw [Graph.cell_add, if_neg hk]
  by_cases hm : m.index = s.graph.size
  · left
    refine solved_of_no_dependencies ?_
    show ((s.graph.add kind type place).2.cell m).dependencies = []
    rw [Graph.cell_add, if_pos hm]
  · have hdep : ∀ d ∈ s.graph.dependencies m, d.index ≠ s.graph.size := fun d hd =>
      Nat.ne_of_lt (hs.wired.bounded m d hd)
    unfold Solved Graph.inputs Graph.dependencies Graph.typeAt Graph.dirtyAt
    show Combined s.catalog ((s.graph.add kind type place).2.cell m).kind _ _ ∨ _
    rw [hold m hm, List.filterMap_congr fun d hd => by rw [hold d (hdep d hd)]]
    rcases h m with hsolved | ⟨d, hd, hdd⟩ | hdue
    · exact .inl hsolved
    · exact .inr (.inl ⟨d, hd, by rw [hold d (hdep d hd)]; exact hdd⟩)
    · exact .inr (.inr hdue)

theorem Formed.rewatch (h : s.Formed) {g : Graph} (hg : s.graph.Rewatches g) :
    Formed ⟨s.catalog, g⟩ :=
  ⟨h.canonical, h.wired.rewatch hg, fun m t ht => h.typed m t ((hg.typeAt m).symm.trans ht)⟩

theorem Sound.rewatch (h : s.Sound) {g : Graph} (hg : s.graph.Rewatches g) :
    Sound ⟨s.catalog, g⟩ :=
  (h.formed.rewatch hg).sound h.catalog

theorem Balanced.rewatch (h : s.Balanced due) {g : Graph} (hg : s.graph.Rewatches g) :
    Balanced ⟨s.catalog, g⟩ due :=
  fun m => h.keep (r := ⟨s.catalog, g⟩) (.refl _) (hg.kind m) (hg.dependencies m) (hg.typeAt m)
    (fun d hd => (hg.dirtyAt d).trans hd) (fun d => .inl (hg.typeAt d))

theorem Formed.retype (h : s.Formed) (n : Node) {t : Ty} (ht : t.index < s.catalog.size) :
    Formed ⟨s.catalog, s.graph.retype n t⟩ := by
  refine ⟨h.canonical, h.wired.retype n t, fun m u hu => ?_⟩
  have hu' : (s.graph.retype n t).typeAt m = some u := hu
  rw [Graph.typeAt_retype] at hu'
  split at hu'
  · obtain rfl : t = u := by simpa using hu'
    exact ht
  · exact h.typed m u hu'

theorem Sound.retype (h : s.Sound) (n : Node) {t : Ty} (ht : t.index < s.catalog.size) :
    Sound ⟨s.catalog, s.graph.retype n t⟩ :=
  (h.formed.retype n ht).sound h.catalog

/-- A node without dependencies can be given any type. -/
theorem Balanced.retype (h : s.Balanced due) (hn : s.graph.dependencies n = []) (t : Ty) :
    Balanced ⟨s.catalog, s.graph.retype n t⟩ due := by
  intro m
  by_cases hm : m = n
  · subst hm
    left
    refine solved_of_no_dependencies ?_
    exact (Graph.dependencies_retype _ _ _ _).trans hn
  · refine h.keep (r := ⟨s.catalog, s.graph.retype n t⟩) (.refl _) (Graph.kind_retype _ _ _ _)
      (Graph.dependencies_retype _ _ _ _) ?_ (fun d hd => ?_) (fun d => ?_)
    · show (s.graph.retype n t).typeAt m = _
      rw [Graph.typeAt_retype, if_neg fun h => hm h.1]
    · exact (Graph.dirtyAt_retype _ _ _ _).mpr (.inl hd)
    · exact Graph.typeAt_retype_eq_or_dirty _ _ _ _

/-! ## Binding and unbinding -/

theorem bind_eq (s : Store) (n d : Node) :
    s.bind n d = if (s.graph.typeAt d).isSome then recompute ⟨s.catalog, s.graph.link n d⟩ n
      else ⟨s.catalog, s.graph.link n d⟩ := by
  rw [← Graph.typeAt_link s.graph n d d]
  rfl

theorem unbind_eq (s : Store) (n d : Node) :
    s.unbind n d = recompute ⟨s.catalog, s.graph.unlink n d⟩ n := rfl

theorem size_bind (s : Store) (n d : Node) : (s.bind n d).graph.size = s.graph.size := by
  rw [bind_eq]
  split
  · exact (recompute_flows _ n).size.trans (Graph.size_link s.graph n d)
  · exact Graph.size_link s.graph n d

theorem Formed.link (h : s.Formed) (n : Node) (hd : d.index < s.graph.size) :
    Formed ⟨s.catalog, s.graph.link n d⟩ :=
  ⟨h.canonical, h.wired.link n hd, fun m t ht => h.typed m t ((Graph.typeAt_link ..).symm.trans ht)⟩

theorem Sound.link (h : s.Sound) (n : Node) (hd : d.index < s.graph.size) :
    Sound ⟨s.catalog, s.graph.link n d⟩ :=
  (h.formed.link n hd).sound h.catalog

theorem Formed.unlink (h : s.Formed) (n d : Node) : Formed ⟨s.catalog, s.graph.unlink n d⟩ :=
  ⟨h.canonical, h.wired.unlink n d, fun m t ht =>
    h.typed m t ((Graph.typeAt_unlink ..).symm.trans ht)⟩

theorem Sound.unlink (h : s.Sound) (n d : Node) : Sound ⟨s.catalog, s.graph.unlink n d⟩ :=
  (h.formed.unlink n d).sound h.catalog

/-- A node with another dependency is due. -/
theorem Balanced.link (h : s.Balanced due) (n d : Node) :
    Balanced ⟨s.catalog, s.graph.link n d⟩ (n :: due) := by
  intro m
  by_cases hm : m = n
  · exact .inr (.inr (by rw [hm]; exact List.mem_cons_self))
  · have hdeps : (s.graph.link n d).dependencies m = s.graph.dependencies m := by
      rw [Graph.dependencies_link, if_neg fun h => hm h.1]
    have := h.keep (r := ⟨s.catalog, s.graph.link n d⟩) (.refl _) (Graph.kind_link ..) hdeps
      (Graph.typeAt_link ..) (fun e he => (Graph.dirtyAt_link ..).trans he)
      (fun e => .inl (Graph.typeAt_link ..))
    exact this.imp_right (.imp_right (List.mem_cons_of_mem n))

/-- A dependency without a type is no input. -/
theorem inputs_link_untyped {g : Graph} (n : Node) (hd : g.typeAt d = none) (m : Node) :
    (g.link n d).inputs m = g.inputs m := by
  unfold Graph.inputs
  rw [Graph.dependencies_link, funext (Graph.typeAt_link g n d)]
  split
  · unfold Graph.addOnce
    split
    · rfl
    · rw [List.filterMap_append]
      simp [hd]
  · rfl

/-- A node keeps its equation where another one gets a dependency without a type. -/
theorem Solved.link_untyped {m : Node} (h : s.Solved m) (n : Node) (hd : s.graph.typeAt d = none) :
    Solved ⟨s.catalog, s.graph.link n d⟩ m := by
  show Combined s.catalog ((s.graph.link n d).cell m).kind ((s.graph.link n d).inputs m)
    ((s.graph.link n d).typeAt m)
  rw [Graph.kind_link, inputs_link_untyped n hd, Graph.typeAt_link]
  exact h

/-- A dependency without a type changes no equation. -/
theorem Balanced.link_untyped (h : s.Balanced due) (n : Node) (hd : s.graph.typeAt d = none) :
    Balanced ⟨s.catalog, s.graph.link n d⟩ due := by
  have hdeps : ∀ m e, e ∈ s.graph.dependencies m → e ∈ (s.graph.link n d).dependencies m := by
    intro m e he
    rw [Graph.dependencies_link]
    split
    · exact Graph.mem_addOnce.mpr (.inr he)
    · exact he
  intro m
  rcases h m with hsolved | ⟨e, he, hdirty⟩ | hdue
  · exact .inl (hsolved.link_untyped n hd)
  · exact .inr (.inl ⟨e, hdeps m e he, (Graph.dirtyAt_link ..).trans hdirty⟩)
  · exact .inr (.inr hdue)

theorem Balanced.unlink (h : s.Balanced due) (n d : Node) :
    Balanced ⟨s.catalog, s.graph.unlink n d⟩ (n :: due) := by
  intro m
  by_cases hm : m = n
  · exact .inr (.inr (by rw [hm]; exact List.mem_cons_self))
  · have hdeps : (s.graph.unlink n d).dependencies m = s.graph.dependencies m := by
      rw [Graph.dependencies_unlink, if_neg fun h => hm h.1]
    have := h.keep (r := ⟨s.catalog, s.graph.unlink n d⟩) (.refl _) (Graph.kind_unlink ..) hdeps
      (Graph.typeAt_unlink ..) (fun e he => (Graph.dirtyAt_unlink ..).trans he)
      (fun e => .inl (Graph.typeAt_unlink ..))
    exact this.imp_right (.imp_right (List.mem_cons_of_mem n))

theorem Formed.bind (h : s.Formed) (n : Node) (hd : d.index < s.graph.size) :
    (s.bind n d).Formed := by
  rw [bind_eq]
  split
  · exact (h.link n hd).recompute n
  · exact h.link n hd

theorem Sound.bind (h : s.Sound) (n : Node) (hd : d.index < s.graph.size) : (s.bind n d).Sound := by
  rw [bind_eq]
  split
  · exact (h.link n hd).recompute n
  · exact h.link n hd

theorem Balanced.bind (h : s.Balanced due) (hs : s.Formed) (n : Node)
    (hd : d.index < s.graph.size) : (s.bind n d).Balanced due := by
  rw [bind_eq]
  split
  · exact (h.link n d).recompute (hs.link n hd)
  · next hnone => exact h.link_untyped n (by simpa using hnone)

theorem Formed.unbind (h : s.Formed) (n d : Node) : (s.unbind n d).Formed :=
  (h.unlink n d).recompute n

theorem Sound.unbind (h : s.Sound) (n d : Node) : (s.unbind n d).Sound :=
  (h.unlink n d).recompute n

theorem Balanced.unbind (h : s.Balanced due) (hs : s.Formed) (n d : Node) :
    (s.unbind n d).Balanced due :=
  (h.unlink n d).recompute (hs.unlink n d)

end FlowTyping.Store
