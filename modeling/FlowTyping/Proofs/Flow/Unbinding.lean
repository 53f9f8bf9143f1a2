import FlowTyping.Proofs.Flow.Dropping
import FlowTyping.Proofs.Flow.Fixpoint

/-
  Unbinding

  A node that ceases to depend on another one is computed again from what it
  still depends on. It then has exactly the type that a new node of its kind gets
  when it is bound to the same nodes (`Forgets`). Two things it does not forget.
  Without a typed dependency the node keeps its type, for there is no way back
  to a node without one. And a node that depends on itself keeps itself up.

  So binding a node to another one and unbinding it again leaves no trace in the
  graph, but for the type of the node in these two cases, and where a change of
  a dependency was pending, which the node then learns of (`Restores`).
-/
namespace FlowTyping

open Steps

namespace Graph

variable {g g' : Graph} {n d m : Node}

/-- The nodes that watch a node are those that depend on it. -/
def Mirrored (g : Graph) : Prop := ∀ n d, .node n ∈ (g.cell d).watchers ↔ d ∈ g.dependencies n

namespace Mirrored

theorem of_eq (h : g.Mirrored) (hdeps : ∀ n, g'.dependencies n = g.dependencies n)
    (hwatchers : ∀ n, (g'.cell n).watchers = (g.cell n).watchers) : g'.Mirrored := fun n d => by
  rw [hdeps, hwatchers]
  exact h n d

theorem empty (limit : Nat) : (Graph.empty limit).Mirrored := by
  intro n d
  rw [dependencies, cell_of_size_le (Nat.zero_le _), cell_of_size_le (Nat.zero_le _)]
  exact ⟨fun h => (by cases h), fun h => (by cases h)⟩

theorem add (h : g.Mirrored) (kind : CellKind) (type : Option Ty) (place : Place) :
    (g.add kind type place).2.Mirrored := by
  have hdeps : ∀ n, (g.add kind type place).2.dependencies n = g.dependencies n := fun n => by
    unfold dependencies
    rw [cell_add]
    split
    · next hn => rw [cell_of_size_le (Nat.le_of_eq hn.symm)]; rfl
    · rfl
  have hwatchers : ∀ n, ((g.add kind type place).2.cell n).watchers = (g.cell n).watchers :=
    fun n => by
      rw [cell_add]
      split
      · next hn => rw [cell_of_size_le (Nat.le_of_eq hn.symm)]; rfl
      · rfl
  exact h.of_eq hdeps hwatchers

theorem link (h : g.Mirrored) (hn : n.index < g.size) (hd : d.index < g.size) :
    (g.link n d).Mirrored := by
  intro m e
  rw [watchers_link, dependencies_link]
  by_cases hm : m = n <;> by_cases he : e = d <;>
    simp [hm, he, hn, hd, mem_addOnce, h m e, h n e, h m d, h n d]

theorem unlink (h : g.Mirrored) (hn : n.index < g.size) (hd : d.index < g.size) :
    (g.unlink n d).Mirrored := by
  intro m e
  rw [watchers_unlink, dependencies_unlink]
  by_cases hm : m = n <;> by_cases he : e = d <;>
    simp [hm, he, hn, hd, h m e, h n e, h m d, h n d]

end Mirrored

/-- Unlinking what was not linked before gives back the dependencies. -/
theorem dependencies_relink (hn : n.index < g.size) (hd : d ∉ g.dependencies n) (m : Node) :
    ((g.link n d).unlink n d).dependencies m = g.dependencies m := by
  rw [dependencies_unlink, size_link, dependencies_link]
  by_cases hm : m = n
  · subst hm
    have hkeep : ∀ e ∈ g.dependencies m, (e != d) = true := fun e he => by
      simpa using fun heq : e = d => hd (heq ▸ he)
    rw [if_pos ⟨rfl, hn⟩, if_pos ⟨rfl, hn⟩, addOnce, if_neg (by simpa using hd),
      List.filter_append, List.filter_eq_self.mpr hkeep]
    simp
  · rw [if_neg fun h => hm h.1, if_neg fun h => hm h.1]

/-- Unlinking what was not linked before gives back the watchers. -/
theorem watchers_relink (hd : d.index < g.size) (hw : .node n ∉ (g.cell d).watchers) (m : Node) :
    (((g.link n d).unlink n d).cell m).watchers = (g.cell m).watchers := by
  rw [watchers_unlink, size_link, watchers_link]
  by_cases hm : m = d
  · subst hm
    have hkeep : ∀ w ∈ (g.cell m).watchers, (w != .node n) = true := fun w h => by
      simpa using fun heq : w = .node n => hw (heq ▸ h)
    rw [if_pos ⟨rfl, hd⟩, if_pos ⟨rfl, hd⟩, addOnce, if_neg (by simpa using hw),
      List.filter_append, List.filter_eq_self.mpr hkeep]
    simp
  · rw [if_neg fun h => hm h.1, if_neg fun h => hm h.1]

end Graph

namespace Store

variable {s s' r : Store} {n d e m : Node} {t : Ty} {place : Place} {ds : List Node}

theorem inputs_ne_nil (hd : d ∈ s.graph.dependencies n) (h : (s.graph.typeAt d).isSome) :
    s.graph.inputs n ≠ [] := by
  obtain ⟨t, ht⟩ := Option.isSome_iff_exists.mp h
  exact List.ne_nil_of_mem (mem_inputs.mpr ⟨d, hd, ht⟩)

theorem inputs_eq_nil_iff : s.graph.inputs n = [] ↔
    ∀ d ∈ s.graph.dependencies n, s.graph.typeAt d = none := by
  unfold Graph.inputs
  exact List.filterMap_eq_nil_iff

theorem AllDefinite.inputs (h : s.AllDefinite) : ∀ t ∈ s.graph.inputs n, s.catalog.Definite t := by
  intro t ht
  obtain ⟨d, -, hd⟩ := mem_inputs.mp ht
  exact h d t hd

/-! ## Binding and unbinding -/

/-- Once the edge is there, types flow. -/
theorem bind_flows (s : Store) (n d : Node) :
    Flows ⟨s.catalog, s.graph.link n d⟩ (s.bind n d) := by
  rw [bind_eq]
  split
  · exact recompute_flows _ n
  · exact .refl _

/-- Once the edge is gone, types flow. -/
theorem unbind_flows (s : Store) (n d : Node) :
    Flows ⟨s.catalog, s.graph.unlink n d⟩ (s.unbind n d) := recompute_flows _ n

theorem typeAt_bind_of_ne (h : m ≠ n) : (s.bind n d).graph.typeAt m = s.graph.typeAt m := by
  rw [bind_eq]
  split
  · rw [typeAt_recompute_of_ne h]
    exact Graph.typeAt_link s.graph n d m
  · exact Graph.typeAt_link s.graph n d m

theorem typeAt_unbind_of_ne (h : m ≠ n) : (s.unbind n d).graph.typeAt m = s.graph.typeAt m := by
  rw [unbind_eq, typeAt_recompute_of_ne h]
  exact Graph.typeAt_unlink s.graph n d m

/-- An untyped dependency changes no type. -/
theorem bind_of_untyped (h : s.graph.typeAt d = none) :
    s.bind n d = ⟨s.catalog, s.graph.link n d⟩ := by
  rw [bind_eq, if_neg (by simp [h])]

/-! ## A new node -/

/-- The store with a new node of some kind that is bound to some nodes, one after the other. -/
def withNode (s : Store) (kind : CellKind) (place : Place) (ds : List Node) : Store :=
  ds.foldl (fun r d => r.bind ⟨s.graph.size⟩ d) (s.add kind none place)

/-- The type that a new node of some kind gets when it is bound to some nodes. -/
def typeOfNew (s : Store) (kind : CellKind) (place : Place) (ds : List Node) : Option Ty :=
  (s.withNode kind place ds).graph.typeAt ⟨s.graph.size⟩

/-- In `r` the node `m` depends on `ds` too, has the type that this gives it, and nothing else has
changed since `s`. -/
structure Binds (s : Store) (m : Node) (ds : List Node) (r : Store) : Prop where
  formed : r.Formed
  definite : r.AllDefinite
  grows : s.catalog.Extends r.catalog
  size : r.graph.size = s.graph.size
  kind : ∀ k, (r.graph.cell k).kind = (s.graph.cell k).kind
  depends : ∀ d, d ∈ r.graph.dependencies m ↔ d ∈ s.graph.dependencies m ∨ d ∈ ds
  others : ∀ k, k ≠ m → r.graph.dependencies k = s.graph.dependencies k ∧
    r.graph.typeAt k = s.graph.typeAt k
  solved : r.Solved m
  held : r.graph.inputs m = [] → r.graph.typeAt m = s.graph.typeAt m

/-- A node that is bound to another one, and does not depend on itself, is solved again. -/
theorem Formed.solved_bind (h : s.Formed) (hm : m.index < s.graph.size) (hd : d.index < s.graph.size)
    (hself : m ∉ s.graph.dependencies m) (hne : d ≠ m) (hsolved : s.Solved m) :
    (s.bind m d).Solved m := by
  rw [bind_eq]
  split
  · have hlinked := h.link m hd
    have hflow := recompute_flows ⟨s.catalog, s.graph.link m d⟩ m
    -- none of the dependencies is the node itself, so they keep their types
    have hin : (Store.recompute ⟨s.catalog, s.graph.link m d⟩ m).graph.inputs m =
        (s.graph.link m d).inputs m := by
      unfold Graph.inputs
      rw [hflow.dependencies]
      refine List.filterMap_congr fun e he => typeAt_recompute_of_ne ?_
      rintro rfl
      have he' : e ∈ (s.graph.link e d).dependencies e := he
      rw [Graph.dependencies_link, if_pos ⟨rfl, hm⟩] at he'
      exact (Graph.mem_addOnce.mp he').elim (fun heq => hne heq.symm) hself
    unfold Solved
    rw [hflow.kind, hin]
    exact hlinked.combined_recompute ((Graph.size_link s.graph m d).symm ▸ hm)
  · next hnone => exact hsolved.link_untyped m (by simpa using hnone)

theorem Binds.bind (h : s.Binds m ds r) (hm : m.index < s.graph.size) (hd : d.index < s.graph.size)
    (hself : m ∉ s.graph.dependencies m) (hds : m ∉ ds) (hne : d ≠ m) :
    s.Binds m (ds ++ [d]) (r.bind m d) := by
  have hmr : m.index < r.graph.size := h.size ▸ hm
  have hdr : d.index < r.graph.size := h.size ▸ hd
  have hselfr : m ∉ r.graph.dependencies m := fun hmem =>
    ((h.depends m).mp hmem).elim hself hds
  have hflow := bind_flows r m d
  refine ⟨h.formed.bind m hdr, h.definite.bind h.formed m hdr, h.grows.trans hflow.catalog,
    (size_bind r m d).trans h.size, fun k => ?_, fun e => ?_, fun k hk => ⟨?_, ?_⟩,
    h.formed.solved_bind hmr hdr hselfr hne h.solved, fun hnil => ?_⟩
  · exact (hflow.kind k).trans ((Graph.kind_link r.graph m d k).trans (h.kind k))
  · rw [hflow.dependencies, Graph.dependencies_link, if_pos ⟨rfl, hmr⟩, Graph.mem_addOnce,
      h.depends, List.mem_append, List.mem_singleton]
    tauto
  · rw [hflow.dependencies, Graph.dependencies_link, if_neg fun hkm => hk hkm.1]
    exact (h.others k hk).1
  · exact (typeAt_bind_of_ne hk).trans (h.others k hk).2
  · have hnone : r.graph.typeAt d = none := by
      rw [← typeAt_bind_of_ne (s := r) (d := d) hne]
      refine inputs_eq_nil_iff.mp hnil d ?_
      rw [hflow.dependencies, Graph.dependencies_link, if_pos ⟨rfl, hmr⟩]
      exact Graph.mem_addOnce.mpr (.inl rfl)
    rw [bind_of_untyped hnone] at hnil ⊢
    rw [show (r.graph.link m d).typeAt m = _ from Graph.typeAt_link r.graph m d m]
    exact h.held ((inputs_link_untyped m hnone m).symm.trans hnil)

theorem Binds.bindAll (h : s.Binds m ds r) (hm : m.index < s.graph.size)
    (hself : m ∉ s.graph.dependencies m) (hds : m ∉ ds) {rest : List Node}
    (hrest : ∀ d ∈ rest, d.index < s.graph.size ∧ d ≠ m) :
    s.Binds m (ds ++ rest) (rest.foldl (fun r d => r.bind m d) r) := by
  induction rest generalizing ds r with
  | nil => rwa [List.append_nil]
  | cons d rest ih =>
    obtain ⟨hd, hne⟩ := hrest d List.mem_cons_self
    have hlonger : m ∉ ds ++ [d] := by
      rw [List.mem_append, List.mem_singleton]
      exact fun hmem => hmem.elim hds fun heq => hne heq.symm
    rw [← List.singleton_append, ← List.append_assoc]
    exact ih (h.bind hm hd hself hds hne) hlonger fun e he => hrest e (List.mem_cons_of_mem d he)

/-- What comes of a new node that is bound to nodes of the graph. -/
theorem binds_withNode (hs : s.Formed) (hdefinite : s.AllDefinite) (kind : CellKind)
    (place : Place) (hds : ∀ d ∈ ds, d.index < s.graph.size) :
    (s.add kind none place).Binds ⟨s.graph.size⟩ ds (s.withNode kind place ds) := by
  have hsize := Graph.size_add s.graph kind none place
  have hnew : (s.add kind none place).graph.dependencies ⟨s.graph.size⟩ = [] :=
    congrArg Cell.dependencies (Graph.cell_add_new s.graph kind none place)
  have hadded : (s.add kind none place).Formed := hs.add kind place fun t ht => by cases ht
  have hstart : (s.add kind none place).Binds ⟨s.graph.size⟩ [] (s.add kind none place) :=
    ⟨hadded, hdefinite.add kind place (fun t ht => by cases ht), .refl _, rfl, fun _ => rfl,
      fun d => by simp, fun _ _ => ⟨rfl, rfl⟩, solved_of_no_dependencies hnew, fun _ => rfl⟩
  refine hstart.bindAll (hsize.symm ▸ Nat.lt_succ_self _) (hnew ▸ List.not_mem_nil)
    List.not_mem_nil fun d hd => ⟨hsize.symm ▸ Nat.lt_succ_of_lt (hds d hd), ?_⟩
  rintro rfl
  exact Nat.lt_irrefl _ (hds _ hd)

/-- The nodes that were there before keep what they have. -/
theorem cell_add_of_lt (kind : CellKind) (place : Place) (hn : n.index < s.graph.size) :
    (s.add kind none place).graph.cell n = s.graph.cell n :=
  (Graph.cell_add s.graph kind none place n).trans (if_neg (Nat.ne_of_lt hn))

/-- What a new node that is bound to nodes of the graph depends on, and what the nodes that were
there before keep. -/
theorem Binds.new {kind : CellKind}
    (h : (s.add kind none place).Binds ⟨s.graph.size⟩ ds r) :
    s.catalog.Grows r.catalog ∧ (r.graph.cell ⟨s.graph.size⟩).kind = kind ∧
      (∀ d, d ∈ r.graph.dependencies ⟨s.graph.size⟩ ↔ d ∈ ds) ∧
      (r.graph.inputs ⟨s.graph.size⟩ = [] → r.graph.typeAt ⟨s.graph.size⟩ = none) ∧
      ∀ k : Node, k.index < s.graph.size →
        r.graph.dependencies k = s.graph.dependencies k ∧ r.graph.typeAt k = s.graph.typeAt k ∧
        (r.graph.cell k).kind = (s.graph.cell k).kind := by
  have hnew := Graph.cell_add_new s.graph kind none place
  refine ⟨h.grows.toGrows, (h.kind _).trans (congrArg Cell.kind hnew), fun d => ?_,
    fun hnil => ?_, fun k hk => ?_⟩
  · rw [h.depends, show (s.add kind none place).graph.dependencies ⟨s.graph.size⟩ = [] from
      congrArg Cell.dependencies hnew]
    simp
  · exact (h.held hnil).trans (congrArg Cell.type hnew)
  · have hne : k ≠ ⟨s.graph.size⟩ := fun heq => Nat.ne_of_lt hk (congrArg Node.index heq)
    have hcell := cell_add_of_lt (s := s) kind place hk
    obtain ⟨hdeps, htype⟩ := h.others k hne
    exact ⟨hdeps.trans (congrArg Cell.dependencies hcell), htype.trans (congrArg Cell.type hcell),
      (h.kind k).trans (congrArg Cell.kind hcell)⟩

/-! ## What unbinding leaves -/

/-- What is left to `n` when it is unbound from `d` is definite. -/
theorem AllDefinite.inputs_unlink (h : s.AllDefinite) (n d : Node) :
    ∀ t ∈ (s.graph.unlink n d).inputs n, s.catalog.Definite t :=
  (h.of_typeAt (g := s.graph.unlink n d) (Graph.typeAt_unlink s.graph n d)).inputs

/-- A node that is computed again has typed dependencies afterwards if it had them before. -/
theorem inputs_recompute_eq_nil_iff :
    (s.recompute n).graph.inputs n = [] ↔ s.graph.inputs n = [] := by
  have hflow := recompute_flows s n
  constructor
  · intro h
    rw [inputs_eq_nil_iff] at h ⊢
    intro d hd
    have hnone := h d ((hflow.dependencies n).symm ▸ hd)
    cases htype : s.graph.typeAt d with
    | none => rfl
    | some t =>
      have hsome := hflow.typed d (by rw [htype]; rfl)
      rw [hnone] at hsome
      cases hsome
  · intro h
    rw [recompute_of_inputs_nil h]
    exact h

theorem Formed.combined_unbind (hs : s.Formed) (hn : n.index < s.graph.size) (d : Node) :
    Combined (s.unbind n d).catalog (s.graph.cell n).kind ((s.graph.unlink n d).inputs n)
      ((s.unbind n d).graph.typeAt n) := by
  rw [← Graph.kind_unlink s.graph n d n]
  exact (hs.unlink n d).combined_recompute ((Graph.size_unlink s.graph n d).symm ▸ hn)

/-- With no typed dependency left, a node keeps its type. -/
theorem typeAt_unbind_of_inputs_nil (h : (s.graph.unlink n d).inputs n = []) :
    (s.unbind n d).graph.typeAt n = s.graph.typeAt n := by
  rw [unbind_eq, recompute_of_inputs_nil (s := ⟨s.catalog, s.graph.unlink n d⟩) h]
  exact Graph.typeAt_unlink s.graph n d n

/-- A type that is left to `n` when it is unbound from `d`. -/
theorem mem_inputs_unlink : t ∈ (s.graph.unlink n d).inputs n ↔
    ∃ e ∈ (s.unbind n d).graph.dependencies n, s.graph.typeAt e = some t := by
  rw [(unbind_flows s n d).dependencies]
  show t ∈ (Store.mk s.catalog (s.graph.unlink n d)).graph.inputs n ↔ _
  rw [mem_inputs]
  simp only [Graph.typeAt_unlink]

/-- What a node is left with has the same members before it is computed again and afterwards, if it
is a plain node or does not depend on itself. -/
theorem members_after_unbind {c : Catalog} (hs : s.Formed) (hdefinite : s.AllDefinite)
    (hn : n.index < s.graph.size) (hc : c.Canonical) (hg : (s.unbind n d).catalog.Grows c)
    (hself : (s.graph.cell n).kind = .plain ∨ n ∉ (s.unbind n d).graph.dependencies n)
    (hne : (s.graph.unlink n d).inputs n ≠ []) (x : Ty) :
    (∃ v ∈ (s.graph.unlink n d).inputs n, x ∈ c.members v) ↔
      ∃ v ∈ (s.unbind n d).graph.inputs n, x ∈ c.members v := by
  have hgrows := (unbind_flows s n d).catalog.toGrows.trans hg
  have hleft : ∀ v ∈ (s.graph.unlink n d).inputs n, c.Definite v :=
    fun v hv => hgrows.definite (hdefinite.inputs_unlink n d v hv)
  rcases hself with hplain | hself
  · -- the new type of the node has exactly the members that were joined
    obtain ⟨u, t, htype, hforms, -, hmembers⟩ :=
      ((hs.combined_unbind hn d).grow hg).joins hc hne hleft
    rw [hplain] at hforms
    obtain rfl : t = u := hforms
    constructor
    · rintro ⟨v, hv, hx⟩
      obtain ⟨e, he, hev⟩ := mem_inputs_unlink.mp hv
      by_cases hen : e = n
      · subst hen
        exact ⟨t, mem_inputs.mpr ⟨e, he, htype⟩, (hmembers x).mpr ⟨v, hv, hx⟩⟩
      · exact ⟨v, mem_inputs.mpr ⟨e, he, (typeAt_unbind_of_ne hen).trans hev⟩, hx⟩
    · rintro ⟨v, hv, hx⟩
      obtain ⟨e, he, hev⟩ := mem_inputs.mp hv
      by_cases hen : e = n
      · subst hen
        rw [htype] at hev
        cases hev
        exact (hmembers x).mp hx
      · exact ⟨v, mem_inputs_unlink.mpr ⟨e, he, (typeAt_unbind_of_ne hen).symm.trans hev⟩, hx⟩
  · have hsame : ∀ v, v ∈ (s.graph.unlink n d).inputs n ↔ v ∈ (s.unbind n d).graph.inputs n := by
      intro v
      rw [mem_inputs_unlink, mem_inputs]
      refine exists_congr fun e => and_congr_right fun he => ?_
      have hen : e ≠ n := by
        rintro rfl
        exact hself he
      rw [typeAt_unbind_of_ne hen]
    simp only [hsame]

/-- A node whose type changes when it is unbound is dirty. -/
theorem dirty_of_unbind (h : (s.unbind n d).graph.typeAt n ≠ s.graph.typeAt n) :
    (s.unbind n d).graph.dirtyAt n = true := by
  rcases typeAt_recompute_eq_or_dirty ⟨s.catalog, s.graph.unlink n d⟩ n n with heq | hd
  · exact absurd (heq.trans (Graph.typeAt_unlink s.graph n d n)) h
  · exact hd

/-- A node that is unbound has the type of a new node that is then bound to what is left. -/
theorem Formed.renewed (hs : s.Formed) (hdefinite : s.AllDefinite) (hn : n.index < s.graph.size)
    (place : Place) (ds : List Node) (hds : ∀ e, e ∈ ds ↔ e ∈ (s.unbind n d).graph.dependencies n)
    (htyped : ∃ e ∈ ds, ((s.unbind n d).graph.typeAt e).isSome)
    (hself : (s.graph.cell n).kind = .plain ∨ n ∉ ds) :
    (s.unbind n d).graph.typeAt n =
      (s.unbind n d).typeOfNew (s.graph.cell n).kind place ds := by
  have hs' := hs.unbind n d
  have hbinds := binds_withNode hs' (hdefinite.unbind hs n d) (s.graph.cell n).kind place
    fun e he => hs'.wired.bounded n e ((hds e).mp he)
  obtain ⟨hgrows, hkind, hdeps, -, hold⟩ := hbinds.new
  obtain ⟨r, hr⟩ : ∃ r, r = (s.unbind n d).withNode (s.graph.cell n).kind place ds := ⟨_, rfl⟩
  unfold typeOfNew
  rw [← hr] at hbinds hgrows hkind hdeps hold ⊢
  have hcanonical := hbinds.formed.canonical
  -- the new node has the inputs that the other one has by now
  have hinputs : ∀ v, v ∈ r.graph.inputs ⟨(s.unbind n d).graph.size⟩ ↔
      v ∈ (s.unbind n d).graph.inputs n := by
    intro v
    rw [mem_inputs, mem_inputs]
    refine exists_congr fun e => ?_
    rw [hdeps, hds]
    refine and_congr_right fun he => ?_
    rw [(hold e (hs'.wired.bounded n e he)).2.1]
  obtain ⟨e, he, htype⟩ := htyped
  have hne : (s.graph.unlink n d).inputs n ≠ [] := fun hnil =>
    inputs_ne_nil ((hds e).mp he) htype
      (inputs_recompute_eq_nil_iff (s := ⟨s.catalog, s.graph.unlink n d⟩).mpr hnil)
  have hsolved := hbinds.solved
  rw [Solved, hkind] at hsolved
  refine ((hs.combined_unbind hn d).grow hgrows).unique hsolved hcanonical hne ?_ ?_
    hbinds.definite.inputs fun x => ?_
  · refine inputs_ne_nil ((hdeps e).mpr he) ?_
    rw [(hold e (hs'.wired.bounded n e ((hds e).mp he))).2.1]
    exact htype
  · exact fun v hv => ((unbind_flows s n d).catalog.toGrows.trans hgrows).definite
      (hdefinite.inputs_unlink n d v hv)
  · have hself' := hself.imp_right fun hmem h => hmem ((hds n).mpr h)
    rw [members_after_unbind hs hdefinite hn hcanonical hgrows hself' hne]
    simp only [hinputs]

/-- A node that is unbound has the type of a new node that was bound to what is left before. -/
theorem Formed.foreseen (hs : s.Formed) (hdefinite : s.AllDefinite) (hn : n.index < s.graph.size)
    (place : Place) (ds : List Node)
    (hds : ∀ e, e ∈ ds ↔ e ∈ s.graph.dependencies n ∧ e ≠ d)
    (htyped : ∃ e ∈ ds, (s.graph.typeAt e).isSome) :
    ((s.withNode (s.graph.cell n).kind place ds).unbind n d).graph.typeAt n =
      s.typeOfNew (s.graph.cell n).kind place ds := by
  have hbounded : ∀ e ∈ ds, e.index < s.graph.size := fun e he =>
    hs.wired.bounded n e ((hds e).mp he).1
  have hbinds := binds_withNode hs hdefinite (s.graph.cell n).kind place hbounded
  obtain ⟨-, hkind, hdeps, -, hold⟩ := hbinds.new
  obtain ⟨hdepsn, -, hkindn⟩ := hold n hn
  have hnew : n.index < (s.withNode (s.graph.cell n).kind place ds).graph.size := by
    rw [hbinds.size]
    exact Nat.lt_trans hn (Graph.size_lt_size_add _ _ _ _)
  obtain ⟨r, hr⟩ : ∃ r, r = s.withNode (s.graph.cell n).kind place ds := ⟨_, rfl⟩
  unfold typeOfNew
  rw [← hr] at hbinds hkind hdeps hold hdepsn hkindn hnew ⊢
  have hgrows := (unbind_flows r n d).catalog.toGrows
  have hinputs : ∀ v, v ∈ (r.graph.unlink n d).inputs n ↔
      v ∈ r.graph.inputs ⟨s.graph.size⟩ := by
    intro v
    rw [mem_inputs_unlink, mem_inputs]
    refine exists_congr fun e => and_congr_left fun _ => ?_
    rw [mem_dependencies_unbind hnew, hdeps, hds, hdepsn]
    simp
  obtain ⟨e, he, htype⟩ := htyped
  have hne : r.graph.inputs ⟨s.graph.size⟩ ≠ [] := by
    refine inputs_ne_nil ((hdeps e).mpr he) ?_
    rw [(hold e (hbounded e he)).2.1]
    exact htype
  have hne' : (r.graph.unlink n d).inputs n ≠ [] := by
    obtain ⟨v, hv⟩ := List.exists_mem_of_ne_nil _ hne
    exact List.ne_nil_of_mem ((hinputs v).mpr hv)
  have hsolved := hbinds.solved
  rw [Solved, hkind, ← hkindn] at hsolved
  refine (hbinds.formed.combined_unbind hnew d).unique (hsolved.grow hgrows)
    (hbinds.formed.unbind n d).canonical hne' hne ?_ ?_ fun x => ?_
  · exact fun v hv => hgrows.definite (hbinds.definite.inputs_unlink n d v hv)
  · exact fun v hv => hgrows.definite (hbinds.definite.inputs v hv)
  · simp only [hinputs]

/-- A node that is unbound from its last typed dependency keeps its type. -/
theorem Formed.kept (hs : s.Formed) (hdefinite : s.AllDefinite)
    (h : ∀ e ∈ (s.unbind n d).graph.dependencies n, (s.unbind n d).graph.typeAt e = none) :
    (s.unbind n d).graph.typeAt n = s.graph.typeAt n ∧
      ∀ place ds, (∀ e, e ∈ ds ↔ e ∈ (s.unbind n d).graph.dependencies n) →
        (s.unbind n d).typeOfNew (s.graph.cell n).kind place ds = none := by
  have hs' := hs.unbind n d
  constructor
  · refine typeAt_unbind_of_inputs_nil ?_
    exact inputs_recompute_eq_nil_iff (s := ⟨s.catalog, s.graph.unlink n d⟩).mp
      (inputs_eq_nil_iff.mpr h)
  · intro place ds hds
    have hbinds := binds_withNode hs' (hdefinite.unbind hs n d) (s.graph.cell n).kind place
      fun e he => hs'.wired.bounded n e ((hds e).mp he)
    obtain ⟨-, -, hdeps, hheld, hold⟩ := hbinds.new
    refine hheld (inputs_eq_nil_iff.mpr fun e he => ?_)
    have he := (hds e).mp ((hdeps e).mp he)
    rw [(hold e (hs'.wired.bounded n e he)).2.1]
    exact h e he

/-- What unbinding `n` from `d` makes of the type of `n`. -/
structure Forgets (s : Store) (n d : Node) : Prop where
  dependencies : ∀ e, e ∈ (s.unbind n d).graph.dependencies n ↔ e ∈ s.graph.dependencies n ∧ e ≠ d
  /-- With a typed dependency left, `n` has the type that a new node of its kind gets if it is then
  bound to the dependencies that are left, in any order. -/
  renewed : ∀ place ds, (∀ e, e ∈ ds ↔ e ∈ (s.unbind n d).graph.dependencies n) →
    (∃ e ∈ ds, ((s.unbind n d).graph.typeAt e).isSome) →
    ((s.graph.cell n).kind = .plain ∨ n ∉ ds) →
    (s.unbind n d).graph.typeAt n = (s.unbind n d).typeOfNew (s.graph.cell n).kind place ds
  /-- It has the type of a new node that was bound to these before. -/
  foreseen : ∀ place ds, (∀ e, e ∈ ds ↔ e ∈ s.graph.dependencies n ∧ e ≠ d) →
    (∃ e ∈ ds, (s.graph.typeAt e).isSome) →
    ((s.withNode (s.graph.cell n).kind place ds).unbind n d).graph.typeAt n =
      s.typeOfNew (s.graph.cell n).kind place ds
  /-- Without one `n` keeps its type. The new node has none. -/
  kept : (∀ e ∈ (s.unbind n d).graph.dependencies n, (s.unbind n d).graph.typeAt e = none) →
    (s.unbind n d).graph.typeAt n = s.graph.typeAt n ∧
      ∀ place ds, (∀ e, e ∈ ds ↔ e ∈ (s.unbind n d).graph.dependencies n) →
        (s.unbind n d).typeOfNew (s.graph.cell n).kind place ds = none
  dirty : (s.unbind n d).graph.typeAt n ≠ s.graph.typeAt n →
    (s.unbind n d).graph.dirtyAt n = true

theorem forgets_of_formed (hs : s.Formed) (hdefinite : s.AllDefinite) (hn : n.index < s.graph.size)
    (d : Node) : s.Forgets n d := by
  have hleft : ∀ e, e ∈ (s.unbind n d).graph.dependencies n ↔
      e ∈ s.graph.dependencies n ∧ e ≠ d := fun e => by
    rw [mem_dependencies_unbind hn]
    simp
  exact ⟨hleft, hs.renewed hdefinite hn, hs.foreseen hdefinite hn, hs.kept hdefinite,
    dirty_of_unbind⟩

/-- What becomes of a graph in which `n` is bound to `e`, on which it did not depend, and then
unbound from it. -/
structure Restores (s : Store) (n e : Node) : Prop where
  dependencies : ∀ m,
    ((s.bind n e).unbind n e).graph.dependencies m = s.graph.dependencies m
  watchers : ∀ m,
    (((s.bind n e).unbind n e).graph.cell m).watchers = (s.graph.cell m).watchers
  others : ∀ m, m ≠ n → ((s.bind n e).unbind n e).graph.typeAt m = s.graph.typeAt m
  /-- If no change of a dependency is pending, `n` has the type that it had, provided that `e` has
  none or that `n` has a typed dependency and does not depend on itself. -/
  type : (∀ d ∈ s.graph.dependencies n, s.graph.dirtyAt d = false) →
    (s.graph.typeAt e = none ∨
      (n ∉ s.graph.dependencies n ∧ ∃ d ∈ s.graph.dependencies n, (s.graph.typeAt d).isSome)) →
    ((s.bind n e).unbind n e).graph.typeAt n = s.graph.typeAt n

theorem dependencies_rebind (hn : n.index < s.graph.size) (he : e ∉ s.graph.dependencies n)
    (m : Node) : ((s.bind n e).unbind n e).graph.dependencies m = s.graph.dependencies m := by
  have hlink := (bind_flows s n e).dependencies
  rw [(unbind_flows _ n e).dependencies, ← Graph.dependencies_relink hn he m,
    Graph.dependencies_unlink, Graph.dependencies_unlink, size_bind, Graph.size_link, hlink]

theorem watchers_rebind (hmirrored : s.graph.Mirrored) (hd : e.index < s.graph.size)
    (he : e ∉ s.graph.dependencies n) (m : Node) :
    (((s.bind n e).unbind n e).graph.cell m).watchers = (s.graph.cell m).watchers := by
  have hlink := (bind_flows s n e).watchers
  have hw : .node n ∉ (s.graph.cell e).watchers := fun h => he ((hmirrored n e).mp h)
  rw [(unbind_flows _ n e).watchers, ← Graph.watchers_relink hd hw m,
    Graph.watchers_unlink, Graph.watchers_unlink, size_bind, Graph.size_link, hlink]

/-- A node that is bound to another one and unbound again has the type that it had. -/
theorem Formed.restored (hs : s.Formed) (hdefinite : s.AllDefinite) (hbalanced : s.Balanced [])
    (hn : n.index < s.graph.size) (hb : e.index < s.graph.size)
    (he : e ∉ s.graph.dependencies n)
    (hclean : ∀ d ∈ s.graph.dependencies n, s.graph.dirtyAt d = false)
    (hcase : s.graph.typeAt e = none ∨
      (n ∉ s.graph.dependencies n ∧ ∃ d ∈ s.graph.dependencies n, (s.graph.typeAt d).isSome)) :
    ((s.bind n e).unbind n e).graph.typeAt n = s.graph.typeAt n := by
  have hsolved : s.Solved n := by
    rcases hbalanced n with hsolved | ⟨d, hd, hdirty⟩ | hdue
    · exact hsolved
    · rw [hclean d hd] at hdirty
      cases hdirty
    · cases hdue
  -- binding the node has not changed the types of its former dependencies
  have htypes : ∀ d ∈ s.graph.dependencies n, (s.bind n e).graph.typeAt d = s.graph.typeAt d := by
    intro d hd
    rcases hcase with hnone | ⟨hself, -⟩
    · rw [bind_of_untyped hnone]
      exact Graph.typeAt_link s.graph n e d
    · refine typeAt_bind_of_ne ?_
      rintro rfl
      exact hself hd
  have hinputs : ∀ t, t ∈ ((s.bind n e).graph.unlink n e).inputs n ↔ t ∈ s.graph.inputs n := by
    intro t
    rw [mem_inputs_unlink, mem_inputs]
    refine exists_congr fun d => ?_
    rw [dependencies_rebind hn he]
    exact and_congr_right fun hd => by rw [htypes d hd]
  have hbound := hs.bind n hb
  have hgrows : s.catalog.Grows ((s.bind n e).unbind n e).catalog :=
    (bind_flows s n e).catalog.toGrows.trans (unbind_flows (s.bind n e) n e).catalog.toGrows
  by_cases hnil : s.graph.inputs n = []
  · have hnone : s.graph.typeAt e = none := by
      rcases hcase with hnone | ⟨-, d, hd, htype⟩
      · exact hnone
      · exact absurd hnil (inputs_ne_nil hd htype)
    rw [typeAt_unbind_of_inputs_nil, bind_of_untyped hnone]
    · exact Graph.typeAt_link s.graph n e n
    · exact List.eq_nil_iff_forall_not_mem.mpr fun t ht => by
        rw [hinputs, hnil] at ht
        cases ht
  · have hne : ((s.bind n e).graph.unlink n e).inputs n ≠ [] := by
      obtain ⟨t, ht⟩ := List.exists_mem_of_ne_nil _ hnil
      exact List.ne_nil_of_mem ((hinputs t).mpr ht)
    have hkind : ((s.bind n e).graph.cell n).kind = (s.graph.cell n).kind :=
      ((bind_flows s n e).kind n).trans (Graph.kind_link s.graph n e n)
    rw [Solved, ← hkind] at hsolved
    refine (hbound.combined_unbind ((size_bind s n e).symm ▸ hn) e).unique (hsolved.grow hgrows)
      (hbound.unbind n e).canonical hne hnil ?_ ?_ fun x => ?_
    · exact fun t ht => hgrows.definite (hdefinite.inputs t ((hinputs t).mp ht))
    · exact fun t ht => hgrows.definite (hdefinite.inputs t ht)
    · simp only [hinputs]

theorem restores_of_formed (hs : s.Formed) (hdefinite : s.AllDefinite) (hbalanced : s.Balanced [])
    (hmirrored : s.graph.Mirrored) (hn : n.index < s.graph.size) (hb : e.index < s.graph.size)
    (he : e ∉ s.graph.dependencies n) : s.Restores n e where
  dependencies := dependencies_rebind hn he
  watchers := watchers_rebind hmirrored hb he
  others _ hm := (typeAt_unbind_of_ne hm).trans (typeAt_bind_of_ne hm)
  type := hs.restored hdefinite hbalanced hn hb he

/-! ## Whatever is queued -/

/-- The same store, but for the queue. -/
def Beside (s r : Store) : Prop := ∃ queue, r = ⟨s.catalog, { s.graph with queue := queue }⟩

namespace Beside

theorem retype (g : Graph) (queue : List Node) (n : Node) (t : Ty) :
    ∃ queue', ({ g with queue := queue } : Graph).retype n t =
      { g.retype n t with queue := queue' } := by
  unfold Graph.retype
  show ∃ queue', (if g.typeAt n = some t then _ else if g.dirtyAt n = true then _ else _) = _
  split
  · exact ⟨queue, rfl⟩
  · split
    · exact ⟨queue, rfl⟩
    · exact ⟨queue ++ [n], rfl⟩

theorem recompute (h : s.Beside r) (n : Node) : (s.recompute n).Beside (r.recompute n) := by
  obtain ⟨queue, rfl⟩ := h
  have hcombine : combine s.catalog (({ s.graph with queue := queue } : Graph).cell n).kind
      (({ s.graph with queue := queue } : Graph).inputs n) =
      combine s.catalog (s.graph.cell n).kind (s.graph.inputs n) := rfl
  unfold Store.recompute
  dsimp only
  rw [hcombine]
  rcases combine s.catalog (s.graph.cell n).kind (s.graph.inputs n) with ⟨_ | t, c⟩
  · exact ⟨queue, rfl⟩
  · obtain ⟨queue', heq⟩ := retype s.graph queue n t
    exact ⟨queue', congrArg (Store.mk c) heq⟩

theorem add (h : s.Beside r) (kind : CellKind) (type : Option Ty) (place : Place) :
    (s.add kind type place).Beside (r.add kind type place) := by
  obtain ⟨queue, rfl⟩ := h
  exact ⟨queue, rfl⟩

theorem bind (h : s.Beside r) (n d : Node) : (s.bind n d).Beside (r.bind n d) := by
  obtain ⟨queue, rfl⟩ := h
  have hlink : Beside ⟨s.catalog, s.graph.link n d⟩
      ⟨s.catalog, ({ s.graph with queue := queue } : Graph).link n d⟩ := ⟨queue, rfl⟩
  rw [bind_eq, bind_eq]
  show (if _ then _ else _ : Store).Beside (if (s.graph.typeAt d).isSome then _ else _)
  split
  · exact hlink.recompute n
  · exact hlink

theorem unbind (h : s.Beside r) (n d : Node) : (s.unbind n d).Beside (r.unbind n d) := by
  obtain ⟨queue, rfl⟩ := h
  have hunlink : Beside ⟨s.catalog, s.graph.unlink n d⟩
      ⟨s.catalog, ({ s.graph with queue := queue } : Graph).unlink n d⟩ := ⟨queue, rfl⟩
  exact hunlink.recompute n

theorem withNode (h : s.Beside r) (kind : CellKind) (place : Place) (ds : List Node) :
    (s.withNode kind place ds).Beside (r.withNode kind place ds) := by
  have hsize : r.graph.size = s.graph.size := by
    obtain ⟨queue, rfl⟩ := h
    rfl
  unfold Store.withNode
  rw [hsize]
  have hadd := h.add kind none place
  generalize s.add kind none place = s₁, r.add kind none place = r₁ at hadd
  induction ds generalizing s₁ r₁ with
  | nil => exact hadd
  | cons d ds ih => exact ih _ _ (hadd.bind _ d)

theorem told (h : s.Beside r) (w : Watcher) : (s.told w).Beside (r.told w) := by
  cases w with
  | node n => exact h.recompute n
  | site site => exact h
  | provisional t => exact h

theorem foldl_told (h : s.Beside r) (ws : List Watcher) :
    (ws.foldl Store.told s).Beside (ws.foldl Store.told r) := by
  induction ws generalizing s r with
  | nil => exact h
  | cons w ws ih => exact ih (h.told w)

theorem cell (h : s.Beside r) (n : Node) : r.graph.cell n = s.graph.cell n := by
  obtain ⟨queue, rfl⟩ := h
  rfl

theorem typeAt (h : s.Beside r) (n : Node) : r.graph.typeAt n = s.graph.typeAt n :=
  congrArg Cell.type (h.cell n)

theorem dependencies (h : s.Beside r) (n : Node) :
    r.graph.dependencies n = s.graph.dependencies n := congrArg Cell.dependencies (h.cell n)

theorem dirtyAt (h : s.Beside r) (n : Node) : r.graph.dirtyAt n = s.graph.dirtyAt n :=
  congrArg Cell.dirty (h.cell n)

theorem size (h : s.Beside r) : r.graph.size = s.graph.size := by
  obtain ⟨queue, rfl⟩ := h
  rfl

theorem typeOfNew (h : s.Beside r) (kind : CellKind) (place : Place) (ds : List Node) :
    r.typeOfNew kind place ds = s.typeOfNew kind place ds := by
  unfold Store.typeOfNew
  rw [h.size]
  exact (h.withNode kind place ds).typeAt _

theorem forgets (h : s.Beside r) (hr : r.Forgets n d) : s.Forgets n d := by
  have hu := h.unbind n d
  obtain ⟨hdeps, hrenewed, hforeseen, hkept, hdirty⟩ := hr
  simp only [hu.dependencies, hu.typeAt, hu.dirtyAt, hu.typeOfNew, h.dependencies, h.typeAt,
    h.cell, h.typeOfNew] at hdeps hrenewed hforeseen hkept hdirty
  refine ⟨hdeps, hrenewed, fun place ds hds htyped => ?_, hkept, hdirty⟩
  rw [← ((h.withNode _ place ds).unbind n d).typeAt]
  exact hforeseen place ds hds htyped

theorem restores (h : s.Beside r) (hr : r.Restores n e) : s.Restores n e := by
  have hu := (h.bind n e).unbind n e
  obtain ⟨hdeps, hwatchers, hothers, htype⟩ := hr
  simp only [hu.dependencies, hu.typeAt, hu.cell, h.dependencies, h.typeAt, h.cell, h.dirtyAt]
    at hdeps hwatchers hothers htype
  exact ⟨hdeps, hwatchers, hothers, htype⟩

end Beside

/-! ## Graphs of definite types -/

/-- Graphs that come of adding nodes, binding and unbinding them and rounds of propagation, which
may fail, over the catalog `c`. Types are given to new nodes only and are definite. -/
inductive Woven (c : Catalog) (limit : Nat) : Store → Prop
  | start : Woven c limit ⟨c, .empty limit⟩
  | addNode {s : Store} (h : Woven c limit s) (kind : CellKind) (place : Place) :
      Woven c limit (s.add kind none place)
  | addTyped {s : Store} (h : Woven c limit s) (t : Ty) (place : Place)
      (ht : s.catalog.Definite t) : Woven c limit (s.add .plain (some t) place)
  | bind {s : Store} (h : Woven c limit s) (n d : Node) (hn : n.index < s.graph.size)
      (hd : d.index < s.graph.size) : Woven c limit (s.bind n d)
  | unbind {s : Store} (h : Woven c limit s) (n d : Node) (hn : n.index < s.graph.size)
      (hd : d.index < s.graph.size) : Woven c limit (s.unbind n d)
  | propagate {s : Store} (h : Woven c limit s) : Woven c limit (left (propagate s))

/-- What holds of every such graph, if its dirty nodes are queued. -/
structure Tidy (s : Store) : Prop where
  formed : s.Formed
  balanced : s.Balanced []
  definite : s.AllDefinite
  mirrored : s.graph.Mirrored

namespace Tidy

theorem add (h : s.Tidy) (kind : CellKind) {type : Option Ty} (place : Place)
    (htype : ∀ t, type = some t → s.catalog.Definite t) : (s.add kind type place).Tidy where
  formed := h.formed.add kind place fun t ht => (htype t ht).1
  balanced := h.balanced.add kind type place h.formed
  definite := h.definite.add kind place htype
  mirrored := h.mirrored.add kind type place

theorem bind (h : s.Tidy) (hn : n.index < s.graph.size) (hd : d.index < s.graph.size) :
    (s.bind n d).Tidy where
  formed := h.formed.bind n hd
  balanced := h.balanced.bind h.formed n hd
  definite := h.definite.bind h.formed n hd
  mirrored := (h.mirrored.link hn hd).of_eq (bind_flows s n d).dependencies
    (bind_flows s n d).watchers

theorem unbind (h : s.Tidy) (hn : n.index < s.graph.size) (hd : d.index < s.graph.size) :
    (s.unbind n d).Tidy where
  formed := h.formed.unbind n d
  balanced := h.balanced.unbind h.formed n d
  definite := h.definite.unbind h.formed n d
  mirrored := (h.mirrored.unlink hn hd).of_eq (unbind_flows s n d).dependencies
    (unbind_flows s n d).watchers

/-- Taking a node off the queue and telling its watchers. -/
theorem stepped (h : s.Tidy) {rest : List Node} (hqueue : s.graph.queue = n :: rest)
    (budget : Nat) : (s.stepped n rest budget).Tidy := by
  have htaken := h.formed.taken hqueue budget
  have hnotified := notified_all htaken [] (s.graph.cell n).watchers
  rw [foldl_notify] at hnotified
  have hflow := (taken_flows s n rest budget).trans hnotified.flows
  have hdefinite : (s.taken n rest budget).AllDefinite :=
    h.definite.of_typeAt (typeAt_taken s n rest budget)
  have hboth : (s.stepped n rest budget).Formed ∧ (s.stepped n rest budget).AllDefinite :=
    foldl_told_keeps (fun s => s.Formed ∧ s.AllDefinite) (fun s w hs => by
      cases w with
      | node m => exact ⟨hs.1.recompute m, hs.2.recompute hs.1 m⟩
      | site site => exact hs
      | provisional t => exact hs) _ ⟨htaken, hdefinite⟩
  exact ⟨hnotified.formed, hnotified.balanced [] (h.balanced.taken h.formed rest budget), hboth.2,
    h.mirrored.of_eq hflow.dependencies hflow.watchers⟩

/-- It does not matter in which order the dirty nodes are queued, or what is queued beside them. -/
theorem requeue (h : s.Tidy) {queue : List Node} (hqueue : ∀ m ∈ s.graph.queue, m ∈ queue) :
    Tidy ⟨s.catalog, { s.graph with queue := queue }⟩ where
  formed := ⟨h.formed.canonical, ⟨h.formed.wired.bounded, h.formed.wired.watched,
    fun m hm => hqueue m (h.formed.wired.queued m hm)⟩, h.formed.typed⟩
  balanced := h.balanced
  definite := h.definite
  mirrored := h.mirrored

end Tidy

/-- What every visit of a round keeps, and losing the first node of the queue, the round keeps. -/
theorem left_drain_keeps (P : Store → Prop)
    (hstepped : ∀ s n rest budget, s.graph.queue = n :: rest → P s → P (s.stepped n rest budget))
    (hdropped : ∀ s rest, P s → P ⟨s.catalog, { s.graph with queue := rest }⟩) (budget : Nat)
    (wakes : List Wake) (h : P s) : P (left (drain budget s wakes)) := by
  induction budget generalizing s wakes with
  | zero =>
    cases hqueue : s.graph.queue with
    | nil =>
      rw [drain, hqueue]
      exact h
    | cons n rest =>
      rw [drain, hqueue]
      exact hdropped s rest h
  | succ budget ih =>
    cases hqueue : s.graph.queue with
    | nil =>
      rw [drain, hqueue]
      exact h
    | cons n rest =>
      obtain ⟨wakes', heq⟩ := drain_of_queue hqueue budget wakes
      rw [heq]
      exact ih wakes' (hstepped s n rest budget hqueue h)

/-- A round that fails drops a node that is dirty, so only with another queue is the graph tidy. -/
theorem Woven.tidy {c : Catalog} {limit : Nat} (hc : c.Canonical) (h : Woven c limit s) :
    ∃ r, s.Beside r ∧ r.Tidy := by
  induction h with
  | start =>
    obtain ⟨hs, hb, hd⟩ := Built.invariant hc (.start : Built c limit _)
    exact ⟨_, ⟨[], rfl⟩, hs, hb, hd, .empty limit⟩
  | addNode _ kind place ih =>
    obtain ⟨r, hr, htidy⟩ := ih
    exact ⟨_, hr.add kind none place, htidy.add kind place fun t ht => by cases ht⟩
  | addTyped _ t place ht ih =>
    obtain ⟨r, hr, htidy⟩ := ih
    have ht' : r.catalog.Definite t := by
      obtain ⟨queue, rfl⟩ := hr
      exact ht
    exact ⟨_, hr.add .plain (some t) place,
      htidy.add .plain place fun u hu => Option.some.inj hu ▸ ht'⟩
  | bind _ n d hn hd ih =>
    obtain ⟨r, hr, htidy⟩ := ih
    exact ⟨_, hr.bind n d, htidy.bind (hr.size.symm ▸ hn) (hr.size.symm ▸ hd)⟩
  | unbind _ n d hn hd ih =>
    obtain ⟨r, hr, htidy⟩ := ih
    exact ⟨_, hr.unbind n d, htidy.unbind (hr.size.symm ▸ hn) (hr.size.symm ▸ hd)⟩
  | @propagate s _ ih =>
    refine left_drain_keeps (fun s => ∃ r, s.Beside r ∧ r.Tidy) ?_ ?_ s.graph.budget [] ih
    · rintro s n rest budget - ⟨_, ⟨queue, rfl⟩, htidy⟩
      have htidy' := htidy.requeue fun m hm => List.mem_cons_of_mem n hm
      have hbeside : (s.taken n rest budget).Beside
          (taken ⟨s.catalog, { s.graph with queue := n :: queue }⟩ n queue budget) := ⟨queue, rfl⟩
      exact ⟨_, hbeside.foldl_told _, htidy'.stepped rfl budget⟩
    · rintro s rest ⟨_, ⟨queue, rfl⟩, htidy⟩
      exact ⟨_, ⟨queue, rfl⟩, htidy⟩

/-- Unbinding forgets a dependency as far as the type of a node can tell it: with a typed dependency
left, the node has the type of a new node that is bound to what is left, and else it keeps its type.
Binding a node to a new dependency and unbinding it again gives back the edges, and the type unless
a change was pending, the node keeps itself up, or only the new dependency had a type. -/
theorem unbinding_forgets {c : Catalog} (hc : c.Started) {limit : Nat} (h : Woven c limit s)
    (hn : n.index < s.graph.size) :
    (∀ d, s.Forgets n d) ∧
      ∀ e, e.index < s.graph.size → e ∉ s.graph.dependencies n → s.Restores n e := by
  obtain ⟨r, hr, htidy⟩ := h.tidy hc.canonical
  have hn' := hr.size.symm ▸ hn
  refine ⟨fun d => hr.forgets (forgets_of_formed htidy.formed htidy.definite hn' d),
    fun e hb he => hr.restores ?_⟩
  exact restores_of_formed htidy.formed htidy.definite htidy.balanced htidy.mirrored hn'
    (hr.size.symm ▸ hb) (hr.dependencies n ▸ he)

/-- An `Int`, a `Double` and three nodes without a type, none of which depends on another. -/
def strands : Store :=
  let int := (⟨.seeded, .empty 10⟩ : Store).add .plain (some .int) .synthesized
  let double := int.add .plain (some .double) .synthesized
  ((double.add .plain none .synthesized).add .plain none .synthesized).add .plain none .synthesized

theorem woven_strands : Woven .seeded 10 strands := by
  have sources : ∀ {c : Catalog}, c.Definite .int → c.Definite .double → Woven c 10 _ :=
    fun hint hdouble => (Woven.start.addTyped .int .synthesized hint).addTyped .double
      .synthesized hdouble
  have h₂ := sources (Catalog.elementary_seeded.sound.builtin (by decide))
    (Catalog.elementary_seeded.sound.builtin (by decide))
  exact ((h₂.addNode .plain .synthesized).addNode .plain .synthesized).addNode .plain .synthesized

theorem size_strands : strands.graph.size = 5 := by decide +kernel

/-- A node that depends on the `Int` and the `Double` forgets the `Double`. -/
theorem unbinding_forgets_strands : ∃ s, Woven .seeded 10 s ∧ s.Forgets ⟨2⟩ ⟨1⟩ ∧
    s.Restores ⟨2⟩ ⟨3⟩ ∧ s.graph.dependencies ⟨2⟩ = [⟨0⟩, ⟨1⟩] ∧
    s.graph.typeAt ⟨2⟩ ≠ some .int ∧ (s.unbind ⟨2⟩ ⟨1⟩).graph.typeAt ⟨2⟩ = some .int := by
  have h₁ := woven_strands.bind ⟨2⟩ ⟨0⟩ (by simp [size_strands]) (by simp [size_strands])
  have h₂ := h₁.bind ⟨2⟩ ⟨1⟩ (by simp [size_bind, size_strands]) (by simp [size_bind, size_strands])
  obtain ⟨hforgets, hrestores⟩ := unbinding_forgets Catalog.started_seeded h₂ (n := ⟨2⟩)
    (by simp [size_bind, size_strands])
  exact ⟨_, h₂, hforgets ⟨1⟩, hrestores ⟨3⟩ (by simp [size_bind, size_strands])
    (by decide +kernel), by decide +kernel⟩

/-- A node keeps its type without a dependency. Binding and unbinding does not give back the type of
a node that depends on itself, and not that of a node one of whose dependencies has changed. -/
theorem unbinding_remembers :
    (∃ s, Woven .seeded 10 s ∧ (s.unbind ⟨2⟩ ⟨0⟩).graph.dependencies ⟨2⟩ = [] ∧
      (s.unbind ⟨2⟩ ⟨0⟩).graph.typeAt ⟨2⟩ = some .int ∧
      (s.unbind ⟨2⟩ ⟨0⟩).typeOfNew .plain .synthesized [] = none) ∧
    (∃ s, Woven .seeded 10 s ∧ s.graph.dependencies ⟨2⟩ = [⟨0⟩, ⟨2⟩] ∧
      s.graph.typeAt ⟨2⟩ = some .int ∧
      ((s.bind ⟨2⟩ ⟨1⟩).unbind ⟨2⟩ ⟨1⟩).graph.typeAt ⟨2⟩ ≠ some .int) ∧
    ∃ s, Woven .seeded 10 s ∧ s.graph.dependencies ⟨3⟩ = [⟨2⟩] ∧
      s.graph.typeAt ⟨3⟩ = some .int ∧
      ((s.bind ⟨3⟩ ⟨4⟩).unbind ⟨3⟩ ⟨4⟩).graph.typeAt ⟨3⟩ ≠ some .int := by
  have h := woven_strands.bind ⟨2⟩ ⟨0⟩ (by simp [size_strands]) (by simp [size_strands])
  have hloop := h.bind ⟨2⟩ ⟨2⟩ (by simp [size_bind, size_strands])
    (by simp [size_bind, size_strands])
  have hread := h.bind ⟨3⟩ ⟨2⟩ (by simp [size_bind, size_strands])
    (by simp [size_bind, size_strands])
  have hchanged := hread.bind ⟨2⟩ ⟨1⟩ (by simp [size_bind, size_strands])
    (by simp [size_bind, size_strands])
  exact ⟨⟨_, h, by decide +kernel⟩, ⟨_, hloop, by decide +kernel⟩, ⟨_, hchanged, by decide +kernel⟩⟩

end Store

end FlowTyping
