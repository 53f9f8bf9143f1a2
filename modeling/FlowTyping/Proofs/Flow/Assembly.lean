import Mathlib.Algebra.Order.BigOperators.Group.Finset
import Mathlib.Data.List.Perm.Subperm
import Mathlib.Logic.Relation
import FlowTyping.Proofs.Flow.Fixpoint

/-
  Plain graphs with sources

  A graph of plain nodes is assembled by adding nodes, giving types to sources,
  binding and rounds of propagation, in any order; a node that is given a type
  is never bound. Whatever the order, after a last round every node has exactly
  the members of the sources that it leads to (`assembled_least`).

  Types only get wider on the way. A node that gets another type gets more
  members, so the nodes that were ever queued are no more than the members that
  nodes have together (`Assembling.count`), and the budget suffices as soon as
  it is the number of nodes times the number of members of the sources.
-/
namespace FlowTyping.Store

open Catalog

variable {s s' : Store} {c : Catalog} {limit : Nat} {given : List (Node × Ty)} {wakes : List Wake}
  {n d : Node} {t u m : Ty}

/-- The members of the type of a node, none if it has no type. -/
def membersAt (s : Store) (n : Node) : List Ty :=
  match s.graph.typeAt n with
  | some t => s.catalog.members t
  | none => []

/-- Whether dependencies lead from one node to another. -/
def Reaches (g : Graph) : Node → Node → Prop :=
  Relation.ReflTransGen fun n d => d ∈ g.dependencies n

/-- How many members all nodes have together. -/
def weight (s : Store) : Nat := ∑ i ∈ Finset.range s.graph.size, (s.membersAt ⟨i⟩).length

/-- The distinct members of the types that were given. -/
def sourceMembers (c : Catalog) (given : List (Node × Ty)) : List Ty :=
  Ty.increasing (given.flatMap fun source => c.members source.2)

theorem membersAt_of_typed (h : s.graph.typeAt n = some t) : s.membersAt n = s.catalog.members t := by
  unfold membersAt
  rw [h]

theorem membersAt_of_untyped (h : s.graph.typeAt n = none) : s.membersAt n = [] := by
  unfold membersAt
  rw [h]

theorem mem_membersAt : m ∈ s.membersAt n ↔
    ∃ t, s.graph.typeAt n = some t ∧ m ∈ s.catalog.members t := by
  unfold membersAt
  cases s.graph.typeAt n <;> simp

/-- A node that keeps a definite type keeps its members, whatever the catalog takes in. -/
theorem AllDefinite.membersAt_eq (h : s.AllDefinite) (hg : s.catalog.Grows s'.catalog)
    (htype : s'.graph.typeAt n = s.graph.typeAt n) : s'.membersAt n = s.membersAt n := by
  cases hn : s.graph.typeAt n with
  | none => rw [membersAt_of_untyped hn, membersAt_of_untyped (htype.trans hn)]
  | some t =>
    rw [membersAt_of_typed hn, membersAt_of_typed (htype.trans hn),
      hg.members_of_definite_eq (h n t hn)]

theorem AllDefinite.increasing_membersAt (h : s.AllDefinite) (hc : s.catalog.Canonical) (n : Node) :
    (s.membersAt n).Pairwise (·.index < ·.index) := by
  cases hn : s.graph.typeAt n with
  | none =>
    rw [membersAt_of_untyped hn]
    exact List.Pairwise.nil
  | some t =>
    rw [membersAt_of_typed hn]
    exact hc.increasing_members (h n t hn).1

theorem AllDefinite.typed_iff (h : s.AllDefinite) (hc : s.catalog.Canonical) (n : Node) :
    s.graph.typeAt n = none ↔ ∀ m, m ∉ s.membersAt n := by
  constructor
  · intro hn m
    rw [membersAt_of_untyped hn]
    exact List.not_mem_nil
  · intro hnone
    refine Option.eq_none_iff_forall_ne_some.mpr fun t ht => ?_
    obtain ⟨m, hm⟩ := List.exists_mem_of_ne_nil _ (hc.members_ne_nil (h n t ht).1)
    exact hnone m (mem_membersAt.mpr ⟨t, ht, hm⟩)

/-! ## Weight -/

/-- An increasing list has fewer types than another one that has these and differs from it. -/
theorem length_lt_of_subset {l l' : List Ty} (h : l.Pairwise (·.index < ·.index))
    (h' : l'.Pairwise (·.index < ·.index)) (hsub : ∀ u ∈ l, u ∈ l') (hne : l ≠ l') :
    l.length < l'.length := by
  have hsubperm := (Ty.nodup_of_increasing h).subperm hsub
  refine Nat.lt_of_le_of_ne hsubperm.length_le fun heq => hne ?_
  exact Ty.eq_of_increasing h h' fun t => (hsubperm.perm_of_length_le heq.ge).mem_iff

theorem weight_le (hsize : s'.graph.size = s.graph.size)
    (h : ∀ n, (s.membersAt n).length ≤ (s'.membersAt n).length) : s.weight ≤ s'.weight := by
  unfold weight
  rw [hsize]
  exact Finset.sum_le_sum fun i _ => h ⟨i⟩

theorem weight_lt (hsize : s'.graph.size = s.graph.size)
    (h : ∀ n, (s.membersAt n).length ≤ (s'.membersAt n).length) (hn : n.index < s.graph.size)
    (hlt : (s.membersAt n).length < (s'.membersAt n).length) : s.weight < s'.weight := by
  unfold weight
  rw [hsize]
  exact Finset.sum_lt_sum (fun i _ => h ⟨i⟩) ⟨n.index, Finset.mem_range.mpr hn, hlt⟩

/-! ## Recomputing a plain node -/

/-- A plain node gets exactly the members of its dependencies. -/
theorem mem_membersAt_recompute (hs : s.Formed) (hd : s.AllDefinite)
    (hkind : (s.graph.cell n).kind = .plain) (hne : s.graph.inputs n ≠ []) :
    m ∈ (s.recompute n).membersAt n ↔ ∃ d ∈ s.graph.dependencies n, m ∈ s.membersAt d := by
  have hdefinite : ∀ t ∈ s.graph.inputs n, s.catalog.Definite t := by
    intro t ht
    obtain ⟨d, -, hdt⟩ := mem_inputs.mp ht
    exact hd d t hdt
  have hn : n.index < s.graph.size := by
    obtain ⟨t, ht⟩ := List.exists_mem_of_ne_nil _ hne
    obtain ⟨d, hdn, -⟩ := mem_inputs.mp ht
    exact Graph.lt_size_of_dependency hdn
  have hjoin : ∀ m, (∃ u ∈ s.graph.inputs n, m ∈ s.catalog.members u) ↔
      ∃ d ∈ s.graph.dependencies n, m ∈ s.membersAt d := by
    intro m
    constructor
    · rintro ⟨u, hu, hm⟩
      obtain ⟨d, hdn, hdu⟩ := mem_inputs.mp hu
      exact ⟨d, hdn, mem_membersAt.mpr ⟨u, hdu, hm⟩⟩
    · rintro ⟨d, hdn, hm⟩
      obtain ⟨u, hdu, hm⟩ := mem_membersAt.mp hm
      exact ⟨u, mem_inputs.mpr ⟨d, hdn, hdu⟩, hm⟩
  rw [← hjoin]
  rcases recompute_cases s n with ⟨t, ht, heq⟩ | ⟨hnone, -⟩
  · rw [hkind, combine_plain] at ht heq
    obtain ⟨-, hmembers⟩ := joined_of_definite hs.canonical hdefinite ht
    have htype : (s.recompute n).graph.typeAt n = some t := by
      rw [heq]
      show (s.graph.retype n t).typeAt n = _
      rw [Graph.typeAt_retype, if_pos ⟨rfl, hn⟩]
    rw [membersAt_of_typed htype, heq]
    exact hmembers m
  · rw [hkind, combine_plain, joined_eq_none_iff hs.canonical fun t ht => (hdefinite t ht).1]
      at hnone
    rcases hnone with hnil | ⟨-, hsuperseded⟩
    · exact absurd hnil hne
    · -- definite types are never superseded
      obtain ⟨t, ht⟩ := List.exists_mem_of_ne_nil _ hne
      have := hsuperseded t ht
      rw [isSuperseded_of_definite (hdefinite t ht)] at this
      cases this

theorem AllDefinite.membersAt_recompute_of_ne (h : s.AllDefinite) (hd : d ≠ n) :
    (s.recompute n).membersAt d = s.membersAt d :=
  h.membersAt_eq (recompute_flows s n).catalog.toGrows (typeAt_recompute_of_ne hd)

/-! ## What holds while a graph is assembled -/

/-- What holds of a plain graph to whose sources the types `given` were given. -/
structure Assembling (limit : Nat) (given : List (Node × Ty)) (s : Store) : Prop where
  formed : s.Formed
  definite : s.AllDefinite
  plain : ∀ n, (s.graph.cell n).kind = .plain
  held : ∀ n t, (n, t) ∈ given → s.graph.dependencies n = [] ∧ s.graph.typeAt n = some t
  /-- Every member of a node comes from a source that the node leads to. -/
  origin : ∀ n, ∀ m ∈ s.membersAt n, ∃ source t, (source, t) ∈ given ∧ Reaches s.graph n source ∧
    m ∈ s.catalog.members t
  /-- Every member of a node that is no source is a member of one of its dependencies. -/
  covered : ∀ n, s.graph.dependencies n ≠ [] → ∀ m ∈ s.membersAt n,
    ∃ d ∈ s.graph.dependencies n, m ∈ s.membersAt d
  limited : s.graph.limit = limit
  within : s.graph.budget ≤ limit
  /-- The nodes that were queued so far are no more than the members that nodes have. -/
  count : limit - s.graph.budget + s.graph.queue.length ≤ s.weight

namespace Assembling

theorem start (hc : c.Canonical) : Assembling limit [] ⟨c, .empty limit⟩ := by
  have hcell : ∀ n, (Graph.empty limit).cell n = default :=
    fun n => Graph.cell_of_size_le (Nat.zero_le _)
  have huntyped : ∀ n, Graph.typeAt (.empty limit) n = none := fun n => by
    rw [Graph.typeAt, hcell]
    rfl
  refine ⟨formed_start hc limit, fun n t ht => ?_, fun n => ?_, fun n t h => (by cases h),
    fun n m hm => ?_, fun n hn => absurd ?_ hn, rfl, Nat.le_refl _, ?_⟩
  · exact absurd (ht.symm.trans (huntyped n)) (by simp)
  · show ((Graph.empty limit).cell n).kind = _
    rw [hcell]
    rfl
  · rw [membersAt_of_untyped (huntyped n)] at hm
    cases hm
  · show (Graph.empty limit).dependencies n = []
    rw [Graph.dependencies, hcell]
    rfl
  · simp [Graph.empty]

/-- A change keeps the invariant if nodes keep their dependencies and members, and every member that
is new at a node was given to it or was a member of one of its dependencies. -/
theorem of_change (h : Assembling limit given s) {given' : List (Node × Ty)}
    (hformed : s'.Formed) (hdefinite : s'.AllDefinite) (hplain : ∀ n, (s'.graph.cell n).kind = .plain)
    (hgrows : s.catalog.Grows s'.catalog) (hgiven : ∀ n t, (n, t) ∈ given → (n, t) ∈ given')
    (hheld : ∀ n t, (n, t) ∈ given' →
      s'.graph.dependencies n = [] ∧ s'.graph.typeAt n = some t)
    (hdeps : ∀ n d, d ∈ s.graph.dependencies n → d ∈ s'.graph.dependencies n)
    (hwider : ∀ n, ∀ m ∈ s.membersAt n, m ∈ s'.membersAt n)
    (hnew : ∀ n, ∀ m ∈ s'.membersAt n, m ∈ s.membersAt n ∨
      (∃ t, (n, t) ∈ given' ∧ m ∈ s'.catalog.members t) ∨
      ∃ d ∈ s'.graph.dependencies n, m ∈ s.membersAt d)
    (hbudget : s'.graph.limit = limit ∧ s'.graph.budget ≤ limit)
    (hcount : limit - s'.graph.budget + s'.graph.queue.length ≤ s'.weight) :
    Assembling limit given' s' := by
  -- what had an origin has it still, as edges and the members of given types stay
  have lift : ∀ n, ∀ m ∈ s.membersAt n, ∃ source t, (source, t) ∈ given' ∧
      Reaches s'.graph n source ∧ m ∈ s'.catalog.members t := by
    intro n m hm
    obtain ⟨source, t, hst, hreach, hmt⟩ := h.origin n m hm
    refine ⟨source, t, hgiven _ _ hst,
      Relation.ReflTransGen.mono (fun a b hab => hdeps a b hab) _ _ hreach, ?_⟩
    rw [hgrows.members_of_definite_eq (h.definite source t (h.held source t hst).2)]
    exact hmt
  refine ⟨hformed, hdefinite, hplain, hheld, fun n m hm => ?_, fun n hn m hm => ?_, hbudget.1,
    hbudget.2, hcount⟩
  · rcases hnew n m hm with hold | ⟨t, hst, hmt⟩ | ⟨d, hd, hmd⟩
    · exact lift n m hold
    · exact ⟨n, t, hst, .refl, hmt⟩
    · obtain ⟨source, t, hst, hreach, hmt⟩ := lift d m hmd
      exact ⟨source, t, hst, .head hd hreach, hmt⟩
  · rcases hnew n m hm with hold | ⟨t, hst, -⟩ | ⟨d, hd, hmd⟩
    · by_cases hnone : s.graph.dependencies n = []
      · -- a node without dependencies has what it was given, and is never bound
        obtain ⟨source, t, hst, hreach, -⟩ := h.origin n m hold
        rcases hreach.cases_head with rfl | ⟨d, hd, -⟩
        · exact absurd (hheld n t (hgiven _ _ hst)).1 hn
        · rw [hnone] at hd
          cases hd
      · obtain ⟨d, hd, hmd⟩ := h.covered n hnone m hold
        exact ⟨d, hdeps n d hd, hwider d m hmd⟩
    · exact absurd (hheld n t hst).1 hn
    · exact ⟨d, hd, hwider d m hmd⟩

/-- Recomputing lets the members of every node stay or grow. -/
theorem wider_recompute (h : Assembling limit given s) (n : Node) :
    ∀ k, ∀ m ∈ s.membersAt k, m ∈ (s.recompute n).membersAt k := by
  intro k m hm
  by_cases hin : s.graph.inputs n = []
  · rw [recompute_of_inputs_nil hin]
    exact hm
  · by_cases hk : k = n
    · subst hk
      rw [mem_membersAt_recompute h.formed h.definite (h.plain k) hin]
      refine h.covered k (fun hnil => hin ?_) m hm
      unfold Graph.inputs
      rw [hnil]
      rfl
    · rw [h.definite.membersAt_recompute_of_ne hk]
      exact hm

/-- If recomputing queues a node, that node gets another type. -/
theorem queue_recompute (s : Store) (hn : n.index < s.graph.size) :
    (s.recompute n).graph.queue.length = s.graph.queue.length ∨
      ((s.recompute n).graph.queue.length = s.graph.queue.length + 1 ∧
        ∃ t, (s.recompute n).graph.typeAt n = some t ∧ s.graph.typeAt n ≠ some t) := by
  rcases recompute_cases s n with ⟨t, -, heq⟩ | ⟨-, heq⟩
  · rw [heq]
    dsimp only
    by_cases hsame : s.graph.typeAt n = some t
    · left
      unfold Graph.retype
      rw [if_pos hsame]
    · rcases Graph.retype_cases s.graph n t with ⟨h, -⟩ | ⟨-, hg⟩ | ⟨-, hg⟩
      · exact absurd h hsame
      · left
        rw [hg]
        rfl
      · right
        refine ⟨by rw [hg]; simp, t, ?_, hsame⟩
        rw [Graph.typeAt_retype, if_pos ⟨rfl, hn⟩]
  · left
    rw [heq]

/-- A definite type that replaces another one has other members. -/
theorem membersAt_ne_of_retyped (hd : s.AllDefinite) (hg : s.catalog.Grows s'.catalog)
    (hc : s'.catalog.Canonical) (hd' : s'.AllDefinite) (ht : s'.graph.typeAt n = some t)
    (hne : s.graph.typeAt n ≠ some t) : s.membersAt n ≠ s'.membersAt n := by
  intro hsame
  have hdt := hd' n t ht
  rw [membersAt_of_typed ht] at hsame
  cases hold : s.graph.typeAt n with
  | none =>
    rw [membersAt_of_untyped hold] at hsame
    exact hc.members_ne_nil hdt.1 hsame.symm
  | some u =>
    have hdu := hd n u hold
    rw [membersAt_of_typed hold, ← hg.members_of_definite_eq hdu] at hsame
    exact hne (hc.eq_of_members_eq (hg.definite hdu) hdt hsame ▸ hold)

/-- What recomputing adds to the queue it adds to the weight. -/
theorem weight_recompute (h : Assembling limit given s) (n : Node) :
    (s.recompute n).graph.queue.length + s.weight ≤
      s.graph.queue.length + (s.recompute n).weight := by
  have hs' := h.formed.recompute n
  have hd' := h.definite.recompute h.formed n
  have hflow := recompute_flows s n
  have hincreasing := h.definite.increasing_membersAt h.formed.canonical
  have hlength : ∀ k, (s.membersAt k).length ≤ ((s.recompute n).membersAt k).length := fun k =>
    ((Ty.nodup_of_increasing (hincreasing k)).subperm (h.wider_recompute n k)).length_le
  have hle := weight_le hflow.size hlength
  by_cases hn : n.index < s.graph.size
  · rcases queue_recompute s hn with hq | ⟨hq, t, ht, hne⟩
    · omega
    · -- a node is queued only with another type, which has more members
      have hlt := weight_lt hflow.size hlength hn (length_lt_of_subset (hincreasing n)
        (hd'.increasing_membersAt hs'.canonical n) (h.wider_recompute n n)
        (membersAt_ne_of_retyped h.definite hflow.catalog.toGrows hs'.canonical hd' ht hne))
      omega
  · have hinputs : s.graph.inputs n = [] := by
      unfold Graph.inputs Graph.dependencies
      rw [Graph.cell_of_size_le (Nat.not_lt.mp hn)]
      rfl
    rw [recompute_of_inputs_nil hinputs]

theorem recompute (h : Assembling limit given s) (n : Node) :
    Assembling limit given (s.recompute n) := by
  have hflow := recompute_flows s n
  have hbudget := budget_recompute s n
  refine h.of_change (h.formed.recompute n) (h.definite.recompute h.formed n)
    (fun k => (hflow.kind k).trans (h.plain k)) hflow.catalog.toGrows (fun _ _ hk => hk)
    (fun k t hk => ?_) (fun k d hd => by rw [hflow.dependencies]; exact hd) (h.wider_recompute n)
    (fun k m hm => ?_) ⟨hbudget.2.trans h.limited, hbudget.1 ▸ h.within⟩ ?_
  · obtain ⟨hdeps, htype⟩ := h.held k t hk
    exact ⟨(hflow.dependencies k).trans hdeps, (hflow.held k hdeps).trans htype⟩
  · rw [hflow.dependencies]
    by_cases hin : s.graph.inputs n = []
    · rw [recompute_of_inputs_nil hin] at hm
      exact .inl hm
    · by_cases hk : k = n
      · subst hk
        exact .inr (.inr ((mem_membersAt_recompute h.formed h.definite (h.plain k) hin).mp hm))
      · rw [h.definite.membersAt_recompute_of_ne hk] at hm
        exact .inl hm
  · have := h.weight_recompute n
    have := h.count
    rw [hbudget.1]
    omega

/-! ## Nodes and edges -/

/-- A source or any other node may be added. -/
theorem add (h : Assembling limit given s) (type : Option Ty) (place : Place)
    (htype : ∀ t, type = some t → s.catalog.Definite t) :
    Assembling limit (type.toList.map (⟨s.graph.size⟩, ·) ++ given) (s.add .plain type place) := by
  have hold : ∀ k : Node, k.index ≠ s.graph.size →
      (s.add .plain type place).graph.cell k = s.graph.cell k := fun k hk =>
    (Graph.cell_add s.graph .plain type place k).trans (if_neg hk)
  have hnew : (s.add .plain type place).graph.cell ⟨s.graph.size⟩ =
      ⟨.plain, type, [], [], false, place⟩ :=
    (Graph.cell_add s.graph .plain type place ⟨s.graph.size⟩).trans (if_pos rfl)
  have hmembers : ∀ k : Node, k.index ≠ s.graph.size →
      (s.add .plain type place).membersAt k = s.membersAt k := fun k hk => by
    unfold membersAt Graph.typeAt
    rw [hold k hk]
    rfl
  refine h.of_change (h.formed.add .plain place fun t ht => (htype t ht).1)
    (h.definite.add .plain place htype) (fun k => ?_) (.refl _)
    (fun k t hk => List.mem_append_right _ hk) (fun k t hk => ?_) (fun k d hd => ?_)
    (fun k m hm => ?_) (fun k m hm => ?_) ⟨h.limited, h.within⟩ ?_
  · by_cases hk : k.index = s.graph.size
    · rw [Node.eq_of_index (m := k) (n := ⟨s.graph.size⟩) hk, hnew]
    · rw [hold k hk]
      exact h.plain k
  · unfold Graph.dependencies Graph.typeAt
    rcases List.mem_append.mp hk with hk | hk
    · obtain ⟨u, hu, heq⟩ := List.mem_map.mp hk
      cases heq
      rw [hnew]
      exact ⟨rfl, by simpa using hu⟩
    · obtain ⟨hnone, htyped⟩ := h.held k t hk
      rw [hold k (Nat.ne_of_lt (Graph.lt_size_of_typed htyped))]
      exact ⟨hnone, htyped⟩
  · unfold Graph.dependencies
    rw [hold k (Nat.ne_of_lt (Graph.lt_size_of_dependency hd))]
    exact hd
  · obtain ⟨t, ht, -⟩ := mem_membersAt.mp hm
    rw [hmembers k (Nat.ne_of_lt (Graph.lt_size_of_typed ht))]
    exact hm
  · by_cases hk : k.index = s.graph.size
    · obtain rfl := Node.eq_of_index (m := k) (n := ⟨s.graph.size⟩) hk
      obtain ⟨t, ht, hmt⟩ := mem_membersAt.mp hm
      unfold Graph.typeAt at ht
      rw [hnew] at ht
      refine .inr (.inl ⟨t, List.mem_append_left _ (List.mem_map.mpr ⟨t, ?_, rfl⟩), hmt⟩)
      exact Option.mem_toList.mpr ht
    · rw [hmembers k hk] at hm
      exact .inl hm
  · have hweight : s.weight ≤ (s.add .plain type place).weight := by
      unfold weight
      rw [show (s.add .plain type place).graph.size = s.graph.size + 1 from Graph.size_add ..,
        Finset.sum_range_succ]
      refine Nat.le_trans (Finset.sum_le_sum fun i hi => ?_) (Nat.le_add_right _ _)
      rw [hmembers ⟨i⟩ (Nat.ne_of_lt (Finset.mem_range.mp hi))]
    exact Nat.le_trans h.count hweight

theorem queue_retype_le (g : Graph) (n : Node) (t : Ty) :
    (g.retype n t).queue.length ≤ g.queue.length + 1 := by
  rcases Graph.retype_cases g n t with ⟨-, heq⟩ | ⟨-, heq⟩ | ⟨-, heq⟩
  · rw [heq]
    exact Nat.le_succ _
  · rw [heq]
    exact Nat.le_succ _
  · rw [heq]
    simp

theorem membersAt_retype (hn : n.index < s.graph.size) (t : Ty) (k : Node) :
    membersAt ⟨s.catalog, s.graph.retype n t⟩ k =
      if k = n then s.catalog.members t else s.membersAt k := by
  unfold membersAt
  dsimp only
  rw [Graph.typeAt_retype]
  by_cases hk : k = n
  · rw [if_pos ⟨hk, hn⟩, if_pos hk]
  · rw [if_neg fun h => hk h.1, if_neg hk]

/-- A node that gets its first type adds to the weight. -/
theorem weight_lt_retype (hc : s.catalog.Canonical) (hn : n.index < s.graph.size)
    (huntyped : s.graph.typeAt n = none) (ht : t.index < s.catalog.size) :
    s.weight < weight ⟨s.catalog, s.graph.retype n t⟩ := by
  have hempty : s.membersAt n = [] := membersAt_of_untyped huntyped
  refine weight_lt (Graph.size_retype ..) (fun k => ?_) hn ?_
  · rw [membersAt_retype hn]
    split
    · next hk =>
      rw [hk, hempty]
      exact Nat.zero_le _
    · exact Nat.le_refl _
  · rw [hempty, membersAt_retype hn, if_pos rfl]
    exact List.length_pos_of_ne_nil (hc.members_ne_nil ht)

/-- A node without dependencies and without a type may be given one. -/
theorem setType (h : Assembling limit given s) (hn : n.index < s.graph.size)
    (hdeps : s.graph.dependencies n = []) (huntyped : s.graph.typeAt n = none)
    (ht : s.catalog.Definite t) :
    Assembling limit ((n, t) :: given) ⟨s.catalog, s.graph.retype n t⟩ := by
  have hbudget := budget_retype s.graph n t
  refine h.of_change (h.formed.retype n ht.1) (h.definite.retype n ht)
    (fun k => (Graph.kind_retype ..).trans (h.plain k)) (.refl _)
    (fun k u hk => List.mem_cons_of_mem _ hk) (fun k u hk => ?_)
    (fun k d hd => ?_) (fun k m hm => ?_) (fun k m hm => ?_)
    ⟨hbudget.2.trans h.limited, hbudget.1 ▸ h.within⟩ ?_
  · show (s.graph.retype n t).dependencies k = [] ∧ (s.graph.retype n t).typeAt k = some u
    rw [Graph.dependencies_retype, Graph.typeAt_retype]
    rcases List.mem_cons.mp hk with heq | hk
    · cases heq
      exact ⟨hdeps, if_pos ⟨rfl, hn⟩⟩
    · obtain ⟨hnone, hu⟩ := h.held k u hk
      have hkn : k ≠ n := fun e => by
        rw [e, huntyped] at hu
        cases hu
      exact ⟨hnone, by rw [if_neg fun e => hkn e.1]; exact hu⟩
  · show d ∈ (s.graph.retype n t).dependencies k
    rw [Graph.dependencies_retype]
    exact hd
  · rw [membersAt_retype hn, if_neg fun e => ?_]
    · exact hm
    · rw [e, membersAt_of_untyped huntyped] at hm
      cases hm
  · rw [membersAt_retype hn] at hm
    split at hm
    · next hk => exact .inr (.inl ⟨t, hk ▸ List.mem_cons_self, hm⟩)
    · exact .inl hm
  · -- the one node that may be queued gets its first members
    have hweight := weight_lt_retype h.formed.canonical hn huntyped ht.1
    have hqueue := queue_retype_le s.graph n t
    have hcount := h.count
    dsimp only
    rw [hbudget.1]
    omega

theorem membersAt_link (s : Store) (n d k : Node) :
    membersAt ⟨s.catalog, s.graph.link n d⟩ k = s.membersAt k := by
  unfold membersAt
  dsimp only
  rw [Graph.typeAt_link]

/-- A node to which no type is given may be bound. -/
theorem bind (h : Assembling limit given s) (hd : d.index < s.graph.size)
    (hsource : ∀ t, (n, t) ∉ given) : Assembling limit given (s.bind n d) := by
  have hlink : Assembling limit given ⟨s.catalog, s.graph.link n d⟩ := by
    refine h.of_change (h.formed.link n hd) (h.definite.of_typeAt (Graph.typeAt_link s.graph n d))
      (fun k => (Graph.kind_link ..).trans (h.plain k)) (.refl _) (fun _ _ hk => hk)
      (fun k t hk => ?_) (fun k e he => ?_) (fun k m hm => ?_) (fun k m hm => ?_)
      ⟨h.limited, h.within⟩ ?_
    · have hkn : k ≠ n := fun e => hsource t (e ▸ hk)
      refine ⟨?_, (Graph.typeAt_link ..).trans (h.held k t hk).2⟩
      show (s.graph.link n d).dependencies k = []
      rw [Graph.dependencies_link, if_neg fun e => hkn e.1]
      exact (h.held k t hk).1
    · show e ∈ (s.graph.link n d).dependencies k
      rw [Graph.dependencies_link]
      split
      · exact Graph.mem_addOnce.mpr (.inr he)
      · exact he
    · rw [membersAt_link]
      exact hm
    · rw [membersAt_link] at hm
      exact .inl hm
    · refine Nat.le_trans h.count (weight_le (Graph.size_link ..) fun k => ?_)
      rw [membersAt_link]
  rw [bind_eq]
  split
  · exact hlink.recompute n
  · exact hlink

/-! ## Rounds of propagation -/

theorem membersAt_taken (s : Store) (n : Node) (rest : List Node) (budget : Nat) (k : Node) :
    (s.taken n rest budget).membersAt k = s.membersAt k := by
  unfold membersAt
  rw [show (s.taken n rest budget).graph.typeAt k = s.graph.typeAt k from
    field_taken (·.type) (fun _ => rfl) s n rest budget k]
  rfl

/-- A node is taken off the queue for one unit of the budget. -/
theorem taken (h : Assembling limit given s) {rest : List Node} {budget : Nat}
    (hq : s.graph.queue = n :: rest) (hb : s.graph.budget = budget + 1) :
    Assembling limit given (s.taken n rest budget) := by
  have hflow := taken_flows s n rest budget
  have htype : ∀ k, (s.taken n rest budget).graph.typeAt k = s.graph.typeAt k :=
    field_taken (·.type) (fun _ => rfl) s n rest budget
  have hwithin := h.within
  refine h.of_change (h.formed.taken hq budget) (h.definite.of_typeAt htype)
    (fun k => (hflow.kind k).trans (h.plain k)) (.refl _) (fun _ _ hk => hk) (fun k t hk => ?_)
    (fun k d hd => by rw [hflow.dependencies]; exact hd)
    (fun k m hm => by rw [membersAt_taken]; exact hm)
    (fun k m hm => .inl (by rw [membersAt_taken] at hm; exact hm)) ⟨h.limited, ?_⟩ ?_
  · obtain ⟨hdeps, ht⟩ := h.held k t hk
    exact ⟨(hflow.dependencies k).trans hdeps, (htype k).trans ht⟩
  · show budget ≤ limit
    omega
  · have hweight : s.weight ≤ (s.taken n rest budget).weight :=
      weight_le hflow.size fun k => Nat.le_of_eq (by rw [membersAt_taken])
    have hcount := h.count
    rw [hq, hb, List.length_cons] at hcount
    show limit - budget + rest.length ≤ _
    omega

theorem notified (h : Assembling limit given s) (ws : List Watcher) (wakes : List Wake) :
    Assembling limit given (ws.foldl notify (s, wakes)).1 ∧
      (ws.foldl notify (s, wakes)).1.graph.budget = s.graph.budget ∧
      (ws.foldl notify (s, wakes)).1.graph.size = s.graph.size :=
  notify_keeps (fun r => Assembling limit given r ∧ r.graph.budget = s.graph.budget ∧
      r.graph.size = s.graph.size)
    (fun r n hr => ⟨hr.1.recompute n, (budget_recompute r n).1.trans hr.2.1,
      (recompute_flows r n).size.trans hr.2.2⟩)
    ws (s, wakes) ⟨h, rfl, rfl⟩

/-- Nodes have no other members than the sources. -/
theorem weight_le_sources (h : Assembling limit given s) :
    s.weight ≤ s.graph.size * (sourceMembers s.catalog given).length := by
  have hnode : ∀ n, (s.membersAt n).length ≤ (sourceMembers s.catalog given).length := by
    intro n
    have hincreasing := h.definite.increasing_membersAt h.formed.canonical n
    refine ((Ty.nodup_of_increasing hincreasing).subperm fun m hm => ?_).length_le
    obtain ⟨source, t, hst, -, hmt⟩ := h.origin n m hm
    exact (Ty.mem_increasing m _).mpr (List.mem_flatMap.mpr ⟨(source, t), hst, hmt⟩)
  have := Finset.sum_le_card_nsmul (Finset.range s.graph.size) (fun i => (s.membersAt ⟨i⟩).length)
    (sourceMembers s.catalog given).length fun i _ => hnode ⟨i⟩
  rw [Finset.card_range] at this
  exact this

/-- So many nodes at most were taken off the queue. -/
theorem dequeued_le (h : Assembling limit given s) :
    limit - s.graph.budget + s.graph.queue.length ≤
      s.graph.size * (sourceMembers s.catalog given).length :=
  Nat.le_trans h.count h.weight_le_sources

theorem sourceMembers_eq (h : Assembling limit given s) (hg : s.catalog.Grows c) :
    sourceMembers c given = sourceMembers s.catalog given := by
  unfold sourceMembers
  rw [List.flatMap_def, List.flatMap_def]
  congr 2
  refine List.map_congr_left fun source hsource => ?_
  exact hg.members_of_definite_eq (h.definite source.1 source.2 (h.held _ _ hsource).2)

/-- A round keeps the invariant, and ends if the limit is large enough. -/
theorem drain {budget : Nat} (h : Assembling limit given s) (hb : s.graph.budget = budget)
    (wakes : List Wake) :
    (∀ wakes' s', drain budget s wakes = .ok wakes' s' → Assembling limit given s') ∧
      (s.graph.size * (sourceMembers s.catalog given).length ≤ limit →
        ∃ wakes' s', drain budget s wakes = .ok wakes' s') := by
  induction budget generalizing s wakes with
  | zero =>
    unfold Store.drain
    split
    · exact ⟨fun _ _ hok => (by cases hok; exact h), fun _ => ⟨_, _, rfl⟩⟩
    · next n rest hq =>
      refine ⟨fun _ _ hok => (by cases hok), fun hlimit => ?_⟩
      -- the queued node would be one more than there can be
      have hcount := h.dequeued_le
      rw [hb, hq, List.length_cons] at hcount
      omega
  | succ budget ih =>
    unfold Store.drain
    split
    · exact ⟨fun _ _ hok => (by cases hok; exact h), fun _ => ⟨_, _, rfl⟩⟩
    · next n rest hq =>
      have htaken := h.taken hq hb
      obtain ⟨hstep, hbudget, hsize⟩ := htaken.notified (s.graph.cell n).watchers wakes
      rw [← step_eq] at hstep hbudget hsize
      obtain ⟨hkeeps, hends⟩ := ih hstep hbudget (s.step n rest budget wakes).2
      refine ⟨hkeeps, fun hlimit => hends ?_⟩
      have hgrows : s.catalog.Grows (s.step n rest budget wakes).1.catalog := by
        have hn := notified_all (h.formed.taken hq budget) wakes (s.graph.cell n).watchers
        exact hn.flows.catalog.toGrows
      rw [hsize, h.sourceMembers_eq hgrows]
      exact Nat.le_trans (Nat.le_of_eq (by rw [(taken_flows s n rest budget).size])) hlimit

theorem propagate (h : Assembling limit given s) :
    (∀ wakes s', propagate s = .ok wakes s' → Assembling limit given s') ∧
      (s.graph.size * (sourceMembers s.catalog given).length ≤ limit →
        ∃ wakes s', propagate s = .ok wakes s') :=
  h.drain rfl []

end Assembling

/-! ## Assembled graphs -/

/-- Graphs of plain nodes assembled over the catalog `c`, with the types that were given to sources:
a node gets a type when it is added or once afterwards, as long as it has no dependencies, and then
is never bound. -/
inductive Assembled (c : Catalog) (limit : Nat) : List (Node × Ty) → Store → Prop
  | start : Assembled c limit [] ⟨c, .empty limit⟩
  | addNode {given : List (Node × Ty)} {s : Store} (h : Assembled c limit given s) (place : Place) :
      Assembled c limit given (s.add .plain none place)
  | addTyped {given : List (Node × Ty)} {s : Store} (h : Assembled c limit given s) (t : Ty)
      (place : Place) (ht : s.catalog.Definite t) :
      Assembled c limit ((⟨s.graph.size⟩, t) :: given) (s.add .plain (some t) place)
  | setType {given : List (Node × Ty)} {s : Store} (h : Assembled c limit given s) (n : Node) (t : Ty)
      (hn : n.index < s.graph.size) (hdeps : s.graph.dependencies n = [])
      (huntyped : s.graph.typeAt n = none) (ht : s.catalog.Definite t) :
      Assembled c limit ((n, t) :: given) ⟨s.catalog, s.graph.retype n t⟩
  | bind {given : List (Node × Ty)} {s : Store} (h : Assembled c limit given s) (n d : Node)
      (hn : n.index < s.graph.size) (hd : d.index < s.graph.size)
      (hsource : ∀ t, (n, t) ∉ given) : Assembled c limit given (s.bind n d)
  | propagate {given : List (Node × Ty)} {s s' : Store} {wakes : List Wake}
      (h : Assembled c limit given s) (hs' : propagate s = .ok wakes s') :
      Assembled c limit given s'

theorem Assembled.assembling (hc : c.Canonical) (h : Assembled c limit given s) :
    Assembling limit given s := by
  induction h with
  | start => exact .start hc
  | addNode _ place ih => exact ih.add none place fun t ht => by cases ht
  | addTyped _ t place ht ih => exact ih.add (some t) place fun u hu => by cases hu; exact ht
  | setType _ n t hn hdeps huntyped ht ih => exact ih.setType hn hdeps huntyped ht
  | bind _ n d hn hd hsource ih => exact ih.bind hd hsource
  | propagate _ hs' ih => exact ih.propagate.1 _ _ hs'

/-- An assembled graph is one of those that are built. -/
theorem Assembled.built (h : Assembled c limit given s) : Built c limit s := by
  induction h with
  | start => exact .start
  | addNode _ place ih => exact ih.addNode place
  | addTyped _ t place ht ih => exact ih.addTyped t place ht
  | setType _ n t hn hdeps _ ht ih => exact ih.setType n t hn hdeps ht
  | bind _ n d hn hd _ ih => exact ih.bind n d hn hd
  | propagate _ hs' ih => exact ih.propagate hs'

/-- In a plain graph that is settled a node has all members of its dependencies. -/
theorem members_of_settled (hb : s.Balanced []) (hquiet : ∀ n, s.graph.dirtyAt n = false)
    (hd : s.AllDefinite) (hkind : (s.graph.cell n).kind = .plain)
    (hdep : d ∈ s.graph.dependencies n) (hm : m ∈ s.membersAt d) : m ∈ s.membersAt n := by
  obtain ⟨q, hq, hmq⟩ := mem_membersAt.mp hm
  have hsolved : s.Solved n := by
    rcases hb n with hsolved | ⟨e, -, hdirty⟩ | hdue
    · exact hsolved
    · rw [hquiet e] at hdirty
      cases hdirty
    · cases hdue
  unfold Solved at hsolved
  rw [hkind] at hsolved
  have hlive := isSuperseded_of_definite (hd d q hq)
  obtain ⟨t, ht, hcases⟩ := hsolved.covers (mem_inputs.mpr ⟨d, hdep, hq⟩) hlive
  rw [membersAt_of_typed ht]
  rcases hcases with rfl | ⟨-, hsub⟩
  · exact hmq
  · exact hsub m hmq

/-- After a round a node has exactly the members of the sources that it leads to. -/
theorem Assembled.mem_membersAt_iff (hc : c.Canonical) (h : Assembled c limit given s)
    (hok : Store.propagate s = .ok wakes s') :
    m ∈ s'.membersAt n ↔ ∃ source t, (source, t) ∈ given ∧ Reaches s'.graph n source ∧
      m ∈ s'.catalog.members t := by
  have ha := (h.propagate hok).assembling hc
  refine ⟨ha.origin n m, ?_⟩
  rintro ⟨source, t, hgiven, hreach, hm⟩
  obtain ⟨hs, hb, -⟩ := h.built.invariant hc
  have hp := propagate_ok hs hb hok
  induction hreach using Relation.ReflTransGen.head_induction_on with
  | refl =>
    rw [membersAt_of_typed (ha.held source t hgiven).2]
    exact hm
  | head hdep _ ih => exact members_of_settled hp.balanced hp.quiet ha.definite (ha.plain _) hdep ih

/-- How many nodes have been taken off the queue. -/
def dequeued (s : Store) : Nat := s.graph.limit - s.graph.budget

/-- Two graphs with the same edges whose sources have the same members. -/
def Alike (s : Store) (given : List (Node × Ty)) (r : Store) (given' : List (Node × Ty)) : Prop :=
  (∀ n d, d ∈ s.graph.dependencies n ↔ d ∈ r.graph.dependencies n) ∧
    ∀ source m, (∃ t, (source, t) ∈ given ∧ m ∈ s.catalog.members t) ↔
      ∃ t, (source, t) ∈ given' ∧ m ∈ r.catalog.members t

theorem Alike.reaches_iff {r : Store} {given' : List (Node × Ty)} (h : Alike s given r given') :
    Reaches s.graph n d ↔ Reaches r.graph n d := by
  have heq : (fun n d => d ∈ s.graph.dependencies n) = fun n d => d ∈ r.graph.dependencies n := by
    funext n d
    exact propext (h.1 n d)
  unfold Reaches
  rw [heq]

/-- Over the catalog of any session an assembled graph never takes more nodes off its queue than it
has nodes times distinct members of sources, and with such a limit no round fails. After a round
every node has exactly the members of the sources that it leads to, and no type if there are none.
So two graphs that were assembled in different orders agree. -/
theorem assembled_least {c : Catalog} (hc : c.Started) {limit : Nat} {given : List (Node × Ty)}
    {s : Store} (hs : Assembled c limit given s) :
    s.dequeued ≤ s.graph.size * (sourceMembers s.catalog given).length ∧
    (s.graph.size * (sourceMembers s.catalog given).length ≤ limit →
      ∃ wakes s', propagate s = .ok wakes s') ∧
    ∀ wakes s', propagate s = .ok wakes s' →
      (∀ n m, m ∈ s'.membersAt n ↔ ∃ source t, (source, t) ∈ given ∧ Reaches s'.graph n source ∧
        m ∈ s'.catalog.members t) ∧
      (∀ n, s'.graph.typeAt n = none ↔
        ¬ ∃ source t, (source, t) ∈ given ∧ Reaches s'.graph n source) ∧
      ∀ limit' given' r wakes' r', Assembled c limit' given' r → propagate r = .ok wakes' r' →
        Alike s' given r' given' → ∀ n, s'.membersAt n = r'.membersAt n := by
  have ha := hs.assembling hc.canonical
  refine ⟨?_, ha.propagate.2, fun wakes s' hok => ?_⟩
  · have := ha.dequeued_le
    unfold dequeued
    rw [ha.limited]
    omega
  · have ha' := (hs.propagate hok).assembling hc.canonical
    have hmembers : ∀ n m, m ∈ s'.membersAt n ↔ ∃ source t, (source, t) ∈ given ∧
        Reaches s'.graph n source ∧ m ∈ s'.catalog.members t :=
      fun n m => hs.mem_membersAt_iff hc.canonical hok
    refine ⟨hmembers, fun n => ?_, fun limit' given' r wakes' r' hr hrok halike n => ?_⟩
    · rw [ha'.definite.typed_iff ha'.formed.canonical]
      constructor
      · rintro hnone ⟨source, t, hgiven, hreach⟩
        have hd := ha'.definite source t (ha'.held source t hgiven).2
        obtain ⟨m, hm⟩ :=
          List.exists_mem_of_ne_nil _ (ha'.formed.canonical.members_ne_nil hd.1)
        exact hnone m ((hmembers n m).mpr ⟨source, t, hgiven, hreach, hm⟩)
      · intro hnone m hm
        obtain ⟨source, t, hgiven, hreach, -⟩ := (hmembers n m).mp hm
        exact hnone ⟨source, t, hgiven, hreach⟩
    · have hr' := (hr.propagate hrok).assembling hc.canonical
      refine Ty.eq_of_increasing (ha'.definite.increasing_membersAt ha'.formed.canonical n)
        (hr'.definite.increasing_membersAt hr'.formed.canonical n) fun m => ?_
      rw [hmembers, hr.mem_membersAt_iff hc.canonical hrok]
      refine exists_congr fun source => ?_
      have hsource := halike.2 source m
      constructor
      · rintro ⟨t, hgiven, hreach, hm⟩
        obtain ⟨u, hu, hmu⟩ := hsource.mp ⟨t, hgiven, hm⟩
        exact ⟨u, hu, halike.reaches_iff.mp hreach, hmu⟩
      · rintro ⟨t, hgiven, hreach, hm⟩
        obtain ⟨u, hu, hmu⟩ := hsource.mpr ⟨t, hgiven, hm⟩
        exact ⟨u, hu, halike.reaches_iff.mpr hreach, hmu⟩

/-- Whether a round of propagation ends and then edges lead from node to node along `path`, up to a
source of the type `t`, which is its own only member. -/
def endsAlong (s : Store) (path : List (Node × Node)) (t : Ty) : Bool :=
  match propagate s with
  | .ok _ s' => path.all (fun edge => (s'.graph.dependencies edge.1).contains edge.2) &&
      (s'.catalog.members t).contains t
  | .error _ _ => false

/-- Nodes 2 and 3 depend on each other, one on a source of type `Int` and the other on one of type
`String`. Each gets the members of both. -/
theorem assembled_least_looped : ∃ s s' given wakes, Assembled .seeded 10 given s ∧
    propagate s = .ok wakes s' ∧ .string ∈ s'.membersAt ⟨2⟩ := by
  have sources : ∀ {c : Catalog}, c.Definite .int → c.Definite .string → Assembled c 10 _ _ :=
    fun hint hstring => (Assembled.start.addTyped .int .synthesized hint).addTyped .string
      .synthesized hstring
  have h₂ := sources (elementary_seeded.sound.builtin (by decide))
    (elementary_seeded.sound.builtin (by decide))
  have h₃ := (h₂.addNode .synthesized).addNode .synthesized
  have h₄ := h₃.bind ⟨2⟩ ⟨0⟩ (by decide) (by decide)
    (fun t => by simp [Graph.size, Graph.empty, add, Graph.add])
  have h₅ := h₄.bind ⟨3⟩ ⟨2⟩ (by rw [size_bind]; decide) (by rw [size_bind]; decide)
    (fun t => by simp [Graph.size, Graph.empty, add, Graph.add])
  have h₆ := h₅.bind ⟨2⟩ ⟨3⟩ (by simp only [size_bind]; decide) (by simp only [size_bind]; decide)
    (fun t => by simp [Graph.size, Graph.empty, add, Graph.add])
  have h₇ := h₆.bind ⟨3⟩ ⟨1⟩ (by simp only [size_bind]; decide) (by simp only [size_bind]; decide)
    (fun t => by simp [Graph.size, Graph.empty, add, Graph.add])
  obtain ⟨s, given, hs, hsource, hends⟩ : ∃ s given, Assembled .seeded 10 given s ∧
      (⟨1⟩, .string) ∈ given ∧ s.endsAlong [(⟨2⟩, ⟨3⟩), (⟨3⟩, ⟨1⟩)] .string = true :=
    ⟨_, _, h₇, List.mem_cons_self, by decide +kernel⟩
  unfold endsAlong at hends
  cases h : propagate s with
  | error e s' => rw [h] at hends; cases hends
  | ok wakes s' =>
    rw [h] at hends
    simp only [List.all_cons, List.all_nil, Bool.and_true, Bool.and_eq_true,
      List.contains_iff_mem] at hends
    obtain ⟨⟨hfirst, hsecond⟩, hmember⟩ := hends
    obtain ⟨-, -, hround⟩ := assembled_least started_seeded hs
    obtain ⟨hmembers, -⟩ := hround wakes s' h
    have hreach : Reaches s'.graph ⟨2⟩ ⟨1⟩ := .head hfirst (.single hsecond)
    exact ⟨s, s', given, wakes, hs, h,
      (hmembers ⟨2⟩ .string).mpr ⟨⟨1⟩, .string, hsource, hreach, hmember⟩⟩

end FlowTyping.Store
