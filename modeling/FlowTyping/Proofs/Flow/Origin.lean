import Mathlib.Data.Fintype.Card
import Mathlib.Data.Set.Finite.List
import Mathlib.Order.WellFounded
import FlowTyping.Proofs.Flow.Assembly

/-
  Where the members of a type come from

  In a graph without dirty nodes, each member of the type of a node is followed
  along dependencies: from a plain node to a dependency that has it too, until
  it is with a node that takes no type from others. There are two ways in which
  it may never get there (`exists_origin`). The nodes on the way may form a
  cycle, which then holds up the member by itself; there is no detector for
  that. Or a node has lost what it had the member from (`Orphaned`), as a node
  that nothing new can be combined for keeps the type that it has.
-/
namespace FlowTyping

/-- From anything that leads to finitely many others one comes to an end or to a cycle. -/
theorem exists_end_or_cycle {α : Type} {R : α → α → Prop} {a : α}
    (hfinite : {b | Relation.ReflTransGen R a b}.Finite) :
    ∃ b, Relation.ReflTransGen R a b ∧ ((∀ c, ¬ R b c) ∨ Relation.TransGen R b b) := by
  by_contra hnone
  push Not at hnone
  -- then leading further is well-founded on finitely many items, and the last of them leads on
  let S := {b // Relation.ReflTransGen R a b}
  have : Finite S := hfinite
  let later : S → S → Prop := fun b c => Relation.TransGen R c.1 b.1
  have : IsTrans S later := ⟨fun _ _ _ h₁ h₂ => h₂.trans h₁⟩
  have : Std.Irrefl later := ⟨fun b h => (hnone b.1 b.2).2 h⟩
  have hwf : WellFounded later := Finite.wellFounded_of_trans_of_irrefl later
  obtain ⟨b, -, hlast⟩ := hwf.has_min Set.univ ⟨⟨a, .refl⟩, trivial⟩
  obtain ⟨c, hc⟩ := (hnone b.1 b.2).1
  exact hlast ⟨c, b.2.tail hc⟩ trivial (.single hc)

namespace Store

open Catalog

variable {s : Store} {n d : Node} {m t : Ty}

/-- A plain node takes its type from what it depends on. -/
def Takes (g : Graph) (n d : Node) : Prop := (g.cell n).kind = .plain ∧ d ∈ g.dependencies n

/-- A node that takes no type from others as it is: it depends on nothing, or is a pointer node. -/
def Originates (g : Graph) (n : Node) : Prop := g.dependencies n = [] ∨ (g.cell n).kind = .pointer

/-- A plain node takes a type with member `m` from a node whose type has it too. -/
structure Inherits (s : Store) (m : Ty) (n d : Node) : Prop where
  takes : Takes s.graph n d
  has : m ∈ s.membersAt n
  given : m ∈ s.membersAt d

/-- A node for which nothing new can be combined: nothing that it depends on has a type, or among
several types that it depends on there is one that was superseded. -/
def Orphaned (s : Store) (n : Node) : Prop :=
  s.graph.inputs n = [] ∨
    (2 ≤ (s.graph.inputs n).length ∧ ∃ t ∈ s.graph.inputs n, s.catalog.isSuperseded t = true)

/-- A single input is passed on, whether or not it has been superseded. -/
theorem Combined.single {c : Catalog} {type : Option Ty} (h : Combined c .plain [t] type) :
    type = some t := by
  rcases h with h | ⟨c₀, -, -, -, htype⟩
  · cases h
  · exact htype t rfl

/-- A member of the type of a solved plain node that still has what it had it from is a member of one
of its inputs. -/
theorem Solved.exists_input (hs : s.Formed) (hsolved : s.Solved n)
    (hplain : (s.graph.cell n).kind = .plain) (hkept : ¬ Orphaned s n) (hm : m ∈ s.membersAt n) :
    ∃ u ∈ s.graph.inputs n, m ∈ s.catalog.members u := by
  unfold Solved at hsolved
  rw [hplain] at hsolved
  obtain ⟨t, ht, hmt⟩ := mem_membersAt.mp hm
  rcases hin : s.graph.inputs n with _ | ⟨u, _ | ⟨v, rest⟩⟩
  · exact absurd (.inl hin) hkept
  · rw [hin] at hsolved
    obtain rfl : u = t := Option.some.inj (hsolved.single.symm.trans ht)
    exact ⟨u, List.mem_singleton_self u, hmt⟩
  · -- none of several inputs was superseded, so the equation holds for the types as they are
    have hlive : ∀ u ∈ s.graph.inputs n, s.catalog.isSuperseded u = false := by
      intro u hu
      refine Bool.eq_false_iff.mpr fun hsup => hkept (.inr ⟨?_, u, hu, hsup⟩)
      rw [hin]
      exact Nat.le_add_left 2 rest.length
    obtain ⟨t', ht', w, hjoined, rfl⟩ := hsolved.exact (by rw [hin]; exact List.cons_ne_nil _ _) hlive
    obtain rfl : t = t' := Option.some.inj (ht.symm.trans ht')
    rcases joined_cases hs.canonical hs.inputs_lt (by rw [hjoined]) with ⟨heq, -⟩ | ⟨-, hmem⟩
    · rw [hin] at heq
      cases heq
    · rw [hjoined] at hmem
      rw [hmem] at hmt
      obtain ⟨u, hu, -, hmu⟩ := mem_live.mp hmt
      exact ⟨u, hin ▸ hu, hmu⟩

/-- A member of the type of a solved node has its origin there, or it was inherited, or the node has
lost what it had it from. -/
theorem Solved.origin (hs : s.Formed) (hsolved : s.Solved n) (hm : m ∈ s.membersAt n) :
    Originates s.graph n ∨ Orphaned s n ∨ ∃ d, s.Inherits m n d := by
  by_cases horiginates : Originates s.graph n
  · exact .inl horiginates
  by_cases horphaned : Orphaned s n
  · exact .inr (.inl horphaned)
  have hplain : (s.graph.cell n).kind = .plain := by
    cases hk : (s.graph.cell n).kind with
    | plain => rfl
    | pointer => exact absurd (.inr hk) horiginates
  obtain ⟨u, hu, hmu⟩ := hsolved.exists_input hs hplain horphaned hm
  obtain ⟨d, hd, htype⟩ := mem_inputs.mp hu
  exact .inr (.inr ⟨d, ⟨hplain, hd⟩, hm, mem_membersAt.mpr ⟨u, htype, hmu⟩⟩)

/-- Nodes with members are among the nodes of the graph. -/
theorem lt_size_of_mem_membersAt (h : m ∈ s.membersAt n) : n.index < s.graph.size := by
  obtain ⟨t, ht, -⟩ := mem_membersAt.mp h
  exact Graph.lt_size_of_typed ht

/-- What has a member is passed along by nodes that have it. -/
theorem mem_membersAt_of_inherits (hm : m ∈ s.membersAt n)
    (h : Relation.ReflTransGen (s.Inherits m) n d) : m ∈ s.membersAt d := by
  cases h with
  | refl => exact hm
  | tail _ h => exact h.given

/-- If all equations are solved, each member of the type of a node leads, along nodes that all have
it, to a node that takes no type from others, to a cycle, or to a node that has lost what it had the
member from. -/
theorem exists_origin (hs : s.Formed) (hsolved : ∀ n, s.Solved n) (hm : m ∈ s.membersAt n) :
    ∃ k, Relation.ReflTransGen (s.Inherits m) n k ∧ m ∈ s.membersAt k ∧
      (Originates s.graph k ∨ Relation.TransGen (s.Inherits m) k k ∨ Orphaned s k) := by
  have hfinite : {k | Relation.ReflTransGen (s.Inherits m) n k}.Finite := by
    refine Set.Finite.subset (List.finite_toSet s.graph.nodes) fun k hk => List.mem_map.mpr ?_
    have hlt := lt_size_of_mem_membersAt (mem_membersAt_of_inherits hm hk)
    exact ⟨k.index, List.mem_range.mpr hlt, rfl⟩
  obtain ⟨k, hk, hend⟩ := exists_end_or_cycle hfinite
  have hmk := mem_membersAt_of_inherits hm hk
  refine ⟨k, hk, hmk, ?_⟩
  rcases hend with hend | hcycle
  · rcases (hsolved k).origin hs hmk with h | h | ⟨d, hd⟩
    · exact .inl h
    · exact .inr (.inr h)
    · exact (hend d hd).elim
  · exact .inr (.inl hcycle)

end Store

end FlowTyping
