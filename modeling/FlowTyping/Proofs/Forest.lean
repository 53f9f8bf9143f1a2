import Mathlib.Data.Set.Finite.List
import FlowTyping.Proofs.Descent

/-
  Walks through a forest

  `Walk next stack order` says that `order` is the depth-first preorder of the
  trees that `next` grows from the items of `stack`: a root, all that grows from
  it, and then the other trees. An item comes up as often as there are ways to
  it.

  There is a walk wherever growing ends (`exists_walk`). A result that does not
  change when items are met again is the same for it as for the depth-first
  order that marks what it has listed (`Walk.result_eq`).
-/
namespace FlowTyping

open Relation

variable {α β : Type} {next : α → List α} {stack rest order : List α} {a : α}

/-- The depth-first preorder of a forest. -/
inductive Walk (next : α → List α) : List α → List α → Prop
  | nil : Walk next [] []
  | cons {a : α} {rest below after : List α} (hbelow : Walk next (next a) below)
      (hafter : Walk next rest after) : Walk next (a :: rest) (a :: below ++ after)

/-- A walk from one root begins there. -/
theorem Walk.of_singleton (h : Walk next [a] order) :
    ∃ below, Walk next (next a) below ∧ order = a :: below := by
  cases h with
  | cons hbelow hafter =>
    cases hafter
    exact ⟨_, hbelow, List.append_nil _⟩

/-- Where growing ends there is a walk from every stack. -/
theorem exists_walk (hwf : WellFounded fun b a => b ∈ next a) (stack : List α) :
    ∃ order, Walk next stack order := by
  have hstack : ∀ stack : List α, (∀ a ∈ stack, ∃ below, Walk next (next a) below) →
      ∃ order, Walk next stack order := by
    intro stack hbelow
    induction stack with
    | nil => exact ⟨[], .nil⟩
    | cons a rest ih =>
      obtain ⟨below, ha⟩ := hbelow a List.mem_cons_self
      obtain ⟨after, hrest⟩ := ih fun b hb => hbelow b (List.mem_cons_of_mem _ hb)
      exact ⟨_, .cons ha hrest⟩
  have hbelow : ∀ a, ∃ below, Walk next (next a) below := fun a => by
    induction a using hwf.induction with
    | h a ih => exact hstack (next a) ih
  exact hstack stack fun a _ => hbelow a

/-- A depth-first order that marks what it has listed gives what the walk gives. -/
theorem Walk.result_eq [DecidableEq α] {items : List α} {bound : Nat} {result : List α → β}
    {op : β → β → β} (hclosed : ∀ a ∈ items, ∀ b ∈ next a, b ∈ items) (hb : items.length ≤ bound)
    (happend : ∀ l r, result (l ++ r) = op (result l) (result r))
    (hagain : ∀ l r, (∀ a ∈ r, a ∈ l) → result (l ++ r) = result l)
    (hwf : WellFounded fun b a => b ∈ next a) (h : Walk next stack order)
    (hstack : ∀ a ∈ stack, a ∈ items) :
    result (stack.flatMap (descent next bound)) = result order := by
  induction h with
  | nil => rfl
  | @cons a rest below after _ _ hbelow hafter =>
    have ha := hstack a List.mem_cons_self
    have hroot : result (descent next bound a) = result (a :: below) := by
      calc result (descent next bound a)
          = result ([a] ++ (next a).flatMap (descent next bound)) :=
            preorder_unmarked hclosed hb happend hagain hwf ha
        _ = result ([a] ++ below) := by rw [happend, hbelow (hclosed a ha), ← happend]
    calc result ((a :: rest).flatMap (descent next bound))
        = op (result (descent next bound a)) (result (rest.flatMap (descent next bound))) := by
          rw [List.flatMap_cons, happend]
      _ = op (result (a :: below)) (result after) := by
          rw [hroot, hafter fun b hb => hstack b (List.mem_cons_of_mem _ hb)]
      _ = result (a :: below ++ after) := (happend _ _).symm

/-- What grows within finitely many items ends if no item grows from itself. -/
theorem wellFounded_of_acyclic {items : List α} (hclosed : ∀ a, ∀ b ∈ next a, b ∈ items)
    (hacyclic : ∀ a, ¬ TransGen (fun a b => b ∈ next a) a a) : WellFounded fun b a => b ∈ next a := by
  let Item := { a : α // a ∈ items }
  have hfinite : Finite Item := items.finite_toSet.to_subtype
  let Later (b a : Item) : Prop := TransGen (fun a b => b ∈ next a) a.1 b.1
  have htrans : IsTrans Item Later := ⟨fun _ _ _ h h' => TransGen.trans h' h⟩
  have hirrefl : Std.Irrefl Later := ⟨fun a => hacyclic a.1⟩
  have hwf : WellFounded Later := Finite.wellFounded_of_trans_of_irrefl Later
  have hitem : ∀ a : Item, Acc (fun b a => b ∈ next a) a.1 := fun a => by
    induction a using hwf.induction with
    | h a ih => exact Acc.intro a.1 fun b hb => ih ⟨b, hclosed a.1 b hb⟩ (.single hb)
  exact ⟨fun a => Acc.intro a fun b hb => hitem ⟨b, hclosed a b hb⟩⟩

end FlowTyping
