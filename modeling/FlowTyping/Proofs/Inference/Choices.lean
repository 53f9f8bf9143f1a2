import Mathlib.Algebra.BigOperators.Ring.List
import Mathlib.Algebra.Ring.Nat
import Mathlib.Data.List.Forall2
import Mathlib.Data.List.Lex
import Mathlib.Data.List.Sort
import FlowTyping.Inference.Dispatch

/-
  Choices

  The choices from some lists are what picks one item from each (`mem_choices`).
  They stand in lexicographic order of the positions that are picked
  (`enumerates_choices`), and no other list of lists enumerates them in this way
  (`Enumerates.unique`).

  A loop that goes through the lists once and extends all that it has picked so
  far by each item of the next list ends with the choices (`choices_eq_foldl`).
-/
namespace FlowTyping

variable {α : Type} {lists found : List (List α)} {choice : List α} {positions : List Nat}

/-- The items of `choice` stand at these positions of the lists. -/
inductive Picks : List (List α) → List Nat → List α → Prop
  | nil : Picks [] [] []
  | cons {options : List α} {rest : List (List α)} {i : Nat} {positions : List Nat} {a : α}
      {choice : List α} (first : options[i]? = some a) (others : Picks rest positions choice) :
      Picks (options :: rest) (i :: positions) (a :: choice)

/-- `found` are the ways to pick one item from each list, each combination of positions once and in
lexicographic order. -/
def Enumerates (lists found : List (List α)) : Prop :=
  ∃ picked : List (List Nat), picked.Pairwise (· < ·) ∧
    (∀ positions, positions ∈ picked ↔ ∃ choice, Picks lists positions choice) ∧
    List.Forall₂ (Picks lists) picked found

/-- What was picked so far, extended by each item of one more list. -/
def extendEach (picked : List (List α)) (options : List α) : List (List α) :=
  picked.flatMap fun choice => options.map fun a => choice ++ [a]

/-! ## Positions -/

theorem Picks.unique {choice' : List α} (h : Picks lists positions choice)
    (h' : Picks lists positions choice') : choice = choice' := by
  induction h generalizing choice' with
  | nil =>
    cases h'
    rfl
  | cons first _ ih =>
    cases h' with
    | cons first' others' => rw [ih others', Option.some.inj (first.symm.trans first')]

/-- There is something to pick at all positions that are within their lists. -/
theorem exists_picks_iff : (∃ choice, Picks lists positions choice) ↔
    List.Forall₂ (fun i options => i < options.length) positions lists := by
  constructor
  · rintro ⟨choice, h⟩
    induction h with
    | nil => exact .nil
    | cons first _ ih => exact .cons (List.getElem?_eq_some_iff.mp first).1 ih
  · intro h
    induction h with
    | nil => exact ⟨[], .nil⟩
    | cons hi _ ih =>
      obtain ⟨choice, hchoice⟩ := ih
      exact ⟨_, .cons (List.getElem?_eq_getElem hi) hchoice⟩

/-- Lists are enumerated in one way. -/
theorem Enumerates.unique {found' : List (List α)} (h : Enumerates lists found)
    (h' : Enumerates lists found') : found = found' := by
  obtain ⟨picked, hsorted, hmem, hpicks⟩ := h
  obtain ⟨picked', hsorted', hmem', hpicks'⟩ := h'
  -- two increasing lists of the same positions are the same list
  have hsame : picked = picked' := by
    apply hsorted.eq_of_mem_iff hsorted'
    intro positions
    rw [hmem, hmem']
  subst hsame
  have hunique : Relator.RightUnique (Picks lists) := fun _ _ _ => Picks.unique
  exact List.right_unique_forall₂' hunique hpicks hpicks'

/-! ## Choices -/

theorem mem_choices : choice ∈ choices lists ↔ List.Forall₂ (· ∈ ·) choice lists := by
  induction lists generalizing choice with
  | nil =>
    unfold choices
    rw [List.mem_singleton, List.forall₂_nil_right_iff]
  | cons first rest ih =>
    unfold choices
    rw [List.mem_flatMap]
    constructor
    · rintro ⟨a, ha, hchoice⟩
      obtain ⟨tail, htail, rfl⟩ := List.mem_map.mp hchoice
      exact .cons ha (ih.mp htail)
    · intro h
      cases h with
      | cons ha htail => exact ⟨_, ha, List.mem_map.mpr ⟨_, ih.mpr htail, rfl⟩⟩

/-- What holds between the items of each list, from the left to the right, holds between the first
items in which two choices differ. -/
theorem pairwise_choices {R : α → α → Prop} (h : ∀ options ∈ lists, options.Pairwise R) :
    (choices lists).Pairwise (List.Lex R) := by
  induction lists with
  | nil => exact List.pairwise_singleton _ _
  | cons options rest ih =>
    have hrest : (choices rest).Pairwise (List.Lex R) :=
      ih fun l hl => h l (List.mem_cons_of_mem options hl)
    unfold choices
    rw [List.pairwise_flatMap]
    constructor
    · intro a _
      rw [List.pairwise_map]
      exact hrest.imp .cons
    · apply (h options List.mem_cons_self).imp
      intro a b hab x hx y hy
      obtain ⟨xs, -, rfl⟩ := List.mem_map.mp hx
      obtain ⟨ys, -, rfl⟩ := List.mem_map.mp hy
      exact .rel hab

theorem nodup_choices (h : ∀ options ∈ lists, options.Nodup) : (choices lists).Nodup :=
  (pairwise_choices h).imp List.Lex.to_ne

theorem length_choices (lists : List (List α)) :
    (choices lists).length = (lists.map List.length).prod := by
  induction lists with
  | nil => rfl
  | cons options rest ih =>
    calc (choices (options :: rest)).length
        = (options.map fun _ => (choices rest).length).sum := by
          simp [choices, List.length_flatMap]
      _ = options.length * (choices rest).length := by
          rw [List.map_const', List.sum_replicate_nat]
      _ = ((options :: rest).map List.length).prod := by rw [ih, List.map_cons, List.prod_cons]

/-- Only where there is nothing to pick from some list there is no choice. -/
theorem choices_eq_nil_iff : choices lists = [] ↔ [] ∈ lists := by
  rw [← List.length_eq_zero_iff, length_choices, List.prod_eq_zero_iff]
  simp

/-- Each choice is picked at the choice of positions that stands in its place. -/
theorem picks_choices (lists : List (List α)) : List.Forall₂ (Picks lists)
    (choices (lists.map fun options => List.range options.length)) (choices lists) := by
  induction lists with
  | nil => exact .cons .nil .nil
  | cons options rest ih =>
    have hrange : List.Forall₂ (fun i a => options[i]? = some a) (List.range options.length)
        options := by
      rw [List.forall₂_iff_get]
      simp
    unfold choices
    apply List.rel_flatMap hrange
    intro i a hi
    rw [List.forall₂_map_left_iff, List.forall₂_map_right_iff]
    exact ih.imp fun _ _ => .cons hi

/-- The choices enumerate the lists. -/
theorem enumerates_choices (lists : List (List α)) : Enumerates lists (choices lists) := by
  refine ⟨_, ?_, ?_, picks_choices lists⟩
  · apply pairwise_choices
    intro range hrange
    obtain ⟨options, -, rfl⟩ := List.mem_map.mp hrange
    exact List.pairwise_lt_range
  · intro positions
    rw [mem_choices, exists_picks_iff, List.forall₂_map_right_iff]
    simp only [List.mem_range]

example : choices [[1, 2], [3]] = [[1, 3], [2, 3]] := rfl

/-! ## The loop -/

/-- Whatever the loop has picked before is extended by each choice from the lists that are left. -/
theorem foldl_extendEach (lists picked : List (List α)) : lists.foldl extendEach picked =
    picked.flatMap fun start => (choices lists).map (start ++ ·) := by
  induction lists generalizing picked with
  | nil => simp [choices]
  | cons options rest ih =>
    rw [List.foldl_cons, ih, extendEach, List.flatMap_assoc]
    simp [choices, List.flatMap_map, List.map_flatMap, Function.comp_def]

theorem choices_eq_foldl (lists : List (List α)) : choices lists = lists.foldl extendEach [[]] := by
  rw [foldl_extendEach]
  simp

end FlowTyping
