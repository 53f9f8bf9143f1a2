import Mathlib.Data.List.Nodup
import FlowTyping.Proofs.Descent

/-
  Depth-first search as a relation

  `Visit next seen stack order` says that a search which has marked `seen` and
  is to go to the items of `stack` lists `order`: an item that is marked is
  passed over, any other one is marked and listed, then comes all that it leads
  to, and then the rest of the stack, with the marks made so far.

  With a sufficient bound `preorder` is this search (`visit_preorder`). A
  partial map that respects what items lead to, and under which no two items
  become one, maps the search of one graph to that of the other
  (`Visit.filterMap`).
-/
namespace FlowTyping

variable {α β : Type} {next : α → List α} {seen stack rest order order' : List α} {a : α}

/-- Depth-first search with marks. -/
inductive Visit (next : α → List α) : List α → List α → List α → Prop
  | nil (seen : List α) : Visit next seen [] []
  | skip {seen : List α} {a : α} {rest order : List α} (ha : a ∈ seen)
      (hrest : Visit next seen rest order) : Visit next seen (a :: rest) order
  | enter {seen : List α} {a : α} {rest below after : List α} (ha : a ∉ seen)
      (hbelow : Visit next (a :: seen) (next a) below)
      (hafter : Visit next (below.reverse ++ a :: seen) rest after) :
      Visit next seen (a :: rest) (a :: below ++ after)

namespace Visit

theorem of_seen (h : ∀ a ∈ stack, a ∈ seen) : Visit next seen stack [] := by
  induction stack with
  | nil => exact .nil seen
  | cons a rest ih =>
    exact .skip (h a List.mem_cons_self) (ih fun b hb => h b (List.mem_cons_of_mem _ hb))

/-- There is only one way to search. -/
theorem unique (h : Visit next seen stack order) (h' : Visit next seen stack order') :
    order = order' := by
  induction h generalizing order' with
  | nil =>
    cases h'
    rfl
  | skip ha _ ih =>
    cases h' with
    | skip _ hrest => exact ih hrest
    | enter hnew => exact absurd ha hnew
  | enter hnew _ _ ihbelow ihafter =>
    cases h' with
    | skip ha => exact absurd ha hnew
    | enter _ hbelow hafter =>
      obtain rfl := ihbelow hbelow
      obtain rfl := ihafter hafter
      rfl

/-- Nothing is listed that was marked before, and nothing twice. -/
theorem nodup (h : Visit next seen stack order) : order.Nodup ∧ ∀ a ∈ order, a ∉ seen := by
  induction h with
  | nil => exact ⟨List.nodup_nil, fun _ ha => by cases ha⟩
  | skip _ _ ih => exact ih
  | @enter seen a rest below after hnew _ _ ihbelow ihafter =>
    obtain ⟨hbelow, hbelowNew⟩ := ihbelow
    obtain ⟨hafter, hafterNew⟩ := ihafter
    have hdisjoint : (a :: below).Disjoint after := fun b hin hb => hafterNew b hb <| by
      rcases List.mem_cons.mp hin with rfl | hin
      · exact List.mem_append_right _ List.mem_cons_self
      · exact List.mem_append_left _ (List.mem_reverse.mpr hin)
    have hitem : a ∉ below := fun ha => hbelowNew a ha List.mem_cons_self
    refine ⟨(List.nodup_cons.mpr ⟨hitem, hbelow⟩).append hafter hdisjoint, fun b hb hseen => ?_⟩
    rcases List.mem_append.mp hb with hb | hb
    · rcases List.mem_cons.mp hb with rfl | hb
      · exact hnew hseen
      · exact hbelowNew b hb (List.mem_cons_of_mem _ hseen)
    · exact hafterNew b hb (List.mem_append_right _ (List.mem_cons_of_mem _ hseen))

/-- The search of one graph gives that of another one if a partial map takes what an item leads to
to what its image leads to. Items without an image may only lead to such, and of the items that are
met no two may have one image. -/
theorem filterMap {P : α → Prop} {grow : β → List β} {f : α → Option β}
    (h : Visit next seen stack order) (hclosed : ∀ a, P a → ∀ b ∈ next a, P b)
    (hnone : ∀ a, P a → f a = none → ∀ b ∈ next a, f b = none)
    (hsome : ∀ a, P a → ∀ b, f a = some b → grow b = (next a).filterMap f)
    (hinjective : ∀ a a' b, P a → P a' → f a = some b → f a' = some b → a = a')
    (hseen : ∀ a ∈ seen, P a) (hstack : ∀ a ∈ stack, P a) :
    (∀ a ∈ order, P a) ∧
      Visit grow (seen.filterMap f) (stack.filterMap f) (order.filterMap f) := by
  induction h with
  | nil seen => exact ⟨fun _ ha => by (cases ha), .nil _⟩
  | @skip seen a rest order ha _ ih =>
    obtain ⟨hP, hrest⟩ := ih hseen fun b hb => hstack b (List.mem_cons_of_mem _ hb)
    refine ⟨hP, ?_⟩
    cases hf : f a with
    | none => rwa [List.filterMap_cons_none hf]
    | some b =>
      rw [List.filterMap_cons_some hf]
      exact .skip (List.mem_filterMap.mpr ⟨a, ha, hf⟩) hrest
  | @enter seen a rest below after hnew _ _ ihbelow ihafter =>
    have ha := hstack a List.mem_cons_self
    have hmarked : ∀ b ∈ a :: seen, P b := List.forall_mem_cons.mpr ⟨ha, hseen⟩
    obtain ⟨hPbelow, hbelow⟩ := ihbelow hmarked (hclosed a ha)
    obtain ⟨hPafter, hafter⟩ := ihafter
      (fun b hb => (List.mem_append.mp hb).elim (fun h => hPbelow b (List.mem_reverse.mp h))
        (hmarked b))
      fun b hb => hstack b (List.mem_cons_of_mem _ hb)
    refine ⟨fun b hb => ?_, ?_⟩
    · rcases List.mem_append.mp hb with hb | hb
      · exact (List.mem_cons.mp hb).elim (fun h => h ▸ ha) (hPbelow b)
      · exact hPafter b hb
    cases hf : f a with
    | none =>
      -- nothing below the item has an image, so the other search passes it by
      rw [List.filterMap_cons_none hf, List.filterMap_eq_nil_iff.mpr (hnone a ha hf)] at hbelow
      have hempty : below.filterMap f = [] := hbelow.unique (.nil _)
      rw [List.filterMap_append, List.filterMap_reverse, hempty, List.filterMap_cons_none hf] at hafter
      rwa [List.filterMap_cons_none hf, List.filterMap_append, List.filterMap_cons_none hf, hempty]
    | some b =>
      have hnew' : b ∉ seen.filterMap f := fun hb => by
        obtain ⟨a', ha', hf'⟩ := List.mem_filterMap.mp hb
        exact hnew (hinjective a a' b ha (hseen a' ha') hf hf' ▸ ha')
      rw [List.filterMap_cons_some hf, ← hsome a ha b hf] at hbelow
      rw [List.filterMap_append, List.filterMap_reverse, List.filterMap_cons_some hf] at hafter
      rw [List.filterMap_cons_some hf, List.filterMap_append, List.filterMap_cons_some hf]
      exact .enter hnew' hbelow hafter

end Visit

/-! ## The search that is computed -/

variable [DecidableEq α] {items : List α} {bound : Nat}

/-- With a bound as large as the number of items that are not marked the search is not cut off. -/
theorem visit_preorder (hclosed : ∀ a ∈ items, ∀ b ∈ next a, b ∈ items) (seen stack : List α)
    (hstack : ∀ a ∈ stack, a ∈ items) (hb : (unseen items seen).length ≤ bound) :
    Visit next seen stack (preorder next bound seen stack) := by
  induction bound generalizing seen stack with
  | zero =>
    rw [preorder_eq_nil hstack (Nat.le_zero.mp hb)]
    refine .of_seen fun a ha => ?_
    have hnone := List.length_eq_zero_iff.mp (Nat.le_zero.mp hb)
    simpa using List.filter_eq_nil_iff.mp hnone a (hstack a ha)
  | succ bound ih =>
    induction stack with
    | nil => exact .nil seen
    | cons a rest ihrest =>
      have ha := hstack a List.mem_cons_self
      have hrest : ∀ b ∈ rest, b ∈ items := fun b hb => hstack b (List.mem_cons_of_mem _ hb)
      by_cases hin : a ∈ seen
      · have hskip : preorder next (bound + 1) seen (a :: rest) =
            preorder next (bound + 1) seen rest := by
          rw [preorder, preorder, List.dropWhile_cons_of_pos (by simpa using hin)]
        rw [hskip]
        exact .skip hin (ihrest hrest)
      · have hlt := length_unseen_cons ha hin
        have henter : preorder next (bound + 1) seen (a :: rest) =
            a :: preorder next bound (a :: seen) (next a ++ rest) := by
          rw [preorder, List.dropWhile_cons_of_neg (by simpa using hin)]
        rw [henter, preorder_append hclosed (hclosed a ha) hrest (by omega), ← List.cons_append]
        refine .enter hin (ih _ _ (hclosed a ha) (by omega)) (ih _ _ hrest ?_)
        have hless : (unseen items ((preorder next bound (a :: seen) (next a)).reverse ++
            a :: seen)).length ≤ (unseen items (a :: seen)).length :=
          length_unseen_mono fun b hb => List.mem_append_right _ hb
        omega

end FlowTyping
