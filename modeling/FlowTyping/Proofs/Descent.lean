import Mathlib.Logic.Relation
import Mathlib.Order.WellFounded
import FlowTyping.Proofs.Saturation

/-
  Depth-first orders without marks

  A depth-first order with a sufficient bound lists all that the stack leads to
  (`mem_preorder_of_reaches`). It lists an item once, although there may be
  several ways to it. Where nothing leads back to where it came from, this makes
  no difference to a result that does not change when items are met again: the
  result for an item is made of the item and of the results for the items it
  leads to, one by one, as if nothing had been marked (`preorder_unmarked`).
-/
namespace FlowTyping

open Relation

variable {α : Type} [DecidableEq α] {next : α → List α} {items : List α} {bound : Nat}
  {seen stack : List α}

/-- `next` leads from `a` to `b`, in any number of steps. -/
def Reaches (next : α → List α) : α → α → Prop := ReflTransGen fun a b => b ∈ next a

theorem length_unseen_mono {seen' : List α} (hsub : ∀ a ∈ seen, a ∈ seen') :
    (unseen items seen').length ≤ (unseen items seen).length := by
  have hsplit : unseen items seen' = (unseen items seen).filter fun a => !seen'.contains a := by
    unfold unseen
    rw [List.filter_filter]
    refine List.filter_congr fun a _ => ?_
    by_cases h : a ∈ seen'
    · simp [h]
    · have hnot : a ∉ seen := fun hin => h (hsub a hin)
      simp [h, hnot]
  rw [hsplit]
  exact List.length_filter_le _ _

theorem dropWhile_seen_cons {item : α} {rest : List α}
    (h : stack.dropWhile (seen.contains ·) = item :: rest) : item ∉ seen := by
  have := List.head?_dropWhile_not (seen.contains ·) stack
  rw [h] at this
  simpa using this

/-- What was on the stack was seen or comes next. -/
theorem mem_dropWhile_seen {a : α} (ha : a ∈ stack) :
    a ∈ seen ∨ a ∈ stack.dropWhile (seen.contains ·) := by
  rw [← List.takeWhile_append_dropWhile (p := (seen.contains ·)) (l := stack)] at ha
  refine (List.mem_append.mp ha).imp_left fun h => ?_
  simpa using List.mem_takeWhile_imp h

/-- With a sufficient bound the whole stack is listed, unless it was seen, and with each item all
that it leads to. -/
theorem preorder_complete (hclosed : ∀ a ∈ items, ∀ b ∈ next a, b ∈ items) (seen stack : List α)
    (hstack : ∀ a ∈ stack, a ∈ items) (hb : (unseen items seen).length ≤ bound) :
    (∀ a ∈ stack, a ∈ seen ∨ a ∈ preorder next bound seen stack) ∧
      ∀ a ∈ preorder next bound seen stack, ∀ b ∈ next a,
        b ∈ seen ∨ b ∈ preorder next bound seen stack := by
  induction bound generalizing seen stack with
  | zero =>
    refine ⟨fun a ha => .inl ?_, fun a ha => by cases ha⟩
    have hnil := List.length_eq_zero_iff.mp (Nat.le_zero.mp hb)
    have := List.filter_eq_nil_iff.mp hnil a (hstack a ha)
    simpa using this
  | succ bound ih =>
    unfold preorder
    split
    · next hdrop =>
      refine ⟨fun a ha => .inl ?_, fun a ha => by cases ha⟩
      exact (mem_dropWhile_seen ha).resolve_right (by rw [hdrop]; exact List.not_mem_nil)
    · next item rest hdrop =>
      have hmem : ∀ a ∈ item :: rest, a ∈ items := fun a ha =>
        hstack a ((List.dropWhile_suffix _).subset (hdrop ▸ ha))
      have hitem := hmem item List.mem_cons_self
      have hlt := length_unseen_cons hitem (dropWhile_seen_cons hdrop)
      obtain ⟨hall, hnext⟩ := ih (item :: seen) (next item ++ rest)
        (fun a ha => (List.mem_append.mp ha).elim (hclosed item hitem a)
          fun h => hmem a (List.mem_cons_of_mem _ h)) (by omega)
      -- an item seen from now on is the one that is listed here, or was seen before
      have shift : ∀ {a},
          a ∈ item :: seen ∨ a ∈ preorder next bound (item :: seen) (next item ++ rest) →
          a ∈ seen ∨ a ∈ item :: preorder next bound (item :: seen) (next item ++ rest) := by
        intro a ha
        rcases ha with ha | ha
        · exact (List.mem_cons.mp ha).elim (fun h => .inr (h ▸ List.mem_cons_self)) .inl
        · exact .inr (List.mem_cons_of_mem _ ha)
      refine ⟨fun a ha => ?_, fun a ha b hb => ?_⟩
      · rcases mem_dropWhile_seen ha with h | h
        · exact .inl h
        · rw [hdrop] at h
          rcases List.mem_cons.mp h with rfl | h
          · exact .inr List.mem_cons_self
          · exact shift (hall a (List.mem_append_right _ h))
      · rcases List.mem_cons.mp ha with rfl | ha
        · exact shift (hall b (List.mem_append_left _ hb))
        · exact shift (hnext a ha b hb)

/-- With a sufficient bound all that an item leads to is listed. -/
theorem mem_preorder_of_reaches (hclosed : ∀ a ∈ items, ∀ b ∈ next a, b ∈ items) {start a : α}
    (hstart : start ∈ items) (hb : items.length ≤ bound) (h : Reaches next start a) :
    a ∈ preorder next bound [] [start] := by
  obtain ⟨hall, hnext⟩ := preorder_complete hclosed [] [start]
    (fun a ha => List.mem_singleton.mp ha ▸ hstart)
    (Nat.le_trans (List.length_filter_le _ _) hb)
  induction h with
  | refl => exact (hall start (List.mem_singleton_self start)).resolve_left List.not_mem_nil
  | tail _ hstep ih => exact (hnext _ ih _ hstep).resolve_left List.not_mem_nil

/-- Only what the stack leads to is listed. -/
theorem reaches_of_mem_preorder {a : α} (h : a ∈ preorder next bound seen stack) :
    ∃ start ∈ stack, Reaches next start a :=
  forall_mem_preorder (P := fun a => ∃ start ∈ stack, Reaches next start a)
    (fun _ ⟨start, hin, hreach⟩ _ hb => ⟨start, hin, hreach.tail hb⟩)
    (fun a ha => ⟨a, ha, .refl⟩) a h

/-- The first part of a stack is dealt with before the second. -/
theorem preorder_append (hclosed : ∀ a ∈ items, ∀ b ∈ next a, b ∈ items) {first second : List α}
    (hfirst : ∀ a ∈ first, a ∈ items) (hsecond : ∀ a ∈ second, a ∈ items)
    (hb : (unseen items seen).length ≤ bound) :
    preorder next bound seen (first ++ second) = preorder next bound seen first ++
      preorder next bound ((preorder next bound seen first).reverse ++ seen) second := by
  induction bound generalizing seen first with
  | zero => rfl
  | succ bound ih =>
    cases hdrop : first.dropWhile (seen.contains ·) with
    | nil =>
      have hnone : preorder next (bound + 1) seen first = [] := by unfold preorder; rw [hdrop]
      have hall : ∀ a ∈ first, seen.contains a = true := List.dropWhile_eq_nil_iff.mp hdrop
      rw [hnone]
      show _ = preorder next (bound + 1) seen second
      unfold preorder
      rw [List.dropWhile_append, hdrop]
      rfl
    | cons item rest =>
      have hmem : ∀ a ∈ item :: rest, a ∈ items := fun a ha =>
        hfirst a ((List.dropWhile_suffix _).subset (hdrop ▸ ha))
      have hitem := hmem item List.mem_cons_self
      have hlt := length_unseen_cons hitem (dropWhile_seen_cons hdrop)
      have hwithin : ∀ a ∈ next item ++ rest, a ∈ items := fun a ha =>
        (List.mem_append.mp ha).elim (hclosed item hitem a)
          fun h => hmem a (List.mem_cons_of_mem _ h)
      have hone : preorder next (bound + 1) seen first =
          item :: preorder next bound (item :: seen) (next item ++ rest) := by
        rw [preorder, hdrop]
      have hboth : preorder next (bound + 1) seen (first ++ second) =
          item :: preorder next bound (item :: seen) (next item ++ rest ++ second) := by
        rw [preorder, List.dropWhile_append, hdrop, List.append_assoc]
        rfl
      have hrec := @ih (item :: seen) (next item ++ rest) hwithin (by omega)
      rw [hboth, hone, hrec]
      have hseen : (item :: preorder next bound (item :: seen) (next item ++ rest)).reverse ++ seen =
          (preorder next bound (item :: seen) (next item ++ rest)).reverse ++ item :: seen := by
        simp
      rw [hseen, List.cons_append]
      congr 2
      have hless : (unseen items ((preorder next bound (item :: seen) (next item ++ rest)).reverse ++
          item :: seen)).length ≤ (unseen items (item :: seen)).length :=
        length_unseen_mono fun a ha => List.mem_append_right _ ha
      exact preorder_bound hclosed hsecond (by omega) (by omega)

omit [DecidableEq α] in
/-- Where nothing leads back, an item does not lead to itself. -/
theorem not_reaches_self (hwf : WellFounded fun b a => b ∈ next a) {a : α} :
    ¬ TransGen (fun a b => b ∈ next a) a a :=
  fun h => hwf.transGen.irrefl.irrefl a (transGen_swap.mp h)

/-! ## Results that marks make no difference to -/

variable {β : Type} {result : List α → β} {op : β → β → β}

/-- All that an item leads to, in depth-first order. -/
def descent (next : α → List α) (bound : Nat) (start : α) : List α :=
  preorder next bound [] [start]

section Unmarked

variable (hclosed : ∀ a ∈ items, ∀ b ∈ next a, b ∈ items) (hb : items.length ≤ bound)
  (happend : ∀ l r, result (l ++ r) = op (result l) (result r))
  (hagain : ∀ l r, (∀ a ∈ r, a ∈ l) → result (l ++ r) = result l)

include hclosed hb in
/-- What has been seen may be gone through again if all that it leads to has been seen. -/
theorem reaches_seen {start a : α} (hstart : start ∈ items)
    (hdone : ∀ a ∈ seen, Reaches next start a → ∀ b, Reaches next a b → b ∈ seen)
    (h : Reaches next start a) : a ∈ seen ∨ a ∈ preorder next bound seen [start] := by
  obtain ⟨hall, hnext⟩ := preorder_complete hclosed seen [start]
    (fun a ha => List.mem_singleton.mp ha ▸ hstart)
    (Nat.le_trans (List.length_filter_le _ _) hb)
  induction h with
  | refl => exact hall start (List.mem_singleton_self start)
  | tail hreach hstep ih =>
    rcases ih with ih | ih
    · exact .inl (hdone _ ih hreach _ (.single hstep))
    · exact hnext _ ih _ hstep

include hclosed hb happend in
/-- If marks make no difference to what each item of a stack leads to, they make none to the
stack. -/
theorem result_stack (hstack : ∀ a ∈ stack, a ∈ items)
    (hone : ∀ start ∈ stack, ∀ seen, (∀ a ∈ seen, Reaches next start a →
      ∀ b, Reaches next a b → b ∈ seen) →
      result (seen.reverse ++ preorder next bound seen [start]) =
        result (seen.reverse ++ descent next bound start))
    (hdone : ∀ start ∈ stack, ∀ a ∈ seen, Reaches next start a → ∀ b, Reaches next a b → b ∈ seen) :
    result (seen.reverse ++ preorder next bound seen stack) =
      result (seen.reverse ++ stack.flatMap (descent next bound)) := by
  induction stack generalizing seen with
  | nil =>
    have hnone : preorder next bound seen [] = [] := by cases bound <;> rfl
    rw [hnone]
    rfl
  | cons start rest ih =>
    have hstart := hstack start List.mem_cons_self
    have hrest : ∀ a ∈ rest, a ∈ items := fun a ha => hstack a (List.mem_cons_of_mem _ ha)
    have hfirst := hdone start List.mem_cons_self
    -- after the first item all that it leads to has been seen
    have hdone' : ∀ next' ∈ rest, ∀ a ∈ (preorder next bound seen [start]).reverse ++ seen,
        Reaches next next' a → ∀ b, Reaches next a b →
          b ∈ (preorder next bound seen [start]).reverse ++ seen := by
      intro other hother a ha hreach b hab
      simp only [List.mem_append, List.mem_reverse] at ha ⊢
      rcases ha with ha | ha
      · obtain ⟨_, hin, hfrom⟩ := reaches_of_mem_preorder ha
        rw [List.mem_singleton.mp hin] at hfrom
        exact (reaches_seen hclosed hb hstart hfirst (hfrom.trans hab)).symm
      · exact .inr (hdone other (List.mem_cons_of_mem _ hother) a ha hreach b hab)
    have hrec := ih hrest (fun s hs => hone s (List.mem_cons_of_mem _ hs)) hdone'
    have hsplit : preorder next bound seen ([start] ++ rest) = preorder next bound seen [start] ++
        preorder next bound ((preorder next bound seen [start]).reverse ++ seen) rest :=
      preorder_append hclosed (fun a ha => List.mem_singleton.mp ha ▸ hstart) hrest
        (Nat.le_trans (List.length_filter_le _ _) hb)
    rw [List.reverse_append, List.reverse_reverse] at hrec
    calc result (seen.reverse ++ preorder next bound seen (start :: rest))
        = result (seen.reverse ++ preorder next bound seen [start] ++
            preorder next bound ((preorder next bound seen [start]).reverse ++ seen) rest) := by
          rw [show start :: rest = [start] ++ rest from rfl, hsplit, List.append_assoc]
      _ = result (seen.reverse ++ preorder next bound seen [start] ++
            rest.flatMap (descent next bound)) := hrec
      _ = result (seen.reverse ++ descent next bound start ++
            rest.flatMap (descent next bound)) := by
          rw [happend, hone start List.mem_cons_self seen hfirst, ← happend]
      _ = result (seen.reverse ++ (start :: rest).flatMap (descent next bound)) := by
          rw [List.flatMap_cons, List.append_assoc]

include hclosed hb happend in
/-- An item that was not seen is listed, and then what it leads to. -/
theorem result_item {start : α} (hwf : WellFounded fun b a => b ∈ next a) (hstart : start ∈ items)
    (seen : List α)
    (hone : ∀ other ∈ next start, ∀ seen, (∀ a ∈ seen, Reaches next other a →
      ∀ b, Reaches next a b → b ∈ seen) →
      result (seen.reverse ++ preorder next bound seen [other]) =
        result (seen.reverse ++ descent next bound other))
    (hdone : ∀ a ∈ seen, Reaches next start a → ∀ b, Reaches next a b → b ∈ seen)
    (hnew : start ∉ seen) :
    result (seen.reverse ++ preorder next bound seen [start]) =
      result (seen.reverse ++ start :: (next start).flatMap (descent next bound)) := by
  have hstack := hclosed start hstart
  have hle : (unseen items seen).length ≤ bound := Nat.le_trans (List.length_filter_le _ _) hb
  have hlt := length_unseen_cons hstart hnew
  have hlisted : preorder next bound seen [start] =
      start :: preorder next bound (start :: seen) (next start) := by
    obtain ⟨less, rfl⟩ : ∃ less, bound = less + 1 := ⟨bound - 1, by omega⟩
    rw [preorder, List.dropWhile_cons_of_neg (by simpa using hnew)]
    show start :: preorder next less (start :: seen) (next start ++ []) = _
    rw [List.append_nil]
    exact congrArg (start :: ·) (preorder_bound hclosed hstack (by omega) (by omega))
  -- the item itself is not met again below it
  have hrec : result ((start :: seen).reverse ++ preorder next bound (start :: seen) (next start)) =
      result ((start :: seen).reverse ++ (next start).flatMap (descent next bound)) :=
    result_stack hclosed hb happend hstack hone fun other hother a ha hreach b hab => by
      rcases List.mem_cons.mp ha with rfl | ha
      · exact absurd (TransGen.head' hother hreach) (not_reaches_self hwf)
      · exact List.mem_cons_of_mem _ (hdone a ha (.head hother hreach) b hab)
  rw [hlisted]
  rw [List.reverse_cons, List.append_assoc, List.append_assoc] at hrec
  exact hrec

include hclosed hb happend hagain in
/-- Marks make no difference if all that a marked item leads to is marked too. -/
theorem result_seen (hwf : WellFounded fun b a => b ∈ next a) {start : α} (hstart : start ∈ items)
    (seen : List α)
    (hdone : ∀ a ∈ seen, Reaches next start a → ∀ b, Reaches next a b → b ∈ seen) :
    result (seen.reverse ++ preorder next bound seen [start]) =
      result (seen.reverse ++ descent next bound start) := by
  induction start using hwf.induction generalizing seen with
  | h start ih =>
    have hone := fun other hother => ih other hother (hclosed start hstart other hother)
    by_cases hin : start ∈ seen
    · -- all that the item leads to has been seen, so its descent adds nothing
      have hdrop : [start].dropWhile (seen.contains ·) = [] := by simp [List.dropWhile, hin]
      have hnone : preorder next bound seen [start] = [] := by
        cases bound with
        | zero => rfl
        | succ bound => rw [preorder, hdrop]
      rw [hnone, List.append_nil]
      refine (hagain _ _ fun a ha => List.mem_reverse.mpr ?_).symm
      obtain ⟨_, hmem, hreach⟩ := reaches_of_mem_preorder ha
      rw [List.mem_singleton.mp hmem] at hreach
      exact hdone start hin .refl a hreach
    · have hnil : result (descent next bound start) =
          result (start :: (next start).flatMap (descent next bound)) :=
        result_item hclosed hb happend hwf hstart [] hone (fun _ ha => by cases ha)
          List.not_mem_nil
      rw [result_item hclosed hb happend hwf hstart seen hone hdone hin, happend, ← hnil, ← happend]

include hclosed hb happend hagain in
/-- Where nothing leads back, the result for an item is that of the item followed by the results
for what it leads to, although each of these starts without marks. -/
theorem preorder_unmarked (hwf : WellFounded fun b a => b ∈ next a) {start : α}
    (hstart : start ∈ items) :
    result (descent next bound start) =
      result (start :: (next start).flatMap (descent next bound)) :=
  result_item hclosed hb happend hwf hstart []
    (fun other hother =>
      result_seen hclosed hb happend hagain hwf (hclosed start hstart other hother))
    (fun _ ha => by cases ha) List.not_mem_nil

end Unmarked

end FlowTyping
