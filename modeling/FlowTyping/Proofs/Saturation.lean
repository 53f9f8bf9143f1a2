import Mathlib.Data.List.TakeWhile
import FlowTyping.Proofs.Preorder

/-
  Bounds that are large enough

  A depth-first order over finitely many items does not depend on its bound once
  that is as large as their number (`preorder_bound`). The same holds of a test
  that is weakened step by step, each step depending only on the one before: it
  has stopped changing when each item has had a step (`saturated`).
-/
namespace FlowTyping

variable {α : Type} [DecidableEq α]

/-! ## Depth-first orders -/

/-- The items that are not in `seen`. -/
def unseen (items seen : List α) : List α := items.filter fun a => !seen.contains a

theorem length_unseen_cons {items seen : List α} {item : α} (hitem : item ∈ items)
    (hnew : item ∉ seen) : (unseen items (item :: seen)).length < (unseen items seen).length := by
  unfold unseen
  have hsplit : (items.filter fun a => !(item :: seen).contains a) =
      (items.filter fun a => !seen.contains a).filter fun a => a != item := by
    rw [List.filter_filter]
    refine List.filter_congr fun a _ => ?_
    by_cases h : a = item <;> simp [h]
  rw [hsplit]
  refine Nat.lt_of_le_of_ne (List.length_filter_le _ _) fun heq => ?_
  have hall := List.length_filter_eq_length_iff.mp heq item
    (List.mem_filter.mpr ⟨hitem, by simpa using hnew⟩)
  simp at hall

/-- With nothing left to see nothing is listed. -/
theorem preorder_eq_nil {next : α → List α} {items seen stack : List α}
    (hstack : ∀ a ∈ stack, a ∈ items) (hnone : (unseen items seen).length = 0) (bound : Nat) :
    preorder next bound seen stack = [] := by
  have hseen : ∀ a ∈ stack, seen.contains a = true := by
    intro a ha
    refine Bool.not_eq_false _ ▸ fun hn => ?_
    have : a ∈ unseen items seen := List.mem_filter.mpr ⟨hstack a ha, by rw [hn]; rfl⟩
    rw [List.length_eq_zero_iff.mp hnone] at this
    cases this
  have hdrop : stack.dropWhile (seen.contains ·) = [] := List.dropWhile_eq_nil_iff.mpr hseen
  cases bound with
  | zero => rfl
  | succ bound => unfold preorder; rw [hdrop]

/-- The bound has no part in a depth-first order over items that `next` does not leave, if it is as
large as the number of those that are not seen. -/
theorem preorder_bound {next : α → List α} {items : List α}
    (hclosed : ∀ a ∈ items, ∀ b ∈ next a, b ∈ items) {bound bound' : Nat} {seen stack : List α}
    (hstack : ∀ a ∈ stack, a ∈ items) (hb : (unseen items seen).length ≤ bound)
    (hb' : (unseen items seen).length ≤ bound') :
    preorder next bound seen stack = preorder next bound' seen stack := by
  induction bound generalizing bound' seen stack with
  | zero =>
    rw [preorder_eq_nil hstack (Nat.le_zero.mp hb), preorder_eq_nil hstack (Nat.le_zero.mp hb)]
  | succ bound ih =>
    cases bound' with
    | zero =>
      rw [preorder_eq_nil hstack (Nat.le_zero.mp hb'), preorder_eq_nil hstack (Nat.le_zero.mp hb')]
    | succ bound' =>
      unfold preorder
      split
      · rfl
      · next item rest heq =>
        have hmem : ∀ a ∈ item :: rest, a ∈ items := fun a ha =>
          hstack a ((List.dropWhile_suffix _).subset (heq ▸ ha))
        have hnew : item ∉ seen := by
          have := List.head?_dropWhile_not (seen.contains ·) stack
          rw [heq] at this
          simpa using this
        -- the next item was not seen, so one less is left to see: both bounds stay large enough
        have hlt := length_unseen_cons (hmem item List.mem_cons_self) hnew
        congr 1
        refine ih (fun a ha => ?_) (by omega) (by omega)
        rcases List.mem_append.mp ha with ha | ha
        · exact hclosed item (hmem item List.mem_cons_self) a ha
        · exact hmem a (List.mem_cons_of_mem _ ha)

/-- Two ways to go on that agree on all items that are met give one depth-first order. -/
theorem preorder_congr {next next' : α → List α} {P : α → Prop}
    (hclosed : ∀ a, P a → ∀ b ∈ next a, P b) (hagree : ∀ a, P a → next' a = next a) (bound : Nat)
    {seen stack : List α} (hstack : ∀ a ∈ stack, P a) :
    preorder next' bound seen stack = preorder next bound seen stack := by
  induction bound generalizing seen stack with
  | zero => rfl
  | succ bound ih =>
    unfold preorder
    split
    · rfl
    · next item rest heq =>
      have hmem : ∀ a ∈ item :: rest, P a := fun a ha =>
        hstack a ((List.dropWhile_suffix _).subset (heq ▸ ha))
      have hitem := hmem item List.mem_cons_self
      rw [hagree item hitem]
      congr 1
      refine ih fun a ha => ?_
      rcases List.mem_append.mp ha with ha | ha
      · exact hclosed item hitem a ha
      · exact hmem a (List.mem_cons_of_mem _ ha)

/-! ## Tests that are weakened step by step -/

variable {β : Type} {p : Nat → β → Bool} {l : List β}

/-- While the test changes, each step makes it hold of one more item. -/
theorem length_le_or_stable
    (hmono : ∀ n, ∀ a ∈ l, p n a = true → p (n + 1) a = true)
    (hstep : ∀ n, (∀ a ∈ l, p n a = p (n + 1) a) →
      ∀ a ∈ l, p (n + 1) a = p (n + 2) a) (n : Nat) :
    n ≤ (l.filter (p n)).length ∨ ∀ a ∈ l, p n a = p (n + 1) a := by
  induction n with
  | zero => exact .inl (Nat.zero_le _)
  | succ n ih =>
    by_cases hstable : ∀ a ∈ l, p n a = p (n + 1) a
    · exact .inr (hstep n hstable)
    · -- the test has changed at some item; as it is only weakened, it has come to hold of it
      left
      have hlen : n ≤ (l.filter (p n)).length := ih.resolve_right hstable
      obtain ⟨a, ha⟩ := Classical.not_forall.mp hstable
      obtain ⟨ha, hne⟩ := Classical.not_imp.mp ha
      have hold : p n a = false := by
        cases h : p n a with
        | false => rfl
        | true => rw [h, hmono n a ha h] at hne; exact absurd rfl hne
      have hnew : p (n + 1) a = true := by
        cases h : p (n + 1) a with
        | true => rfl
        | false => rw [h, hold] at hne; exact absurd rfl hne
      have hsplit : l.filter (p n) =
          (l.filter (p (n + 1))).filter (p n) := by
        rw [List.filter_filter]
        refine List.filter_congr fun b hb => ?_
        cases h : p n b with
        | false => rfl
        | true => simp [hmono n b hb h]
      have hlt : (l.filter (p n)).length < (l.filter (p (n + 1))).length := by
        rw [hsplit]
        refine Nat.lt_of_le_of_ne (List.length_filter_le _ _) fun heq => ?_
        have := List.length_filter_eq_length_iff.mp heq a (List.mem_filter.mpr ⟨ha, hnew⟩)
        rw [hold] at this
        cases this
      omega

/-- With more steps than there are items the test has stopped changing. -/
theorem saturated (hmono : ∀ n, ∀ a ∈ l, p n a = true → p (n + 1) a = true)
    (hstep : ∀ n, (∀ a ∈ l, p n a = p (n + 1) a) →
      ∀ a ∈ l, p (n + 1) a = p (n + 2) a) (extra : Nat) :
    ∀ a ∈ l, p (l.length + 1 + extra) a = p (l.length + 1) a := by
  have hstable : ∀ k, ∀ a ∈ l,
      p (l.length + 1 + k) a = p (l.length + 1 + k + 1) a := by
    intro k
    induction k with
    | zero =>
      refine (length_le_or_stable hmono hstep (l.length + 1)).resolve_left fun hle => ?_
      have := List.length_filter_le (p (l.length + 1)) l
      omega
    | succ k ih => exact hstep _ ih
  induction extra with
  | zero => exact fun _ _ => rfl
  | succ extra ih => exact fun a ha => (hstable extra a ha).symm.trans (ih a ha)

end FlowTyping
