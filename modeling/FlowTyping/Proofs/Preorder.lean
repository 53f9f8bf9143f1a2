import FlowTyping.Preorder

/-
  What a depth-first order lists

  Every item that is listed comes from the stack or from `next`.
-/
namespace FlowTyping

variable {α : Type} [DecidableEq α] {next : α → List α}

/-- What holds of the stack and of what `next` leads to holds of every item that is listed. -/
theorem forall_mem_preorder {P : α → Prop} (hnext : ∀ a, P a → ∀ b ∈ next a, P b) {bound : Nat}
    {seen stack : List α} (hstack : ∀ a ∈ stack, P a) : ∀ a ∈ preorder next bound seen stack, P a := by
  induction bound generalizing seen stack with
  | zero => exact fun a ha => by cases ha
  | succ bound ih =>
    unfold preorder
    split
    · exact fun a ha => by cases ha
    · next item rest heq =>
      have hmem : ∀ a ∈ item :: rest, P a := fun a ha =>
        hstack a ((List.dropWhile_suffix _).subset (heq ▸ ha))
      have hitem := hmem item List.mem_cons_self
      intro a ha
      rcases List.mem_cons.mp ha with rfl | ha
      · exact hitem
      · refine ih (fun b hb => ?_) a ha
        rcases List.mem_append.mp hb with hb | hb
        · exact hnext item hitem b hb
        · exact hmem b (List.mem_cons_of_mem _ hb)

end FlowTyping
