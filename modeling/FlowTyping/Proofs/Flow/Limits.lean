import FlowTyping.Proofs.Flow.Propagation
import FlowTyping.Proofs.Flow.Work

/-
  What stops the flow of types

  The limit on the nodes that are taken off the queue stays what it was. A round
  of propagation fails only at this limit (`propagate_error`), and a provisional
  type fails to react only if too many have succeeded one another on its holder
  (`refresh_error`).
-/
namespace FlowTyping.Store

variable {s s' : Store} {wakes wakes' : List Wake} {e : TypingError}

/-! ## The limit on steps -/

theorem limit_recompute (s : Store) (n : Node) : (s.recompute n).graph.limit = s.graph.limit :=
  (budget_recompute s n).2

theorem limit_bind (s : Store) (n d : Node) : (s.bind n d).graph.limit = s.graph.limit := by
  rw [bind_eq]
  split
  · exact limit_recompute ⟨s.catalog, s.graph.link n d⟩ n
  · rfl

theorem limit_watchAll (g : Graph) (observed : List (String × Node)) (t : Ty) :
    (watchAll g observed t).limit = g.limit := by
  unfold watchAll
  induction observed generalizing g with
  | nil => rfl
  | cons b observed ih => exact ih _

theorem limit_handOver (g : Graph) (observed : List (String × Node)) (former successor : Ty) :
    (handOver g observed former successor).limit = g.limit := by
  unfold handOver
  induction observed generalizing g with
  | nil => rfl
  | cons b observed ih => exact ih _

theorem limit_refresh {t : Ty} {limit : Nat} {u : Unit} (h : refresh t limit s = .ok u s') :
    s'.graph.limit = s.graph.limit := by
  obtain ⟨p, hp, ⟨-, rfl⟩ | ⟨former, target, c, -, hc, h⟩⟩ := refresh_ok h
  · rfl
  · rcases h with ⟨-, rfl⟩ | ⟨-, rfl⟩
    · rfl
    · exact (limit_handOver _ _ _ _).trans (budget_retype _ _ _).2

theorem Work.limit (h : s.Work s') : s'.graph.limit = s.graph.limit := by
  cases h with
  | add | extend | watch => rfl
  | bind _ _ => exact limit_bind s _ _
  | unbind d _ => exact limit_recompute _ _
  | install _ _ _ h =>
    obtain ⟨target, c, hc, rfl, rfl⟩ := install_ok h
    exact (budget_retype _ _ _).2.trans (limit_watchAll _ _ _)
  | refresh h => exact limit_refresh h

theorem Works.limit (h : s.Works s') : s'.graph.limit = s.graph.limit := by
  induction h with
  | refl => rfl
  | tail _ hwork ih => exact hwork.limit.trans ih

/-! ## A round of propagation -/

theorem limit_step (s : Store) (n : Node) (rest : List Node) (budget : Nat) (wakes : List Wake) :
    (s.step n rest budget wakes).1.graph.limit = s.graph.limit :=
  notify_keeps (fun t => t.graph.limit = s.graph.limit)
    (fun t n ht => (limit_recompute t n).trans ht) _ _ rfl

theorem propagate_limit (h : propagate s = .ok wakes s') : s'.graph.limit = s.graph.limit :=
  drain_keeps (fun t => t.graph.limit = s.graph.limit)
    (fun t n ht => (limit_recompute t n).trans ht) (fun _ _ _ _ _ ht => ht) rfl h

theorem drain_error {budget : Nat} (h : drain budget s wakes = .error e s') :
    e = .fault (.stepLimit s.graph.limit) := by
  induction budget generalizing s wakes with
  | zero =>
    unfold drain at h
    split at h
    · cases h
    · cases h
      rfl
  | succ budget ih =>
    unfold drain at h
    split at h
    · cases h
    · next n rest _ => exact (ih h).trans (congrArg _ (congrArg _ (limit_step s n rest budget wakes)))

/-- A round of propagation that fails has reached the limit. -/
theorem propagate_error (h : propagate s = .error e s') : e = .fault (.stepLimit s.graph.limit) :=
  drain_error h

/-! ## Provisional types that react -/

/-- A provisional type whose line goes on fails to react only at the limit of successors. -/
theorem refresh_error {t : Ty} {p : Provisional} {limit : Nat} (hheld : s.Held)
    (hp : s.catalog.shape t = .provisional p) (h : refresh t limit s = .error e s') :
    ∃ shown, e = .fault (.generationLimit shown limit) := by
  obtain ⟨_, _, _, hline⟩ := hheld t p hp
  obtain ⟨v, htemplate, -⟩ := hline.specializes
  obtain ⟨target, c, htarget⟩ := exists_specializationFor htemplate p.observed
  rw [show refresh t limit s = _ from Steps.get_bind_eq] at h
  simp only [hp] at h
  cases hstanding : p.standing.target? with
  | none =>
    simp only [hstanding] at h
    cases h
  | some former =>
    simp only [hstanding] at h
    rcases Steps.bind_error.mp h with h | ⟨_, s₁, -, h⟩
    · rw [htarget] at h
      cases h
    · split at h
      · cases h
      · split at h
        · rcases Steps.bind_error.mp h with h | ⟨_, _, -, h⟩
          · cases h
          · cases h
            exact ⟨_, rfl⟩
        · cases h

end FlowTyping.Store
