import Mathlib.Order.CompleteBooleanAlgebra
import Mathlib.Order.CompletePartialOrder
import FlowTyping.Proofs.Steps

/-
  Steps of two runs side by side

  Two steps run in parallel if from states that correspond they both give
  results that correspond, or both fail with one error, and leave states that
  correspond again. What corresponds to what is told by a stage: what
  corresponds at one stage does so at all later ones, and a step may end at a
  later stage than it begins at.

  Where one run takes a step before the other does, they correspond in another
  way in between, and what they leave when they fail is not compared (`Leads`).
-/
namespace FlowTyping.Steps

variable {ω ε σ σ' α α' β β' : Type} [Preorder ω]

/-- Results that correspond, at some stage from `w` on. -/
inductive Ends (S : ω → σ → σ' → Prop) (R : ω → α → α' → Prop) (w : ω) :
    EStateM.Result ε σ α → EStateM.Result ε σ' α' → Prop
  | ok {v : ω} {a : α} {a' : α'} {s : σ} {s' : σ'} (hw : w ≤ v) (hs : S v s s') (ha : R v a a') :
      Ends S R w (.ok a s) (.ok a' s')
  | error {v : ω} {s : σ} {s' : σ'} (e : ε) (hw : w ≤ v) (hs : S v s s') :
      Ends S R w (.error e s) (.error e s')

/-- Steps that lead from states that correspond at stage `w` to results that correspond. -/
def Parallel (S : ω → σ → σ' → Prop) (R : ω → α → α' → Prop) (w : ω) (act : EStateM ε σ α)
    (act' : EStateM ε σ' α') : Prop :=
  ∀ s s', S w s s' → Ends S R w (act s) (act' s')

/-- Values that have to be the same. -/
def Same (_ : ω) (a a' : α) : Prop := a = a'

variable {S : ω → σ → σ' → Prop} {R : ω → α → α' → Prop}
  {Q : ω → β → β' → Prop} {w v : ω}

theorem Ends.mono {x : EStateM.Result ε σ α} {x' : EStateM.Result ε σ' α'} (h : Ends S R v x x')
    (hw : w ≤ v) : Ends S R w x x' := by
  cases h with
  | ok hv hs ha => exact .ok (le_trans hw hv) hs ha
  | error e hv hs => exact .error e (le_trans hw hv) hs

namespace Parallel

variable {act : EStateM ε σ α} {act' : EStateM ε σ' α'}

theorem pure' {a : α} {a' : α'} (h : R w a a') :
    Parallel S R w (pure a : EStateM ε σ α) (pure a' : EStateM ε σ' α') :=
  fun _ _ hs => .ok le_rfl hs h

theorem throw' (e : ε) : Parallel S R w (throw e : EStateM ε σ α) (throw e : EStateM ε σ' α') :=
  fun _ _ hs => .error e le_rfl hs

theorem bind' {f : α → EStateM ε σ β} {f' : α' → EStateM ε σ' β'} (hact : Parallel S R w act act')
    (hf : ∀ v a a', w ≤ v → R v a a' → Parallel S Q v (f a) (f' a')) :
    Parallel S Q w (act >>= f) (act' >>= f') := by
  intro s s' hs
  have hends := hact s s' hs
  rw [bind_eq, bind_eq]
  generalize act s = x at hends
  generalize act' s' = x' at hends
  cases hends with
  | ok hw hs ha => exact (hf _ _ _ hw ha _ _ hs).mono hw
  | error e hw hs => exact .error e hw hs

/-- What is done with the state depends on both states. -/
theorem get' {f : σ → EStateM ε σ α} {f' : σ' → EStateM ε σ' α'}
    (hf : ∀ s s', S w s s' → Ends S R w (f s s) (f' s' s')) :
    Parallel S R w ((get : EStateM ε σ σ) >>= f) ((get : EStateM ε σ' σ') >>= f') := hf

theorem modifyGet' {f : σ → α × σ} {f' : σ' → α' × σ'}
    (hf : ∀ s s', S w s s' → ∃ v, w ≤ v ∧ S v (f s).2 (f' s').2 ∧ R v (f s).1 (f' s').1) :
    Parallel S R w (modifyGet f : EStateM ε σ α) (modifyGet f' : EStateM ε σ' α') := by
  intro s s' hs
  obtain ⟨v, hw, hs, ha⟩ := hf s s' hs
  exact .ok hw hs ha

theorem modify' {f : σ → σ} {f' : σ' → σ'} (hf : ∀ s s', S w s s' → S w (f s) (f' s')) :
    Parallel S Same w (modify f : EStateM ε σ PUnit) (modify f' : EStateM ε σ' PUnit) :=
  fun s s' hs => .ok le_rfl (hf s s' hs) rfl

theorem discard' (hact : Parallel S R w act act') :
    Parallel S Same w (discard act) (discard act') :=
  hact.bind' fun _ _ _ _ _ => .pure' rfl

theorem forM' {as : List β} {f : β → EStateM ε σ PUnit} {f' : β → EStateM ε σ' PUnit}
    (hf : ∀ v a, w ≤ v → a ∈ as → Parallel S Same v (f a) (f' a)) :
    Parallel S Same w (as.forM f) (as.forM f') := by
  induction as generalizing w with
  | nil => exact .pure' rfl
  | cons a as ih =>
    exact (hf w a le_rfl List.mem_cons_self).bind' fun v _ _ hw _ => ih fun u b hu hb =>
      hf u b (le_trans hw hu) (List.mem_cons_of_mem a hb)

end Parallel

/-! ## Steps that one run takes before the other -/

/-- Results that correspond, or failures with one error, whatever they leave. -/
inductive Agrees (T : ω → σ → σ' → Prop) (R : ω → α → α' → Prop) (w : ω) :
    EStateM.Result ε σ α → EStateM.Result ε σ' α' → Prop
  | ok {v : ω} {a : α} {a' : α'} {s : σ} {s' : σ'} (hw : w ≤ v) (hs : T v s s') (ha : R v a a') :
      Agrees T R w (.ok a s) (.ok a' s')
  | error (e : ε) (s : σ) (s' : σ') : Agrees T R w (.error e s) (.error e s')

/-- Steps that lead from states that correspond in one way to states that do so in another. -/
def Leads (S T : ω → σ → σ' → Prop) (R : ω → α → α' → Prop) (w : ω) (act : EStateM ε σ α)
    (act' : EStateM ε σ' α') : Prop :=
  ∀ s s', S w s s' → Agrees T R w (act s) (act' s')

variable {T U : ω → σ → σ' → Prop} {act : EStateM ε σ α} {act' : EStateM ε σ' α'}

theorem Agrees.mono {x : EStateM.Result ε σ α} {x' : EStateM.Result ε σ' α'} (h : Agrees T R v x x')
    (hw : w ≤ v) : Agrees T R w x x' := by
  cases h with
  | ok hv hs ha => exact .ok (le_trans hw hv) hs ha
  | error e s s' => exact .error e s s'

theorem Parallel.leads (h : Parallel S R w act act') : Leads S S R w act act' := by
  intro s s' hs
  have hends := h s s' hs
  generalize act s = x at hends ⊢
  generalize act' s' = x' at hends ⊢
  cases hends with
  | ok hw hs ha => exact .ok hw hs ha
  | error e _ _ => exact .error e _ _

namespace Leads

theorem bind' {f : α → EStateM ε σ β} {f' : α' → EStateM ε σ' β'} (hact : Leads S T R w act act')
    (hf : ∀ v a a', w ≤ v → R v a a' → Leads T U Q v (f a) (f' a')) :
    Leads S U Q w (act >>= f) (act' >>= f') := by
  intro s s' hs
  have hagrees := hact s s' hs
  rw [bind_eq, bind_eq]
  generalize act s = x at hagrees
  generalize act' s' = x' at hagrees
  cases hagrees with
  | ok hw hs ha => exact (hf _ _ _ hw ha _ _ hs).mono hw
  | error e s s' => exact .error e s s'

/-- Only the second run takes a step, which succeeds. -/
theorem second {act : EStateM ε σ β} {f' : α' → EStateM ε σ' β'}
    (hact : ∀ s s', S w s s' → ∃ v a' t', w ≤ v ∧ act' s' = .ok a' t' ∧ T v s t')
    (hf : ∀ v a', w ≤ v → Leads T U Q v act (f' a')) : Leads S U Q w act (act' >>= f') := by
  intro s s' hs
  obtain ⟨v, a', t', hw, hstep, ht⟩ := hact s s' hs
  rw [bind_eq, hstep]
  exact (hf v a' hw s t' ht).mono hw

/-- Only the first run takes a step, which succeeds. -/
theorem first {act' : EStateM ε σ' β'} {f : α → EStateM ε σ β}
    (hact : ∀ s s', S w s s' → ∃ v a t, w ≤ v ∧ act s = .ok a t ∧ T v t s')
    (hf : ∀ v a, w ≤ v → Leads T U Q v (f a) act') : Leads S U Q w (act >>= f) act' := by
  intro s s' hs
  obtain ⟨v, a, t, hw, hstep, ht⟩ := hact s s' hs
  rw [bind_eq, hstep]
  exact (hf v a hw t s' ht).mono hw

end Leads

end FlowTyping.Steps
