import FlowTyping.Proofs.Inference.Failing
import Mathlib.Data.List.Chain

/-
  The shape of an error

  An error that a check reports is one problem inside the frames of the
  instances in which it was met. Only the frames have a cause, and each has a
  place; the problem has a place too unless it is internal (`Framed`). This is so
  wherever the error comes from: the declarations, a call, a limit, or a read
  of an instance variable (`errors_framed`).

  The report of an error shows its chain entry by entry.
-/
namespace FlowTyping

/-- Whether a problem only tells which instance was being typed. -/
def Problem.isFrame : Problem → Bool
  | .instantiating _ => true
  | _ => false

/-- Whether a problem speaks of the checker and not of the program. -/
def Problem.isInternal : Problem → Bool
  | .internal _ => true
  | _ => false

namespace TypingError

variable {e : TypingError} {frames : List TypingError} {problem : Problem} {place : Option Place}

/-! ## Chains -/

/-- What a reader is shown of one error of a chain. -/
def notice (e : TypingError) : Notice := ⟨e.message, e.place?.getD ⟨none, 0, 0, none⟩⟩

/-- The report has one notice for each error of the chain, in the same order. -/
theorem notices_report (e : TypingError) : e.report.notices = e.chain.map notice := by
  induction e with
  | root problem place => simp [report, chain, Report.notices, notice, message, Place.synthesized,
      TypingError.problem, place?]
  | because problem place cause ih =>
    simp [report, chain, Report.notices, notice, message, Place.synthesized, TypingError.problem,
      place?, ih]

theorem chain_eq_cons (e : TypingError) : ∃ rest, e.chain = e :: rest := by
  cases e with
  | root problem place => exact ⟨[], rfl⟩
  | because problem place cause => exact ⟨cause.chain, rfl⟩

/-- Each error of a chain is the cause of the one before it. -/
theorem chain_linked (e : TypingError) : e.chain.IsChain fun outer inner => outer.cause? = some inner := by
  induction e with
  | root problem place => exact List.isChain_singleton _
  | because problem place cause ih =>
    obtain ⟨rest, hrest⟩ := cause.chain_eq_cons
    rw [hrest] at ih
    simp only [chain, hrest, List.isChain_cons_cons]
    exact ⟨rfl, ih⟩

/-! ## Frames -/

/-- The chain of an error consists of frames, each with a place and a cause, and of one more error
at its end. That one is no frame, has no cause, and has a place unless it is internal. -/
structure Framed (frames : List TypingError) (e : TypingError) : Prop where
  chain : e.chain = frames ++ [e.origin]
  frame : ∀ outer ∈ frames,
    outer.problem.isFrame = true ∧ outer.place?.isSome = true ∧ outer.cause?.isSome = true
  problem : e.origin.problem.isFrame = false
  cause : e.origin.cause? = none
  place : e.origin.problem.isInternal = false → e.origin.place?.isSome = true

theorem framed_root (hproblem : problem.isFrame = false)
    (hplace : problem.isInternal = false → place.isSome = true) : Framed [] (root problem place) where
  chain := rfl
  frame := by simp
  problem := hproblem
  cause := rfl
  place := hplace

/-- A frame with a place goes around an error. -/
theorem Framed.instantiating (h : Framed frames e) (signature : String) (at_ : Place) :
    Framed (.instantiating signature at_ e :: frames) (.instantiating signature at_ e) where
  chain := by
    simp only [TypingError.instantiating, TypingError.chain, origin, h.chain, List.cons_append]
  frame := by
    intro outer houter
    rcases List.mem_cons.mp houter with rfl | houter
    · exact ⟨rfl, rfl, rfl⟩
    · exact h.frame outer houter
  problem := h.problem
  cause := h.cause
  place := h.place

/-- Frames of instances go around an error one by one. -/
theorem Framed.within (h : Framed frames e) (around : List Frame) :
    ∃ outer, Framed (outer ++ frames) (e.within around) := by
  induction around generalizing e frames with
  | nil => exact ⟨[], h⟩
  | cons frame around ih =>
    obtain ⟨outer, houter⟩ := ih (h.instantiating frame.signature frame.place)
    refine ⟨outer ++ [.instantiating frame.signature frame.place e], ?_⟩
    rw [List.append_assoc]
    exact houter

end TypingError

open TypingError

variable {program : Expr} {options : Options} {e : TypingError}

/-! ## Where errors come from -/

theorem Mistake.framed (h : Mistake e) : Framed [] e := by
  cases h with
  | unresolved what name place => exact framed_root rfl fun _ => rfl
  | cyclicAncestry type ancestor place => exact framed_root rfl fun _ => rfl
  | undeclared name => apply framed_root <;> simp [Problem.isFrame, Problem.isInternal]
  | noMetaclass shown => apply framed_root <;> simp [Problem.isFrame, Problem.isInternal]
  | notConstant shown => apply framed_root <;> simp [Problem.isFrame, Problem.isInternal]

theorem Options.Exceeded.framed (h : options.Exceeded e) : Framed [] e := by
  cases h with
  | steps => apply framed_root <;> simp [Problem.isFrame, Problem.isInternal]
  | generations shown => apply framed_root <;> simp [Problem.isFrame, Problem.isInternal]

/-- The error of a call that is refused stands at the place of the call. -/
theorem Run.Refuses.framed {r : Run} {site : Site} (h : r.Refuses site e) : Framed [] e := by
  obtain ⟨owner, arguments, -, hrefused⟩ := h
  obtain ⟨problem, rfl, hcall⟩ := hrefused.located
  have hproblem : problem.isFrame = false := by cases problem <;> simp_all [Problem.isOfCall, Problem.isFrame]
  exact framed_root hproblem fun _ => rfl

theorem Traced.Explains.framed {t : Traced} (h : t.Explains options e) :
    ∃ frames, Framed frames e := by
  cases h with
  | refused site around hsite hrefuses hcontext =>
    obtain ⟨outer, houter⟩ := hrefuses.framed.within around
    exact ⟨_, houter⟩
  | mistaken around hmistake =>
    obtain ⟨outer, houter⟩ := hmistake.framed.within around
    exact ⟨_, houter⟩
  | exceeded hexceeded => exact ⟨[], hexceeded.framed⟩

/-- An error that a check reports is one problem inside frames, each error of its chain is the cause
of the one before, and a reader is shown the chain as it is. -/
theorem errors_framed (h : check program options = .error (.failed e)) :
    (∃ frames, Framed frames e) ∧
      (e.chain.IsChain fun outer inner => outer.cause? = some inner) ∧
      e.report.notices = e.chain.map notice := by
  refine ⟨?_, e.chain_linked, e.notices_report⟩
  rcases check_failed h with hmistake | ⟨t, hstopped⟩ | ⟨result, r, hsettles, hdefect⟩
  · exact ⟨[], hmistake.framed⟩
  · exact (stoppedRun_explains hstopped).2.framed
  · obtain ⟨read, -, rfl⟩ := hsettles.sound.2.defect_finished hdefect
    exact ⟨[], framed_root rfl fun _ => rfl⟩

/-- The error of a call that waited in an instance has two frames. -/
theorem errors_framed_deferred : ∃ e outer inner,
    check deferredOnce ⟨100, 5, 8, 5⟩ = .error (.failed e) ∧ Framed [outer, inner] e ∧
      e.report.notices = [outer.notice, inner.notice, e.origin.notice] := by
  obtain ⟨⟨e, t⟩, hstopped, hall⟩ := Option.any_eq_true _ _ |>.mp deferredOnce_stops
  obtain ⟨hall, -⟩ := Bool.and_eq_true_iff.mp hall
  obtain ⟨-, hlength⟩ := Bool.and_eq_true_iff.mp hall
  have hcheck := check_of_stoppedRun hstopped
  obtain ⟨⟨frames, hframed⟩, -, hnotices⟩ := errors_framed hcheck
  have htwo : frames.length = 2 := by
    have hchain : e.chain.length = 3 := beq_iff_eq.mp hlength
    rw [hframed.chain, List.length_append, List.length_singleton] at hchain
    omega
  obtain ⟨outer, inner, rfl⟩ := List.length_eq_two.mp htwo
  refine ⟨e, outer, inner, hcheck, hframed, ?_⟩
  rw [hnotices, hframed.chain]
  simp

end FlowTyping
