import FlowTyping.Proofs.Inference.Slots
import FlowTyping.Proofs.Inference.Tracing

/-
  What a check fails with

  A check that fails has met a mistake in the declarations, or its run has
  stopped, or an instance variable is read that nothing was assigned to
  (`check_failed`).

  The error of a call that is refused has the frames of the instances around the
  call (`refused_calls_in_context`). It may lack those around a call that was
  woken, if this had been entered while another woken call was resolved
  (`context_cut_short`).

  The faults that a check reports are its limits and those that the text can
  bring about (`faults_of_limits_or_text`). These are not all mistakes of the
  checker itself: a constant with the name of a class is one (`fault_of_text`).
-/
namespace FlowTyping

open Catalog Steps

variable {program : Expr} {options : Options} {e : TypingError} {r : Run}

/-! ## Finished runs -/

namespace Run

theorem Quiet.collapse (c : Catalog) {g : Graph} (n : Node)
    (h : g.queue = [] ∧ ∀ m, g.dirtyAt m = false) :
    (Run.collapse c g n).queue = [] ∧ ∀ m, (Run.collapse c g n).dirtyAt m = false := by
  have hoverwrite : ∀ t, (g.overwriteType n t).queue = [] ∧
      ∀ m, (g.overwriteType n t).dirtyAt m = false := fun t => by
    refine ⟨h.1, fun m => ?_⟩
    unfold Graph.overwriteType Graph.dirtyAt
    rw [Graph.cell_modify]
    split <;> exact h.2 m
  unfold Run.collapse
  split
  · split
    · exact hoverwrite _
    · exact h
  · exact h

/-- Nothing is queued or dirty in a finished run. -/
theorem Quiet.isQuiet_finished (h : r.Quiet) : r.finished.graph.isQuiet = true := by
  have key : ∀ (ns : List Node) (g : Graph), g.queue = [] ∧ (∀ m, g.dirtyAt m = false) →
      (ns.foldl (Run.collapse r.catalog) g).queue = [] ∧
        ∀ m, (ns.foldl (Run.collapse r.catalog) g).dirtyAt m = false := by
    intro ns
    induction ns with
    | nil => exact fun g hg => hg
    | cons n ns ih => exact fun g hg => ih _ (Quiet.collapse r.catalog n hg)
  obtain ⟨hqueue, hclean⟩ := key r.graph.nodes r.graph ⟨h.queue, h.clean⟩
  exact Graph.isQuiet_of_clean hqueue hclean

/-- What is wrong with a finished run is an instance variable that is read and never assigned. -/
theorem Quiet.defect_finished (h : r.Quiet) (hdefect : r.finished.defect = some e) :
    ∃ read ∈ r.slotReads, e = .located
      (.missingMember (r.finished.catalog.display read.owner) read.name) read.place := by
  unfold defect at hdefect
  split at hdefect
  · next read hread =>
    cases hdefect
    exact ⟨read, Array.mem_of_find?_eq_some hread, rfl⟩
  · rw [if_pos h.isQuiet_finished] at hdefect
    cases hdefect

end Run

/-! ## Checks that fail -/

/-- A run that stops while it settles, and the error. -/
def stoppedRun (program : Expr) (options : Options) : Option (TypingError × Traced) :=
  match DeclareM.declareProgram program .seeded with
  | .error _ _ => none
  | .ok _ c =>
    match TracedM.settleProgram options program ⟨.start c options, []⟩ with
    | .error (.failed e) t => some (e, t)
    | _ => none

theorem stoppedRun_of_settleProgram {c : Catalog} {u : Unit}
    (hdeclare : DeclareM.declareProgram program .seeded = .ok u c)
    (h : RunM.settleProgram options program (.start c options) = .error (.failed e) r) :
    ∃ t, stoppedRun program options = some (e, t) := by
  obtain ⟨t, hstopped, -⟩ :=
    (Traced.mirrors_settleProgram options program).exists_error (t := ⟨.start c options, []⟩) h
  refine ⟨t, ?_⟩
  unfold stoppedRun
  rw [hdeclare]
  dsimp only
  rw [hstopped]

theorem stoppedRun_explains {t : Traced} (h : stoppedRun program options = some (e, t)) :
    t.Nested ∧ t.Explains options e := by
  unfold stoppedRun at h
  split at h
  · cases h
  · next u c hdeclare =>
    split at h
    · next hsettle =>
      cases h
      have hdeclared := DeclareM.declareProgram_declares hdeclare
      have hnested := @TracedM.settleProgram_nested options program c hdeclared
      rw [hsettle] at hnested
      exact ⟨hnested, TracedM.settleProgram_explains hdeclared hsettle⟩
    · cases h

/-- A run that stops while it settles makes the check fail with the same error. -/
theorem check_of_stoppedRun {t : Traced} (h : stoppedRun program options = some (e, t)) :
    check program options = .error (.failed e) := by
  unfold stoppedRun at h
  cases hdeclare : DeclareM.declareProgram program .seeded with
  | error e' c => rw [hdeclare] at h; cases h
  | ok u c =>
    rw [hdeclare] at h
    dsimp only at h
    split at h
    · next hsettle =>
      cases h
      have hmirrors := Traced.mirrors_settleProgram options program ⟨.start c options, []⟩
      rw [hsettle] at hmirrors
      unfold check
      rw [hdeclare]
      dsimp only
      rw [checkDeclared_of_stopped hmirrors.symm]
    · cases h

/-- A run that settles does not stop. -/
theorem stoppedRun_of_settles {result : Node} (h : Settles program options result r) :
    stoppedRun program options = none := by
  obtain ⟨u, c, hdeclare, hsettle⟩ := h
  unfold stoppedRun
  rw [hdeclare]
  dsimp only
  split
  · next hstopped =>
    have hmirrors := Traced.mirrors_settleProgram options program ⟨.start c options, []⟩
    rw [hstopped] at hmirrors
    cases hmirrors.trans hsettle
  · rfl

/-- A check fails with a mistake in the declarations, with the error at which its run stops, or with
an instance variable that is never assigned. -/
theorem check_failed (h : check program options = .error (.failed e)) :
    Mistake e ∨ (∃ t, stoppedRun program options = some (e, t)) ∨
      ∃ result r, Settles program options result r ∧ r.finished.defect = some e := by
  unfold check at h
  cases hdeclare : DeclareM.declareProgram program .seeded with
  | error e' c =>
    rw [hdeclare] at h
    cases h
    exact .inl (DeclareM.declareProgram_mistake hdeclare)
  | ok u c =>
    rw [hdeclare] at h
    dsimp only at h
    cases hcheck : RunM.checkDeclared options program (.start c options) with
    | ok checked r => rw [hcheck] at h; cases h
    | error halt r =>
      rw [hcheck] at h
      cases h
      rcases checkDeclared_error hcheck with hsettle | ⟨result, r', e', hsettle, hdefect, heq⟩
      · exact .inr (.inl (stoppedRun_of_settleProgram hdeclare hsettle))
      · cases heq
        exact .inr (.inr ⟨result, r', ⟨u, c, hdeclare, hsettle⟩, hdefect⟩)

/-! ## Calls that are refused -/

theorem Mistake.not_isOfCall (h : Mistake e) : e.problem.isOfCall = false := by
  cases h <;> rfl

theorem Mistake.origin_eq (h : Mistake e) : e.origin = e := by
  cases h <;> rfl

theorem Options.Exceeded.origin_eq (h : options.Exceeded e) : e.origin = e := by
  cases h <;> rfl

/-- The run stopped because it refused a call. The error has the frames of the instances around the
call, but for those around the call that was woken last. -/
def Traced.Reports (t : Traced) (e : TypingError) : Prop :=
  ∃ (site : Site) (frames : List Frame), site.index < t.run.sites.size ∧
    t.run.Refuses site e.origin ∧ e = e.origin.within frames ∧
    t.context site = frames ++ t.beyond

/-- An explanation for a problem of calls is a call that is refused. -/
theorem Traced.Explains.reports {t : Traced} (h : t.Explains options e)
    (hcall : e.origin.problem.isOfCall = true) : t.Reports e := by
  cases h with
  | @refused e site frames hsite hrefuses hcontext =>
    obtain ⟨owner, arguments, -, hrefused⟩ := id hrefuses
    obtain ⟨problem, rfl, -⟩ := hrefused.located
    rw [Traced.Reports, TypingError.origin_within]
    exact ⟨site, frames, hsite, hrefuses, rfl, hcontext⟩
  | @mistaken e frames hmistake =>
    rw [TypingError.origin_within, hmistake.origin_eq, hmistake.not_isOfCall] at hcall
    cases hcall
  | exceeded hexceeded =>
    rw [hexceeded.origin_eq] at hcall
    cases hexceeded <;> cases hcall

section
open Sample

/-- A call that waits for its argument in an instance, and is refused once this has a type. -/
def deferredOnce : Expr := lines [
  method "outer" [("x", none)] (run "inner" [run "late" []]),
  method "inner" [("y", none)] (send (var "y") "missing" []),
  method "late" [] (slot "@late"),
  run "outer" [int],
  setSlot "@late" int]

end

theorem deferredOnce_stops : (stoppedRun deferredOnce ⟨100, 5, 8, 5⟩).any (fun (e, t) =>
    e.origin.problem.isOfCall && e.chain.length == 3 && t.beyond.isEmpty) = true := by
  decide +kernel

section
open Sample

/-- A call that waits in an instance that is typed for a call that had to wait itself. -/
def deferredTwice : Expr := lines [
  method "outer" [("x", none)] (run "middle" [run "late" []]),
  method "middle" [("y", none)] (run "inner" [run "later" []]),
  method "inner" [("z", none)] (send (var "z") "missing" []),
  method "late" [] (slot "@late"),
  method "later" [] (slot "@later"),
  method "same" [("x", none)] (var "x"),
  run "outer" [int],
  setSlot "@late" int,
  setSlot "@later" (run "same" [run "same" [run "late" []]])]

end

theorem deferredTwice_cut : (stoppedRun deferredTwice ⟨100, 5, 8, 5⟩).any (fun (e, t) =>
    e.origin.problem.isOfCall && (List.range t.run.sites.size).all fun i =>
      e != e.origin.within (t.context ⟨i⟩)) = true := by
  decide +kernel

/-- A fault that the text of a program can bring about. -/
def Fault.isOfText : Fault → Bool
  | .undeclared _ | .noMetaclass _ | .notConstant _ => true
  | _ => false

/-- A mistake is no fault, or one of the text. -/
theorem Mistake.fault (h : Mistake e) (hfault : e.isFault = true) :
    ∃ f, e = .fault f ∧ f.isOfText = true := by
  cases h with
  | unresolved => cases hfault
  | cyclicAncestry => cases hfault
  | undeclared name => exact ⟨_, rfl, rfl⟩
  | noMetaclass shown => exact ⟨_, rfl, rfl⟩
  | notConstant shown => exact ⟨_, rfl, rfl⟩

theorem isFault_origin : e.origin.isFault = e.isFault := by
  induction e with
  | root p place => rfl
  | because p place cause ih => exact ih

/-- A check fails with a fault only where a limit is exceeded or the text brings the fault about. -/
theorem faults_of_limits_or_text (h : check program options = .error (.failed e))
    (hfault : e.isFault = true) :
    options.Exceeded e ∨ ∃ f, e.origin = .fault f ∧ f.isOfText = true := by
  rcases check_failed h with hmistake | ⟨t, hstopped⟩ | ⟨result, r, hsettles, hdefect⟩
  · rw [hmistake.origin_eq]
    exact .inr (hmistake.fault hfault)
  · cases (stoppedRun_explains hstopped).2 with
    | @refused e site frames hsite hrefuses hcontext =>
      obtain ⟨owner, arguments, -, hrefused⟩ := id hrefuses
      obtain ⟨problem, rfl, hcall⟩ := hrefused.located
      rw [← isFault_origin, TypingError.origin_within] at hfault
      cases problem with
      | internal f => cases hcall
      | _ => cases hfault
    | @mistaken e frames hmistake =>
      rw [← isFault_origin, TypingError.origin_within, hmistake.origin_eq] at hfault
      rw [TypingError.origin_within, hmistake.origin_eq]
      exact .inr (hmistake.fault hfault)
    | exceeded hexceeded => exact .inl hexceeded
  · obtain ⟨read, -, rfl⟩ := hsettles.sound.2.defect_finished hdefect
    cases hfault

section
open Sample

/-- Two steps are needed for these lines. -/
def limitedLines : Expr := lines [setVar "x" int, var "x"]

/-- A constant that has the name of a class. -/
def classAsConstant : Expr := lines [plainClass "Foo" [], setConstant "Foo" int]

end

theorem limitedLines_stops : (stoppedRun limitedLines ⟨0, 5, 8, 5⟩).any (fun (e, _) =>
    e == .fault (.stepLimit 0)) = true := by
  decide +kernel

/-- Without a step that may be taken, a check fails with the limit. -/
theorem faults_of_limits_or_text_limited : ∃ e,
    check limitedLines ⟨0, 5, 8, 5⟩ = .error (.failed e) ∧ e.isFault = true ∧
      Options.Exceeded ⟨0, 5, 8, 5⟩ e := by
  obtain ⟨⟨e, t⟩, hstopped, heq⟩ := Option.any_eq_true _ _ |>.mp limitedLines_stops
  obtain rfl := beq_iff_eq.mp heq
  have hcheck := check_of_stoppedRun hstopped
  refine ⟨_, hcheck, rfl, (faults_of_limits_or_text hcheck rfl).resolve_right ?_⟩
  rintro ⟨f, hf, htext⟩
  cases hf
  cases htext

theorem classAsConstant_stops : (stoppedRun classAsConstant ⟨100, 5, 8, 5⟩).any (fun (e, _) =>
    e == .fault (.notConstant "Foo")) = true := by
  decide +kernel

/-- Not every fault that a check fails with is a limit. -/
theorem fault_of_text :
    ¬ ∀ program options e, check program options = .error (.failed e) → e.isFault = true →
      options.Exceeded e := by
  intro hall
  obtain ⟨⟨e, t⟩, hstopped, heq⟩ := Option.any_eq_true _ _ |>.mp classAsConstant_stops
  obtain rfl := beq_iff_eq.mp heq
  cases hall _ _ _ (check_of_stoppedRun hstopped) rfl

end FlowTyping
