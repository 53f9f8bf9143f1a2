import FlowTyping.Proofs.Flow.Limits
import FlowTyping.Proofs.Inference.Alike
import FlowTyping.Proofs.Inference.Failing
import FlowTyping.Proofs.Inference.Reports

/-
  What the options of a check decide

  Settling looks at the bounds of a run, but only to stop. So a check that does
  not stop at a limit ends in the same way under larger limits, with the same
  types or with the same error (`check_relaxed`). The width of a pointer is only
  passed on to what is found.
-/
namespace FlowTyping

open Steps Catalog

variable {options options' : Options} {typer typer' : Typer} {r : Run} {program : Expr}

/-! ## Settling -/

theorem isOfLimit_within (e : TypingError) (frames : List Frame) :
    (Halt.failed (e.within frames)).isOfLimit = (Halt.failed e).isOfLimit := by
  unfold Halt.isOfLimit
  dsimp only
  rw [TypingError.origin_within]

theorem alike_inFramesOf {α : Type} (site : Site) {act act' : RunM α} (h : Alike runs r act act') :
    Alike runs r (RunM.inFramesOf site act) (RunM.inFramesOf site act') := by
  refine h.wrap (fun result => RunM.inFramesOf site (fun _ => result) r)
    rfl (fun _ _ => rfl) ?_ (by rintro _ _ (_ | ⟨_ | _ | _, _⟩) <;> rfl) rfl
    (by rintro (_ | ⟨_ | _ | _, _⟩) <;> rfl)
  rintro (_ | ⟨e | _ | _, _⟩) hcut
  · exact hcut
  · exact (isOfLimit_within e _).trans hcut
  · exact hcut
  · exact hcut

theorem alike_propagate :
    Alike runs r (RunM.onStore Store.propagate) (RunM.onStore Store.propagate) := by
  refine alike_onStore (fun extra limit => ?_) (Store.classes_drain _ _ _)
  cases h : Store.propagate r.store with
  | ok wakes store => exact .inr (Store.propagate_relax h)
  | error e store => exact .inl ⟨e, store, rfl, by rw [Store.propagate_error h]; rfl⟩

theorem alike_wake (htyper : typer.Alike typer')
    (hgeneration : options.generationLimit ≤ options'.generationLimit) (w : Wake) :
    Alike runs r (RunM.wake typer options w) (RunM.wake typer' options' w) := by
  cases w with
  | site site => exact alike_inFramesOf site (alike_rebindCall htyper site)
  | provisional t =>
    refine alike_onStore (fun extra limit => ?_) (Store.classes_refresh t _ _)
    refine (Store.refresh_relax hgeneration r.store t).imp ?_ id
    rintro ⟨shown, store, h⟩
    exact ⟨_, store, h, rfl⟩

theorem alike_settleWithin (htyper : typer.Alike typer')
    (hgeneration : options.generationLimit ≤ options'.generationLimit) {rounds rounds' : Nat}
    (hrounds : rounds ≤ rounds') :
    Alike runs r (RunM.settleWithin typer options rounds)
      (RunM.settleWithin typer' options' rounds') := by
  induction rounds generalizing r rounds' with
  | zero => exact .cutOff rfl _
  | succ rounds ih =>
    obtain ⟨rounds', rfl⟩ : ∃ n, rounds' = n + 1 := ⟨rounds' - 1, by omega⟩
    refine .bind' alike_propagate fun wakes r₁ => ?_
    split
    · exact .pure' _
    · refine .bind' (.forM' fun w _ => alike_wake htyper hgeneration w) fun _ _ => ?_
      exact ih (Nat.le_of_succ_le_succ hrounds)

/-- A larger budget allows for more rounds. -/
theorem alike_settle (htyper : typer.Alike typer')
    (hgeneration : options.generationLimit ≤ options'.generationLimit) :
    Alike runs r (RunM.settle typer options) (RunM.settle typer' options') := by
  have hwithin : ∀ extra, Alike runs r (RunM.settleWithin typer options (r.graph.budget + 1))
      (RunM.settleWithin typer' options' (r.graph.budget + extra + 1)) := fun extra =>
    alike_settleWithin htyper hgeneration (by omega)
  exact ⟨fun extra limit => (hwithin extra).same extra limit, (hwithin 0).names⟩

/-! ## The end of a run -/

theorem relax_collapse (extra limit : Nat) (c : Catalog) (g : Graph) (n : Node) :
    Run.collapse c (g.relax extra limit) n = (Run.collapse c g n).relax extra limit := by
  have htype : (g.relax extra limit).typeAt n = g.typeAt n := rfl
  unfold Run.collapse
  rw [htype]
  cases g.typeAt n with
  | none => rfl
  | some t =>
    dsimp only
    cases c.shape t <;> rfl

theorem relax_finished (extra limit : Nat) (r : Run) :
    (r.relax extra limit).finished = r.finished.relax extra limit := by
  have hgraph : ∀ ns : List Node, ∀ g : Graph, ns.foldl (Run.collapse r.catalog)
      (g.relax extra limit) = (ns.foldl (Run.collapse r.catalog) g).relax extra limit := by
    intro ns
    induction ns with
    | nil => exact fun _ => rfl
    | cons n ns ih =>
      intro g
      rw [List.foldl_cons, relax_collapse]
      exact ih _
  have hcollapse : (r.relax extra limit).collapseAll = r.collapseAll.relax extra limit :=
    congrArg r.withGraph (hgraph r.graph.nodes r.graph)
  unfold Run.finished
  rw [hcollapse]
  rfl

theorem classes_writeSlot (g : Graph) (c : Catalog) (entry : (Ty × String) × Node) :
    (Run.writeSlot g c entry).classes = c.classes := by
  unfold Run.writeSlot
  split
  · split
    · unfold setSlot
      split <;> rfl
    · rfl
  · rfl

theorem classes_finished (r : Run) : r.finished.catalog.classes = r.catalog.classes :=
  List.foldlRecOn _ _ (motive := fun c => c.classes = r.catalog.classes) rfl
    fun c hc entry _ => (classes_writeSlot _ c entry).trans hc

theorem alike_checkDeclared (hgeneration : options.generationLimit ≤ options'.generationLimit)
    (hdepth : options.depthLimit ≤ options'.depthLimit)
    (hwidth : options.pointerWidth = options'.pointerWidth) :
    Alike runs r (RunM.checkDeclared options program) (RunM.checkDeclared options' program) := by
  have htyper := typerWithin_alike hdepth
  refine .bind' (alike_inFreshScopes (htyper _ _ _)) fun result r₁ => ?_
  refine .bind' (alike_settle htyper hgeneration) fun _ r₂ => ?_
  refine .bind' (.modify' (fun extra limit => relax_finished extra limit r₂)
    (.of_classes_eq (classes_finished r₂))) fun _ r₃ => .get' ?_ fun _ _ => ?_
  · split
    · exact alike_fail _
    · unfold Run.checked
      rw [hwidth]
      exact .pure' _
  · rfl

/-! ## Checks -/

/-- The same options for another target. -/
def Options.withWidth (options : Options) (width : Nat) : Options :=
  { options with pointerWidth := width }

/-- The same finding for another target. -/
def Checked.withWidth (checked : Checked) (width : Nat) : Checked :=
  { checked with pointerWidth := width }

/-- The run of a check starts with as much budget as its limit allows for. -/
theorem relax_start (c : Catalog) (h : options.stepLimit ≤ options'.stepLimit) :
    (Run.start c options).relax (options'.stepLimit - options.stepLimit) options'.stepLimit =
      Run.start c options' := by
  show (⟨⟨c, ⟨_, _, options.stepLimit + (options'.stepLimit - options.stepLimit), _⟩⟩,
    _, _, _, _, _, _, _, _, _⟩ : Run) = _
  rw [Nat.add_sub_cancel' h]
  rfl

theorem settleWithin_withWidth (typer : Typer) (options : Options) (width rounds : Nat) :
    RunM.settleWithin typer (options.withWidth width) rounds =
      RunM.settleWithin typer options rounds := by
  have hwake : RunM.wake typer (options.withWidth width) = RunM.wake typer options := by
    funext w
    cases w <;> rfl
  induction rounds with
  | zero => rfl
  | succ rounds ih =>
    unfold RunM.settleWithin
    rw [hwake, ih]

theorem settleProgram_withWidth (options : Options) (width : Nat) (program : Expr) :
    RunM.settleProgram (options.withWidth width) program =
      RunM.settleProgram options program := by
  have hsettle : ∀ typer, RunM.settle typer (options.withWidth width) =
      RunM.settle typer options := fun typer =>
    congrArg (get >>= ·) (funext fun r => settleWithin_withWidth typer options width _)
  unfold RunM.settleProgram
  dsimp only
  rw [hsettle]
  rfl

/-- A check reports on the run that it settles. -/
theorem checkDeclared_eq (options : Options) (program : Expr) :
    RunM.checkDeclared options program = (do
      let result ← RunM.settleProgram options program
      modify Run.finished
      RunM.report options result) := by
  unfold RunM.settleProgram
  simp only [bind_assoc, pure_bind]
  rfl

theorem report_withWidth (options : Options) (width : Nat) (result : Node) :
    RunM.report (options.withWidth width) result =
      (·.withWidth width) <$> RunM.report options result := by
  unfold RunM.report
  rw [map_bind]
  refine congrArg (get >>= ·) (funext fun r => ?_)
  cases r.defect <;> rfl

theorem checkDeclared_withWidth (options : Options) (width : Nat) (program : Expr) :
    RunM.checkDeclared (options.withWidth width) program =
      (·.withWidth width) <$> RunM.checkDeclared options program := by
  rw [checkDeclared_eq, checkDeclared_eq, settleProgram_withWidth]
  simp only [map_bind, report_withWidth]

/-- The width of a pointer is nothing but passed on. -/
theorem check_withWidth (program : Expr) (options : Options) (width : Nat) :
    check program (options.withWidth width) = (check program options).map (·.withWidth width) := by
  unfold check
  cases DeclareM.declareProgram program .seeded with
  | error e c => rfl
  | ok u c =>
    dsimp only
    rw [checkDeclared_withWidth, functor_map_eq]
    unfold EStateM.map
    rw [show Run.start c (options.withWidth width) = Run.start c options from rfl]
    cases RunM.checkDeclared options program (.start c options) <;> rfl

/-- Under larger limits a check ends as it has ended, unless it has stopped at a limit. -/
theorem check_isOfLimit_or (hsteps : options.stepLimit ≤ options'.stepLimit)
    (hgeneration : options.generationLimit ≤ options'.generationLimit)
    (hdepth : options.depthLimit ≤ options'.depthLimit)
    (hwidth : options.pointerWidth = options'.pointerWidth) :
    (∃ halt, check program options = .error halt ∧ halt.isOfLimit = true) ∨
      check program options' = check program options := by
  unfold check
  cases DeclareM.declareProgram program .seeded with
  | error e c => exact .inr rfl
  | ok u c =>
    dsimp only
    rcases (alike_checkDeclared (r := .start c options) hgeneration hdepth hwidth).same
      (options'.stepLimit - options.stepLimit) options'.stepLimit with hcut | hsame
    · cases h : RunM.checkDeclared options program (.start c options) with
      | ok checked r =>
        rw [h] at hcut
        cases hcut
      | error halt r =>
        rw [h] at hcut
        exact .inl ⟨halt, rfl, hcut⟩
    · refine .inr ?_
      rw [show runs.relax _ _ _ = _ from relax_start c hsteps] at hsame
      rw [hsame]
      cases RunM.checkDeclared options program (.start c options) <;> rfl

theorem not_isOfLimit_of_not_isFault {e : TypingError} (h : e.isFault = false) :
    (Halt.failed e).isOfLimit = false := by
  unfold TypingError.isFault at h
  unfold Halt.isOfLimit
  cases hproblem : e.origin.problem with
  | internal f =>
    rw [hproblem] at h
    cases h
  | _ =>
    dsimp only
    rw [hproblem]

/-- Limits decide no more than whether a check ends. One that succeeds, or that finds a mistake in
the program, does so under larger limits too, and with the same result. The width of a pointer is
passed on and decides nothing. -/
theorem check_relaxed (hsteps : options.stepLimit ≤ options'.stepLimit)
    (hgeneration : options.generationLimit ≤ options'.generationLimit)
    (hdepth : options.depthLimit ≤ options'.depthLimit) :
    (∀ checked, check program options = .ok checked →
      check program options' = .ok (checked.withWidth options'.pointerWidth)) ∧
    (∀ e, check program options = .error (.failed e) → e.isFault = false →
      check program options' = .error (.failed e)) ∧
    ∀ width, check program (options.withWidth width) =
      (check program options).map (·.withWidth width) := by
  have hrelaxed : (∃ halt, check program options = .error halt ∧ halt.isOfLimit = true) ∨
      check program options' =
        (check program options).map (·.withWidth options'.pointerWidth) := by
    have hsame : (∃ halt, check program options = .error halt ∧ halt.isOfLimit = true) ∨
        check program (options'.withWidth options.pointerWidth) = check program options :=
      check_isOfLimit_or hsteps hgeneration hdepth rfl
    refine hsame.imp id fun hsame => ?_
    rw [← hsame, ← check_withWidth]
    rfl
  refine ⟨fun checked h => ?_, fun e h hfault => ?_, check_withWidth program options⟩
  · obtain ⟨halt, hstopped, -⟩ | hsame := hrelaxed
    · cases h.symm.trans hstopped
    · rw [hsame, h]
      rfl
  · obtain ⟨halt, hstopped, hlimit⟩ | hsame := hrelaxed
    · cases h.symm.trans hstopped
      cases (not_isOfLimit_of_not_isFault hfault).symm.trans hlimit
    · rw [hsame, h]
      rfl

section
open Sample

/-- A local variable that is not there. -/
def unboundName : Expr := lines [setVar "x" int, var "y"]

end

theorem unboundName_stops : (stoppedRun unboundName ⟨100, 5, 8, 5⟩).any (fun (e, _) =>
    e == .located (.unresolved .localVariable "y") ⟨none, 0, 0, none⟩) = true := by
  decide +kernel

/-- With twice the steps and half the width, a list is checked alike, and so is a mistake. -/
theorem check_relaxed_relisted :
    (∃ checked, check relisted ⟨100, 5, 8, 5⟩ = .ok checked ∧
      check relisted ⟨200, 6, 4, 7⟩ = .ok (checked.withWidth 4)) ∧
    ∃ e, check unboundName ⟨100, 5, 8, 5⟩ = .error (.failed e) ∧
      check unboundName ⟨200, 6, 4, 7⟩ = .error (.failed e) := by
  constructor
  · obtain ⟨⟨n, r⟩, hsettled, -⟩ := Option.any_eq_true _ _ |>.mp relisted_reports
    have hcheck := check_eq_ok_iff.mpr ⟨n, r, hsettled, rfl⟩
    exact ⟨_, hcheck, (check_relaxed (by decide) (by decide) (by decide)).1 _ hcheck⟩
  · obtain ⟨⟨e, t⟩, hstopped, heq⟩ := Option.any_eq_true _ _ |>.mp unboundName_stops
    obtain rfl := beq_iff_eq.mp heq
    have hcheck := check_of_stoppedRun hstopped
    exact ⟨_, hcheck, (check_relaxed (by decide) (by decide) (by decide)).2.1 _ hcheck rfl⟩

end FlowTyping
