import FlowTyping.Proofs.Inference.Settling

/-
  What a check ends with

  A check that succeeds has settled a run (`settledRun`), and what it returns is
  what that run has found (`check_eq_ok_iff`). The run is sound, nothing is due
  and no node is dirty (`settledRun_ok`), so every equation of its graph is
  solved (`Run.Sound.solved`).
-/
namespace FlowTyping

open Catalog

/-- A run with the types that it ends with: no node has a provisional type, and the slots of plain
objects have the types of their nodes. -/
def Run.finished (r : Run) : Run := r.collapseAll.writeSlots

/-- Types the expressions of a program and settles the run. -/
def RunM.settleProgram (options : Options) (program : Expr) : RunM Node := do
  let typer := TypingM.typerWithin options.depthLimit
  let result ← RunM.typeProgram typer program
  RunM.settle typer options
  pure result

/-- The settled run of a program and the node of the program, if the check succeeds. -/
def settledRun (program : Expr) (options : Options) : Option (Node × Run) :=
  match DeclareM.declareProgram program .seeded with
  | .error _ _ => none
  | .ok _ c =>
    match RunM.settleProgram options program (.start c options) with
    | .error _ _ => none
    | .ok result r => if r.finished.defect.isNone then some (result, r) else none

/-- The declarations of a program are fine, and its run settles in `r` with the node `result`. -/
def Settles (program : Expr) (options : Options) (result : Node) (r : Run) : Prop :=
  ∃ u c, DeclareM.declareProgram program .seeded = .ok u c ∧
    RunM.settleProgram options program (.start c options) = .ok result r

variable {program : Expr} {options : Options} {result : Node} {r : Run}

theorem settledRun_eq_some_iff : settledRun program options = some (result, r) ↔
    ∃ u c, DeclareM.declareProgram program .seeded = .ok u c ∧
      RunM.settleProgram options program (.start c options) = .ok result r ∧
      r.finished.defect = none := by
  unfold settledRun
  split
  · next h => simp [h]
  · next u c h =>
    split
    · next h' => simp [h, h']
    · next n r' h' =>
      rw [Option.ite_none_right_eq_some, Option.isNone_iff_eq_none]
      constructor
      · rintro ⟨hdefect, heq⟩
        cases heq
        exact ⟨u, c, h, h', hdefect⟩
      · rintro ⟨_, _, hd, hs, hdefect⟩
        cases h.symm.trans hd
        cases h'.symm.trans hs
        exact ⟨hdefect, rfl⟩

theorem settles_of_settledRun (h : settledRun program options = some (result, r)) :
    Settles program options result r := by
  obtain ⟨u, c, hdeclare, hsettle, -⟩ := settledRun_eq_some_iff.mp h
  exact ⟨u, c, hdeclare, hsettle⟩

/-- The last part of a check: what a finished run has found, unless it has a defect. -/
def RunM.report (options : Options) (result : Node) : RunM Checked := do
  let r ← get
  match r.defect with
  | some e => fail e
  | none => pure (r.checked options result)

theorem report_ok {checked : Checked} {r' : Run} :
    RunM.report options result r = .ok checked r' ↔
      r = r' ∧ r'.defect = none ∧ checked = r'.checked options result := by
  unfold RunM.report
  rw [Steps.get_bind_ok]
  cases hd : r.defect with
  | some e =>
    refine ⟨(fun h => by cases h), ?_⟩
    rintro ⟨rfl, hnone, -⟩
    rw [hd] at hnone
    cases hnone
  | none =>
    refine Steps.pure_ok.trans ⟨?_, ?_⟩
    · rintro ⟨rfl, rfl⟩
      exact ⟨rfl, hd, rfl⟩
    · rintro ⟨rfl, -, rfl⟩
      exact ⟨rfl, rfl⟩

theorem report_error {halt : Halt} {r' : Run} (h : RunM.report options result r = .error halt r') :
    ∃ e, r.defect = some e ∧ halt = .failed e := by
  rw [show RunM.report options result r = _ from Steps.get_bind_eq] at h
  cases hd : r.defect with
  | some e =>
    rw [hd] at h
    cases h
    exact ⟨e, rfl, rfl⟩
  | none =>
    rw [hd] at h
    cases h

/-- What settles a program is the first part of its check. -/
theorem checkDeclared_ok {checked : Checked} {r₀ r' : Run} :
    RunM.checkDeclared options program r₀ = .ok checked r' ↔
      ∃ result r, RunM.settleProgram options program r₀ = .ok result r ∧ r.finished = r' ∧
        r'.defect = none ∧ checked = r'.checked options result := by
  constructor
  · intro h
    obtain ⟨result, r₁, htype, h⟩ := Steps.bind_ok.mp h
    obtain ⟨_, r, hsettle, h⟩ := Steps.bind_ok.mp h
    obtain ⟨_, r₃, hmodify, h⟩ := Steps.bind_ok.mp h
    obtain rfl := Steps.modify_ok.mp hmodify
    obtain ⟨rfl, hdefect, rfl⟩ := report_ok.mp h
    exact ⟨result, r, Steps.bind_ok.mpr ⟨_, _, htype, Steps.bind_ok.mpr
      ⟨_, _, hsettle, Steps.pure_ok.mpr ⟨rfl, rfl⟩⟩⟩, rfl, hdefect, rfl⟩
  · rintro ⟨result, r, h, rfl, hdefect, rfl⟩
    obtain ⟨n, r₁, htype, h⟩ := Steps.bind_ok.mp h
    obtain ⟨_, r₂, hsettle, h⟩ := Steps.bind_ok.mp h
    obtain ⟨rfl, rfl⟩ := Steps.pure_ok.mp h
    exact Steps.bind_ok.mpr ⟨n, r₁, htype, Steps.bind_ok.mpr ⟨_, r₂, hsettle, Steps.bind_ok.mpr
      ⟨.unit, r₂.finished, Steps.modify_ok.mpr rfl, report_ok.mpr ⟨rfl, hdefect, rfl⟩⟩⟩⟩

/-- A check that stops has done so while it settles the program, or has found a defect. -/
theorem checkDeclared_error {r₀ r' : Run} {halt : Halt}
    (h : RunM.checkDeclared options program r₀ = .error halt r') :
    RunM.settleProgram options program r₀ = .error halt r' ∨
      ∃ result r e, RunM.settleProgram options program r₀ = .ok result r ∧
        r.finished.defect = some e ∧ halt = .failed e := by
  rcases Steps.bind_error.mp h with htype | ⟨result, r₁, htype, h⟩
  · exact .inl (Steps.bind_error.mpr (.inl htype))
  rcases Steps.bind_error.mp h with hsettle | ⟨_, r, hsettle, h⟩
  · exact .inl (Steps.bind_error.mpr (.inr ⟨result, r₁, htype, Steps.bind_error.mpr (.inl hsettle)⟩))
  rcases Steps.bind_error.mp h with hmodify | ⟨_, r₂, hmodify, h⟩
  · cases hmodify
  obtain rfl := Steps.modify_ok.mp hmodify
  obtain ⟨e, hdefect, rfl⟩ := report_error h
  exact .inr ⟨result, r, e, Steps.bind_ok.mpr ⟨result, r₁, htype, Steps.bind_ok.mpr
    ⟨_, r, hsettle, Steps.pure_ok.mpr ⟨rfl, rfl⟩⟩⟩, hdefect, rfl⟩

/-- A run that stops while it settles is not checked any further. -/
theorem checkDeclared_of_stopped {r₀ r' : Run} {halt : Halt}
    (h : RunM.settleProgram options program r₀ = .error halt r') :
    RunM.checkDeclared options program r₀ = .error halt r' := by
  rcases Steps.bind_error.mp h with htype | ⟨result, r₁, htype, h⟩
  · exact Steps.bind_error.mpr (.inl htype)
  rcases Steps.bind_error.mp h with hsettle | ⟨_, r, -, h⟩
  · exact Steps.bind_error.mpr (.inr ⟨result, r₁, htype, Steps.bind_error.mpr (.inl hsettle)⟩)
  · cases h

/-- A check that succeeds returns what its settled run has found. -/
theorem check_eq_ok_iff {checked : Checked} : check program options = .ok checked ↔
    ∃ result r, settledRun program options = some (result, r) ∧
      checked = r.finished.checked options result := by
  simp only [settledRun_eq_some_iff]
  unfold check
  cases hd : DeclareM.declareProgram program .seeded with
  | error e c => simp
  | ok u c =>
    dsimp only
    cases hc : RunM.checkDeclared options program (.start c options) with
    | error halt r' =>
      refine ⟨(fun h => by cases h), ?_⟩
      rintro ⟨result, r, ⟨_, _, heq, hs, hdefect⟩, rfl⟩
      cases heq
      have := checkDeclared_ok.mpr ⟨result, r, hs, rfl, hdefect, rfl⟩
      rw [hc] at this
      cases this
    | ok found r' =>
      obtain ⟨result, r, hs, rfl, hdefect, rfl⟩ := checkDeclared_ok.mp hc
      constructor
      · intro h
        cases h
        exact ⟨result, r, ⟨_, _, rfl, hs, hdefect⟩, rfl⟩
      · rintro ⟨result', r', ⟨_, _, heq, hs', -⟩, rfl⟩
        cases heq
        cases hs.symm.trans hs'
        rfl

/-- The expressions of a program are typed in no instance. -/
theorem keeps_typeProgram {typer : Typer} (htyper : typer.Sound) (program : Expr) {r : Run} :
    (running ⟨[], [], none⟩).Keeps r (RunM.typeProgram typer program) fun n r' =>
      r'.Valid n ∧ r'.Slotted .main program.assigned := by
  refine .of_good fun hr => ?_
  have hmain : r.catalog.Definite .main := hr.store.catalog.builtin (by decide)
  have hctx : (⟨.main, .main, none, true, []⟩ : Context).Fits r :=
    ⟨hmain, hmain, fun _ hb => by cases hb⟩
  exact keeps_inFreshScopes (htyper [] ⟨.empty, r⟩ _ program hctx)

/-- What holds of a run once its expressions are typed, and is kept by every part of settling, holds
of the settled run. -/
theorem settleProgram_endures {P : List Wake → Run → Prop} {c : Catalog}
    (hdeclared : seeded.Declares c)
    (hP : Enduring (TypingM.typerWithin options.depthLimit) options P)
    (htyped : ∀ r, r.Sound [] → (Run.start c options).Leads r → P [] r)
    (h : RunM.settleProgram options program (.start c options) = .ok result r) :
    r.Sound [] ∧ r.Quiet ∧ P [] r := by
  have hstart := Run.Sound.start hdeclared options
  have htyper := typerWithin_sound options.depthLimit
  obtain ⟨n, r₁, htype, h⟩ := Steps.bind_ok.mp h
  obtain ⟨_, r₂, hsettle, h⟩ := Steps.bind_ok.mp h
  obtain ⟨rfl, rfl⟩ := Steps.pure_ok.mp h
  obtain ⟨hr₁, hl₁, -⟩ := (keeps_typeProgram htyper program hstart).ok n r₁ htype
  exact settle_ok htyper hP hr₁ (htyped r₁ hr₁ hl₁) hsettle

/-- A program that settles does so soundly. -/
theorem settleProgram_ok {c : Catalog} (hdeclared : seeded.Declares c)
    (h : RunM.settleProgram options program (.start c options) = .ok result r) :
    r.Sound [] ∧ r.Quiet := by
  obtain ⟨hr, hquiet, -⟩ := settleProgram_endures (P := fun _ _ => True) hdeclared
    ⟨fun _ _ _ => trivial, fun _ _ _ _ => trivial, fun _ _ _ => trivial⟩ (fun _ _ _ => trivial) h
  exact ⟨hr, hquiet⟩

/-- A settled run is sound, nothing is due and no node is dirty. -/
theorem Settles.sound (h : Settles program options result r) : r.Sound [] ∧ r.Quiet := by
  obtain ⟨u, c, hdeclare, hsettle⟩ := h
  exact settleProgram_ok (DeclareM.declareProgram_declares hdeclare) hsettle

/-- The run of a check that succeeds is sound, nothing is due and no node is dirty. -/
theorem settledRun_ok (h : settledRun program options = some (result, r)) : r.Sound [] ∧ r.Quiet :=
  (settles_of_settledRun h).sound

/-- In a run without dirty nodes every equation is solved. -/
theorem Run.Sound.solved (hr : r.Sound []) (hquiet : r.Quiet) (n : Node) : r.store.Solved n := by
  rcases hr.balanced n with hsolved | ⟨d, -, hd⟩ | hn
  · exact hsolved
  · rw [show r.store.graph.dirtyAt d = r.graph.dirtyAt d from rfl, hquiet.clean] at hd
    cases hd
  · cases hn

/-! ## Programs to look at

Short ways to write programs, for those that a statement is shown at. -/

namespace Sample

def mark : Mark := ⟨0, .synthesized⟩

def lines (items : List Expr) : Expr := .sequence mark items

def int : Expr := .literal mark .int

def double : Expr := .literal mark .double

def named (name : String) : Expr := .path mark [name]

def var (name : String) : Expr := .localVar mark name

def slot (name : String) : Expr := .slot mark name

def list (elements : List Expr) : Expr := .array mark elements none

def either (accepted refused : Expr) : Expr :=
  .branch mark (.literal mark .bool) accepted (some refused)

def setVar (name : String) (value : Expr) : Expr := .assign mark (.localVar name) value

def setSlot (name : String) (value : Expr) : Expr := .assign mark (.slot name) value

def setConstant (name : String) (value : Expr) : Expr := .assign mark (.constant name) value

/-- A call on `self`. -/
def run (name : String) (arguments : List Expr) : Expr := .call mark none name arguments none

def send (receiver : Expr) (name : String) (arguments : List Expr) : Expr :=
  .call mark (some receiver) name arguments none

/-- A method whose parameters have names and perhaps types. -/
def method (name : String) (parameters : List (String × Option String)) (body : Expr) : Expr :=
  .methodDef mark name false
    (parameters.map fun p => ⟨p.1, p.2.map fun t => .path [t], none⟩) body

def plainClass (name : String) (body : List Expr) : Expr :=
  .classDef mark name none false (lines body)

def genericClass (name : String) (body : List Expr) : Expr :=
  .classDef mark name none true (lines body)

end Sample

end FlowTyping
