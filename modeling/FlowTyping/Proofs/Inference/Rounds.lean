import FlowTyping.Proofs.Flow.Tally
import FlowTyping.Proofs.Inference.Editing
import FlowTyping.Proofs.Inference.Failing
import FlowTyping.Proofs.Inference.Reports

/-
  Settling comes to an end

  A run settles in rounds: types are propagated, and what is woken reacts. The
  loop has no bound of its own (`Loops`). What reacts may add nodes, calls and
  provisional types, and make nodes dirty again, but only a round of propagation
  changes the budget, by the nodes that it takes off the queue. So each round
  that goes on has used some of it, and there is at most one round more than the
  budget allows nodes (`loops_settle`). Settling with as many rounds is the loop.

  In all states that a run of a program comes through (`Attains`), the number of
  types that have been superseded on a node is within its limit. A run that does
  not get quiet stops at one of the two limits, or at a call that it resolves
  again (`Attains.outcome`).
-/
namespace FlowTyping

open Catalog Steps

variable {typer : Typer} {options : Options} {program : Expr} {r r' : Run} {w : Wake}
  {wakes : List Wake} {halt : Halt} {u : Unit} {rounds taken : Nat}
  {result : EStateM.Result Halt Run Unit}

/-! ## The budget -/

namespace Store

variable {s s' : Store} {n : Node}

/-- The budget is what is left of it after the nodes that a round takes off the queue, also if the
round fails. -/
theorem budget_drain {budget : Nat} (hbudget : s.graph.budget = budget) (wakes : List Wake) :
    (left (drain budget s wakes)).graph.budget + (visitedWithin budget s).length = budget := by
  induction budget generalizing s wakes with
  | zero =>
    cases hqueue : s.graph.queue with
    | nil => rw [drain, hqueue]; exact hbudget
    | cons n rest => rw [drain, hqueue]; exact hbudget
  | succ budget ih =>
    cases hqueue : s.graph.queue with
    | nil =>
      rw [drain, hqueue, visitedWithin_of_empty hqueue]
      exact hbudget
    | cons n rest =>
      obtain ⟨wakes', heq⟩ := drain_of_queue hqueue budget wakes
      rw [heq, visitedWithin_of_queue hqueue, List.length_cons, ← Nat.add_assoc,
        ih (budget_stepped s n rest budget)]

theorem budget_propagate (s : Store) :
    (left (propagate s)).graph.budget + s.visited.length = s.graph.budget :=
  budget_drain rfl []

/-- What has been taken off the queue and what is left of the budget stay the same together. -/
theorem budget_taken (s : Store) (taken : Nat) :
    (left (propagate s)).graph.budget + (taken + s.visited.length) = s.graph.budget + taken := by
  have hspent := budget_propagate s
  omega

/-- A round that wakes something has taken a node off the queue. -/
theorem visited_of_wakes {wakes : List Wake} (h : propagate s = .ok wakes s')
    (hwakes : wakes ≠ []) : s.visited ≠ [] := by
  intro hnone
  rw [wakes_of_propagate h, notices, hnone] at hwakes
  exact hwakes rfl

theorem budget_refresh (s : Store) (t : Ty) (limit : Nat) :
    (left (refresh t limit s)).graph.budget = s.graph.budget := by
  rcases graph_refresh s t limit with heq | ⟨p, successor, -, heq⟩
  · rw [heq]
  · rw [heq]
    exact (budget_handOver _ _ _ _).trans (budget_retype _ _ _).1

end Store

/-- A call that is resolved again edits the store and no more. -/
theorem edits_wokenCall (htyper : typer.Edits) (options : Options) (site : Site) :
    Edits Run.store (RunM.wake typer options (.site site)) := by
  intro r
  unfold RunM.wake
  rw [left_inFramesOf]
  exact edits_rebindCall htyper site r

/-- What reacts to a wake leaves the budget alone, whether it fails or not. -/
theorem budget_wake (htyper : typer.Edits) (options : Options) (w : Wake) (r : Run) :
    (left (RunM.wake typer options w r)).graph.budget = r.graph.budget := by
  cases w with
  | site site => exact (edits_wokenCall htyper options site r).budget
  | provisional t =>
    show (left (RunM.onStore _ r)).store.graph.budget = _
    rw [store_left_onStore]
    exact Store.budget_refresh r.store t _

theorem budget_wakes (htyper : typer.Edits) (options : Options) (wakes : List Wake) (r : Run) :
    (left ((wakes.forM (RunM.wake typer options) : RunM Unit) r)).graph.budget =
      r.graph.budget := by
  induction wakes generalizing r with
  | nil => rfl
  | cons w wakes ih =>
    refine left_bind (P := fun r' : Run => r'.graph.budget = r.graph.budget)
      (budget_wake htyper options w r) ?_
    intro _ r₁ _ hr₁
    exact (ih r₁).trans hr₁

/-! ## The loop -/

/-- One turn of the loop in which a run settles: whether anything was woken. -/
def RunM.round (typer : Typer) (options : Options) : RunM Bool := do
  let wakes ← RunM.onStore Store.propagate
  wakes.forM (RunM.wake typer options)
  pure !wakes.isEmpty

/-- A step that says whether to go on is done until it says no or fails. It is done so many times,
which nothing bounds. -/
inductive Loops {ε σ : Type} (act : EStateM ε σ Bool) : σ → Nat → EStateM.Result ε σ Unit → Prop
  | ends {s s' : σ} (h : act s = .ok false s') : Loops act s 1 (.ok () s')
  | fails {s s' : σ} {e : ε} (h : act s = .error e s') : Loops act s 1 (.error e s')
  | again {s s' : σ} {times : Nat} {result : EStateM.Result ε σ Unit} (h : act s = .ok true s')
      (hrest : Loops act s' times result) : Loops act s (times + 1) result

/-- A loop comes to one end. -/
theorem Loops.unique {ε σ : Type} {act : EStateM ε σ Bool} {s : σ} {times times' : Nat}
    {result result' : EStateM.Result ε σ Unit} (h : Loops act s times result)
    (h' : Loops act s times' result') : times = times' ∧ result = result' := by
  induction h generalizing times' result' with
  | ends h =>
    cases h' with
    | ends h' => cases h.symm.trans h'; exact ⟨rfl, rfl⟩
    | fails h' => cases h.symm.trans h'
    | again h' _ => cases h.symm.trans h'
  | fails h =>
    cases h' with
    | ends h' => cases h.symm.trans h'
    | fails h' => cases h.symm.trans h'; exact ⟨rfl, rfl⟩
    | again h' _ => cases h.symm.trans h'
  | again h _ ih =>
    cases h' with
    | ends h' => cases h.symm.trans h'
    | fails h' => cases h.symm.trans h'
    | again h' hrest =>
      cases h.symm.trans h'
      obtain ⟨rfl, rfl⟩ := ih hrest
      exact ⟨rfl, rfl⟩

/-- A bounded number of rounds begins with one round. -/
theorem settleWithin_succ (rounds : Nat) (r : Run) :
    RunM.settleWithin typer options (rounds + 1) r = match RunM.round typer options r with
      | .ok true r' => RunM.settleWithin typer options rounds r'
      | .ok false r' => .ok () r'
      | .error halt r' => .error halt r' := by
  rw [RunM.settleWithin, RunM.round, bind_eq, bind_eq]
  cases RunM.onStore Store.propagate r with
  | error halt r₁ => rfl
  | ok wakes r₁ =>
    cases wakes with
    | nil => rfl
    | cons w wakes =>
      show ((w :: wakes).forM (RunM.wake typer options) >>= fun _ =>
        RunM.settleWithin typer options rounds : RunM Unit) r₁ = _
      dsimp only
      rw [bind_eq, bind_eq]
      cases ((w :: wakes).forM (RunM.wake typer options) : RunM Unit) r₁ with
      | error halt r₂ => rfl
      | ok u r₂ => rfl

/-- The parts of a round that gives a result. -/
theorem round_ok {again : Bool} (h : RunM.round typer options r = .ok again r') :
    ∃ wakes s, Store.propagate r.store = .ok wakes s ∧ again = !wakes.isEmpty ∧
      (wakes.forM (RunM.wake typer options) : RunM Unit) (r.withStore s) = .ok () r' := by
  obtain ⟨wakes, r₁, hpropagate, h⟩ := bind_ok.mp h
  obtain ⟨s, hs, rfl⟩ := onStore_ok.mp hpropagate
  obtain ⟨_, r₂, hwakes, h⟩ := bind_ok.mp h
  obtain ⟨rfl, rfl⟩ := pure_ok.mp h
  exact ⟨wakes, s, hs, rfl, hwakes⟩

/-- A round after which the loop goes on has used some budget. -/
theorem budget_round (htyper : typer.Edits) (h : RunM.round typer options r = .ok true r') :
    r'.graph.budget < r.graph.budget := by
  obtain ⟨wakes, s, hpropagate, hagain, hwakes⟩ := round_ok h
  have hspent := Store.budget_propagate r.store
  rw [hpropagate] at hspent
  have hkept := budget_wakes htyper options wakes (r.withStore s)
  rw [hwakes] at hkept
  have hvisited : 0 < r.store.visited.length := by
    refine List.length_pos_iff.mpr (Store.visited_of_wakes hpropagate ?_)
    rintro rfl
    cases hagain
  calc r'.graph.budget = s.graph.budget := hkept
    _ < s.graph.budget + r.store.visited.length := Nat.lt_add_of_pos_right hvisited
    _ = r.graph.budget := hspent

/-- With more rounds than there is budget, settling is the loop. -/
theorem loops_settleWithin (htyper : typer.Edits) (hrounds : r.graph.budget < rounds) :
    ∃ times ≤ r.graph.budget + 1, Loops (RunM.round typer options) r times
      (RunM.settleWithin typer options rounds r) := by
  induction rounds generalizing r with
  | zero => exact absurd hrounds (Nat.not_lt_zero _)
  | succ rounds ih =>
    rw [settleWithin_succ]
    cases hround : RunM.round typer options r with
    | error halt r' => exact ⟨1, Nat.le_add_left 1 _, .fails hround⟩
    | ok again r' =>
      cases again with
      | false => exact ⟨1, Nat.le_add_left 1 _, .ends hround⟩
      | true =>
        have hspent := budget_round htyper hround
        obtain ⟨times, hle, hloops⟩ := ih (r := r') (by omega)
        exact ⟨times + 1, by omega, .again hround hloops⟩

/-- Settling is a loop of at most one round more than the budget allows nodes. -/
theorem loops_settle (htyper : typer.Edits) (options : Options) (r : Run) :
    ∃ times ≤ r.graph.budget + 1, Loops (RunM.round typer options) r times
      (RunM.settle typer options r) :=
  loops_settleWithin htyper (Nat.lt_succ_self _)

/-! ## The states of a run -/

/-- The states that a run of a program comes through once its expressions have been typed, with the
number of nodes taken off the queue so far and what is still to react. A run that has stopped waits
for nothing. -/
inductive Attains (options : Options) (program : Expr) : Nat → Option (List Wake) → Run → Prop
  | typed {c : Catalog} {n : Node} {r : Run}
      (hdeclare : DeclareM.declareProgram program .seeded = .ok () c)
      (h : RunM.typeProgram (TypingM.typerWithin options.depthLimit) program (.start c options) =
        .ok n r) : Attains options program 0 (some []) r
  | untyped {c : Catalog} {halt : Halt} {r : Run}
      (hdeclare : DeclareM.declareProgram program .seeded = .ok () c)
      (h : RunM.typeProgram (TypingM.typerWithin options.depthLimit) program (.start c options) =
        .error halt r) : Attains options program 0 none r
  | propagated {taken : Nat} {r : Run} {wakes : List Wake} {s : Store}
      (hbefore : Attains options program taken (some []) r)
      (h : Store.propagate r.store = .ok wakes s) :
      Attains options program (taken + r.store.visited.length) (some wakes) (r.withStore s)
  | exhausted {taken : Nat} {r : Run} {e : TypingError} {s : Store}
      (hbefore : Attains options program taken (some []) r)
      (h : Store.propagate r.store = .error e s) :
      Attains options program (taken + r.store.visited.length) none (r.withStore s)
  | reacted {taken : Nat} {r r' : Run} {w : Wake} {wakes : List Wake}
      (hbefore : Attains options program taken (some (w :: wakes)) r)
      (h : RunM.wake (TypingM.typerWithin options.depthLimit) options w r = .ok () r') :
      Attains options program taken (some wakes) r'
  | stopped {taken : Nat} {r r' : Run} {w : Wake} {wakes : List Wake} {halt : Halt}
      (hbefore : Attains options program taken (some (w :: wakes)) r)
      (h : RunM.wake (TypingM.typerWithin options.depthLimit) options w r = .error halt r') :
      Attains options program taken none r'

/-- What is counted in a state of a run. -/
structure Run.Counted (options : Options) (taken : Nat) (r : Run) : Prop where
  budget : r.graph.budget + taken = options.stepLimit
  superseded : ∀ holder, (r.catalog.superseded holder).card ≤ options.generationLimit

/-- A run that has not stopped can go on. -/
structure Run.Proceeding (options : Options) (wakes : List Wake) (r : Run) : Prop where
  settling : r.Settling options wakes
  tallied : r.store.Tallied options.generationLimit

theorem Run.Proceeding.superseded (h : r.Proceeding options wakes) (holder : Node) :
    (r.catalog.superseded holder).card ≤ options.generationLimit :=
  h.tallied.card_le h.settling.sound.held holder

theorem Run.Proceeding.propagate (h : r.Proceeding options []) {s : Store}
    (hpropagate : Store.propagate r.store = .ok wakes s) :
    (r.withStore s).Proceeding options wakes := by
  have hsettling := h.settling.propagate (typerWithin_sound options.depthLimit) hpropagate
  have hfounds := Store.founds_propagate r.store
  rw [hpropagate] at hfounds
  exact ⟨hsettling, h.tallied.founds h.settling.sound.held hsettling.attuned.kept hfounds⟩

theorem Run.Proceeding.wake (h : r.Proceeding options (w :: wakes))
    (hwake : RunM.wake (TypingM.typerWithin options.depthLimit) options w r = .ok u r') :
    r'.Proceeding options wakes := by
  have hsettling := h.settling.wake (typerWithin_sound options.depthLimit) hwake
  refine ⟨hsettling, ?_⟩
  cases w with
  | site site =>
    have hfounds :=
      (edits_wokenCall (edits_typerWithin options.depthLimit) options site r).founds
    rw [hwake] at hfounds
    exact h.tallied.founds h.settling.sound.held hsettling.attuned.kept hfounds
  | provisional t =>
    obtain ⟨s, hrefresh, rfl⟩ := onStore_ok.mp hwake
    exact h.tallied.refresh h.settling.sound.store h.settling.attuned.kept hrefresh

/-- What fails to react has superseded nothing. -/
theorem Run.Proceeding.superseded_of_error (h : r.Proceeding options (w :: wakes))
    (hwake : RunM.wake (TypingM.typerWithin options.depthLimit) options w r = .error halt r')
    (holder : Node) : r'.catalog.superseded holder = r.catalog.superseded holder := by
  cases w with
  | site site =>
    have hfounds :=
      (edits_wokenCall (edits_typerWithin options.depthLimit) options site r).founds
    rw [hwake] at hfounds
    exact hfounds.superseded holder
  | provisional t =>
    obtain ⟨p, hp⟩ := h.settling.provisional t List.mem_cons_self
    obtain ⟨e, s, hrefresh, -, rfl⟩ := onStore_error.mp hwake
    exact (Founds.of_gains (Store.refresh_failed hp hrefresh).2).superseded holder

/-- Before a program has been typed, no type has been superseded, and none is while it is. -/
theorem superseded_typeProgram {c : Catalog} (hdeclared : seeded.Declares c) (options : Options)
    (program : Expr) (holder : Node) :
    (left (RunM.typeProgram (TypingM.typerWithin options.depthLimit) program
      (.start c options))).catalog.superseded holder = ∅ := by
  have hedits := edits_typeProgram (edits_typerWithin options.depthLimit) program (.start c options)
  refine (hedits.founds.superseded holder).trans ?_
  exact superseded_of_none hdeclared.shape_ne_provisional holder

theorem proceeding_of_typeProgram {c : Catalog} {n : Node} (hdeclared : seeded.Declares c)
    (h : RunM.typeProgram (TypingM.typerWithin options.depthLimit) program (.start c options) =
      .ok n r) : r.Proceeding options [] := by
  have hsettling := TracedM.settling_of_typeProgram hdeclared h
  have hnone : ∀ t p, (Run.start c options).store.catalog.shape t ≠ .provisional p :=
    hdeclared.shape_ne_provisional
  have hfounds :=
    (edits_typeProgram (edits_typerWithin options.depthLimit) program (.start c options)).founds
  rw [h] at hfounds
  have hstart : (Run.start c options).store.Tallied options.generationLimit :=
    fun t p hp => (hnone t p hp).elim
  have hheld : (Run.start c options).store.Held := fun t p hp => (hnone t p hp).elim
  exact ⟨hsettling, hstart.founds hheld hsettling.attuned.kept hfounds⟩

theorem budget_typeProgram (c : Catalog) (options : Options) (program : Expr) :
    (left (RunM.typeProgram (TypingM.typerWithin options.depthLimit) program
      (.start c options))).graph.budget = options.stepLimit :=
  (edits_typeProgram (edits_typerWithin options.depthLimit) program (.start c options)).budget

/-- In every state that a run comes through, the budget is what the step limit leaves of it, and as
few types are superseded on each node as are allowed. -/
theorem Attains.counted {waiting : Option (List Wake)}
    (h : Attains options program taken waiting r) :
    r.Counted options taken ∧ ∀ wakes, waiting = some wakes → r.Proceeding options wakes := by
  induction h with
  | @typed c n r hdeclare h =>
    have hdeclared := DeclareM.declareProgram_declares hdeclare
    have hbudget := budget_typeProgram c options program
    rw [h] at hbudget
    have hproceeding := proceeding_of_typeProgram hdeclared h
    exact ⟨⟨hbudget, hproceeding.superseded⟩, fun _ hwakes => Option.some.inj hwakes ▸ hproceeding⟩
  | @untyped c halt r hdeclare h =>
    have hdeclared := DeclareM.declareProgram_declares hdeclare
    have hbudget := budget_typeProgram c options program
    rw [h] at hbudget
    refine ⟨⟨hbudget, fun holder => ?_⟩, nofun⟩
    have hnone := superseded_typeProgram hdeclared options program holder
    rw [h] at hnone
    rw [show r.catalog.superseded holder = ∅ from hnone]
    exact Nat.zero_le _
  | @propagated taken r wakes s _ h ih =>
    obtain ⟨hcounted, hproceeding⟩ := ih
    have hnext := (hproceeding [] rfl).propagate h
    have hspent := Store.budget_taken r.store taken
    rw [h] at hspent
    exact ⟨⟨hspent.trans hcounted.budget, hnext.superseded⟩,
      fun _ hwakes => Option.some.inj hwakes ▸ hnext⟩
  | @exhausted taken r e s _ h ih =>
    obtain ⟨hcounted, -⟩ := ih
    have hspent := Store.budget_taken r.store taken
    rw [h] at hspent
    have hfounds := Store.founds_propagate r.store
    rw [h] at hfounds
    refine ⟨⟨hspent.trans hcounted.budget, fun holder => ?_⟩, nofun⟩
    exact (congrArg Finset.card (hfounds.superseded holder)).trans_le (hcounted.superseded holder)
  | @reacted taken r r' w wakes _ h ih =>
    obtain ⟨hcounted, hproceeding⟩ := ih
    have hnext := (hproceeding _ rfl).wake h
    have hkept := budget_wake (edits_typerWithin options.depthLimit) options w r
    rw [h] at hkept
    exact ⟨⟨(congrArg (· + taken) hkept).trans hcounted.budget, hnext.superseded⟩,
      fun _ hwakes => Option.some.inj hwakes ▸ hnext⟩
  | @stopped taken r r' w wakes halt _ h ih =>
    obtain ⟨hcounted, hproceeding⟩ := ih
    have hkept := budget_wake (edits_typerWithin options.depthLimit) options w r
    rw [h] at hkept
    refine ⟨⟨(congrArg (· + taken) hkept).trans hcounted.budget, fun holder => ?_⟩, nofun⟩
    rw [(hproceeding _ rfl).superseded_of_error h holder]
    exact hcounted.superseded holder

/-! ## How a run comes to an end -/

/-- How settling comes to an end: nothing is left to do, a limit is reached, or a call that is
resolved again fails. -/
inductive Outcome (options : Options) (program : Expr) : EStateM.Result Halt Run Unit → Prop
  | quiet {taken : Nat} {r : Run} (hr : Attains options program taken (some []) r) (h : r.Quiet) :
      Outcome options program (.ok () r)
  | exceeded {taken : Nat} {e : TypingError} {r : Run} (hr : Attains options program taken none r)
      (h : options.Exceeded e) : Outcome options program (.error (.failed e) r)
  | refused {taken : Nat} {site : Site} {wakes : List Wake} {halt : Halt} {r r' : Run}
      (hr : Attains options program taken (some (.site site :: wakes)) r)
      (h : RunM.wake (TypingM.typerWithin options.depthLimit) options (.site site) r =
        .error halt r') : Outcome options program (.error halt r')

/-- What is woken fails to react at the limit of successors, or it is a call. -/
theorem Attains.outcome_of_wake (h : Attains options program taken (some (w :: wakes)) r)
    (hwake : RunM.wake (TypingM.typerWithin options.depthLimit) options w r = .error halt r') :
    Outcome options program (.error halt r') := by
  cases w with
  | site site => exact .refused h hwake
  | provisional t =>
    have hsettling := (h.counted.2 _ rfl).settling
    obtain ⟨p, hp⟩ := hsettling.provisional t List.mem_cons_self
    obtain ⟨e, s, hrefresh, rfl, -⟩ := onStore_error.mp hwake
    obtain ⟨shown, rfl⟩ := Store.refresh_error hsettling.sound.held hp hrefresh
    exact .exceeded (.stopped h hwake) (.generations shown)

/-- All that is woken reacts, or the run comes to an end. -/
theorem Attains.react (h : Attains options program taken (some wakes) r) :
    (∀ r', (wakes.forM (RunM.wake (TypingM.typerWithin options.depthLimit) options) : RunM Unit) r =
      .ok () r' → Attains options program taken (some []) r') ∧
    ∀ halt r', (wakes.forM (RunM.wake (TypingM.typerWithin options.depthLimit) options) :
      RunM Unit) r = .error halt r' → Outcome options program (.error halt r') := by
  induction wakes generalizing r with
  | nil =>
    refine ⟨fun r' hok => ?_, fun halt r' herror => by cases herror⟩
    obtain ⟨-, rfl⟩ := pure_ok.mp hok
    exact h
  | cons w wakes ih =>
    refine ⟨fun r' hok => ?_, fun halt r' herror => ?_⟩
    · obtain ⟨_, r₁, hwake, hrest⟩ := bind_ok.mp hok
      exact (ih (.reacted h hwake)).1 r' hrest
    · rcases bind_error.mp herror with hwake | ⟨_, r₁, hwake, hrest⟩
      · exact h.outcome_of_wake hwake
      · exact (ih (.reacted h hwake)).2 halt r' hrest

/-- A round leads to a state in which the next one can begin, or the run comes to an end. -/
theorem Attains.round (h : Attains options program taken (some []) r) :
    (∀ r', RunM.round (TypingM.typerWithin options.depthLimit) options r = .ok true r' →
      ∃ taken', Attains options program taken' (some []) r') ∧
    (∀ r', RunM.round (TypingM.typerWithin options.depthLimit) options r = .ok false r' →
      Outcome options program (.ok () r')) ∧
    ∀ halt r', RunM.round (TypingM.typerWithin options.depthLimit) options r = .error halt r' →
      Outcome options program (.error halt r') := by
  have hsettling := (h.counted.2 _ rfl).settling
  refine ⟨fun r' hok => ?_, fun r' hok => ?_, fun halt r' herror => ?_⟩
  · obtain ⟨wakes, s, hpropagate, -, hwakes⟩ := round_ok hok
    exact ⟨_, (Attains.propagated h hpropagate).react.1 r' hwakes⟩
  · obtain ⟨wakes, s, hpropagate, hagain, hwakes⟩ := round_ok hok
    obtain rfl : wakes = [] := by simpa using hagain
    obtain ⟨-, rfl⟩ := pure_ok.mp hwakes
    have hround := Store.propagate_ok hsettling.sound.store.formed hsettling.sound.balanced hpropagate
    exact .quiet (.propagated h hpropagate) ⟨hround.queue, hround.quiet⟩
  · rcases bind_error.mp herror with hround | ⟨wakes, r₁, hround, herror⟩
    · obtain ⟨e, s, hpropagate, rfl, rfl⟩ := onStore_error.mp hround
      have hlimit : r.store.graph.limit = options.stepLimit := hsettling.limit
      obtain rfl := Store.propagate_error hpropagate
      rw [hlimit] at hpropagate ⊢
      exact .exceeded (.exhausted h hpropagate) .steps
    · obtain ⟨s, hpropagate, rfl⟩ := onStore_ok.mp hround
      rcases bind_error.mp herror with hwakes | ⟨_, r₂, -, hpure⟩
      · exact (Attains.propagated h hpropagate).react.2 halt r' hwakes
      · cases hpure

theorem Attains.outcome (h : Attains options program taken (some []) r)
    (hloops : Loops (RunM.round (TypingM.typerWithin options.depthLimit) options) r rounds result) :
    Outcome options program result := by
  induction hloops generalizing taken with
  | ends hround => exact h.round.2.1 _ hround
  | fails hround => exact h.round.2.2 _ _ hround
  | again hround _ ih =>
    obtain ⟨taken', hnext⟩ := h.round.1 _ hround
    exact ih hnext

/-- What is true of settling from a state of a run on, after so many nodes have been taken off the
queue. -/
structure Run.Concludes (options : Options) (program : Expr) (taken : Nat) (r : Run) : Prop where
  loop : ∃ rounds ≤ options.stepLimit - taken + 1,
    Loops (RunM.round (TypingM.typerWithin options.depthLimit) options) r rounds
      (RunM.settle (TypingM.typerWithin options.depthLimit) options r)
  outcome : Outcome options program
    (RunM.settle (TypingM.typerWithin options.depthLimit) options r)
  /-- While a node has changed, a run without any budget left stops with an internal error. -/
  exhausted : taken = options.stepLimit → r.graph.queue ≠ [] →
    ∃ r', RunM.settle (TypingM.typerWithin options.depthLimit) options r =
      .error (.failed (.fault (.stepLimit options.stepLimit))) r'

/-- Without a budget, the first node of the queue is one too many. -/
theorem settle_exhausted (hbudget : r.graph.budget = 0) (hqueue : r.graph.queue ≠ []) :
    ∃ r', RunM.settle typer options r =
      .error (.failed (.fault (.stepLimit r.graph.limit))) r' := by
  obtain ⟨n, rest, hrest⟩ := List.exists_cons_of_ne_nil hqueue
  have hpropagate : Store.propagate r.store = .error (.fault (.stepLimit r.graph.limit))
      ⟨r.store.catalog, { r.store.graph with queue := rest }⟩ := by
    show Store.drain r.graph.budget r.store [] = _
    rw [hbudget, Store.drain, show r.store.graph.queue = n :: rest from hrest]
    rfl
  have hround := onStore_error.mpr ⟨_, _, hpropagate, rfl, rfl⟩
  have hsettle : RunM.settleWithin typer options (r.graph.budget + 1) r =
      .error (.failed (.fault (.stepLimit r.graph.limit))) _ := bind_error.mpr (.inl hround)
  exact ⟨_, hsettle⟩

theorem Attains.concludes (h : Attains options program taken (some []) r) :
    r.Concludes options program taken := by
  obtain ⟨hcounted, hproceeding⟩ := h.counted
  have hbudget : r.graph.budget = options.stepLimit - taken := by
    have := hcounted.budget
    omega
  obtain ⟨rounds, hle, hloops⟩ := loops_settle (edits_typerWithin options.depthLimit) options r
  refine ⟨⟨rounds, hbudget ▸ hle, hloops⟩, h.outcome hloops, fun htaken hqueue => ?_⟩
  rw [← (hproceeding [] rfl).settling.limit]
  exact settle_exhausted (by omega) hqueue

/-- Settling ends within the budget. From any run on, with any bound on nested bodies, the loop of
rounds ends after at most one round more than the budget allows nodes, in what settling gives: each
round of propagation uses up the budget by the nodes that it takes off the queue, of which there is
one if anything is woken. In every state of a run of a program, the budget is what the nodes taken
so far leave of the step limit, and no more types have been superseded on a node than allowed. So a
run gets quiet, stops at one of the limits, which is an internal error, or at a call that it
resolves again. -/
theorem settling_ends :
    (∀ depth options r,
      (∃ rounds ≤ r.graph.budget + 1,
        Loops (RunM.round (TypingM.typerWithin depth) options) r rounds
          (RunM.settle (TypingM.typerWithin depth) options r)) ∧
      ∀ rounds result, Loops (RunM.round (TypingM.typerWithin depth) options) r rounds result →
        rounds ≤ r.graph.budget + 1 ∧
          result = RunM.settle (TypingM.typerWithin depth) options r) ∧
    (∀ (s s' : Store) wakes, Store.propagate s = .ok wakes s' →
      s'.graph.budget + s.visited.length = s.graph.budget ∧ (wakes ≠ [] → s.visited ≠ [])) ∧
    ∀ options program taken waiting r, Attains options program taken waiting r →
      r.graph.budget + taken = options.stepLimit ∧
      (∀ holder, (r.catalog.superseded holder).card ≤ options.generationLimit) ∧
      (waiting = some [] → r.Concludes options program taken) := by
  refine ⟨fun depth options r => ?_, fun s s' wakes h => ?_,
    fun options program taken waiting r h => ?_⟩
  · obtain ⟨rounds, hle, hloops⟩ := loops_settle (edits_typerWithin depth) options r
    refine ⟨⟨rounds, hle, hloops⟩, fun rounds' result hloops' => ?_⟩
    obtain ⟨rfl, rfl⟩ := hloops'.unique hloops
    exact ⟨hle, rfl⟩
  · have hspent := Store.budget_propagate s
    rw [h] at hspent
    exact ⟨hspent, Store.visited_of_wakes h⟩
  · obtain ⟨hcounted, -⟩ := h.counted
    refine ⟨hcounted.budget, hcounted.superseded, ?_⟩
    rintro rfl
    exact h.concludes

/-- The run of a program that settles comes through the state that it settles in. -/
theorem Settles.attains {n : Node} (h : Settles program options n r) :
    ∃ taken, Attains options program taken (some []) r := by
  obtain ⟨_, c, hdeclare, hrun⟩ := h
  obtain ⟨_, r₁, htype, hrest⟩ := bind_ok.mp hrun
  obtain ⟨_, r₂, hsettled, hpure⟩ := bind_ok.mp hrest
  obtain ⟨-, rfl⟩ := pure_ok.mp hpure
  have houtcome := (Attains.typed hdeclare htype).concludes.outcome
  rw [hsettled] at houtcome
  cases houtcome with
  | quiet hr _ => exact ⟨_, hr⟩

theorem relisted_counts : (settledRun relisted ⟨100, 5, 8, 5⟩).any (fun (_, r) =>
    (List.range r.graph.size).any fun i => (r.catalog.superseded ⟨i⟩).card == 1) = true := by
  decide +kernel

/-- A list gets an element of another type, so one type is superseded on its node. -/
theorem settling_ends_relisted : ∃ taken r holder,
    Attains ⟨100, 5, 8, 5⟩ relisted taken (some []) r ∧ (r.catalog.superseded holder).card = 1 ∧
      r.graph.budget + taken = 100 ∧ r.Concludes ⟨100, 5, 8, 5⟩ relisted taken := by
  obtain ⟨⟨n, r⟩, hsettled, hany⟩ := Option.any_eq_true _ _ |>.mp relisted_counts
  obtain ⟨i, -, hone⟩ := List.any_eq_true.mp hany
  obtain ⟨taken, hattains⟩ := (settles_of_settledRun hsettled).attains
  obtain ⟨hbudget, -, hconcludes⟩ := settling_ends.2.2 _ _ _ _ _ hattains
  exact ⟨taken, r, ⟨i⟩, hattains, beq_iff_eq.mp hone, hbudget, hconcludes rfl⟩

end FlowTyping
