import FlowTyping.Proofs.Flow.Limits
import FlowTyping.Proofs.Inference.Generic

/-
  What is around a call

  A call records the instances that were being typed when it was entered. When a
  woken call is resolved again, only those are being typed that are met on the
  way, and not those around the woken call. A traced run takes down which calls
  were woken, and so knows all that is around a call (`Traced.context`). In
  other respects it is what a run is (`mirrors_settleProgram`).

  A run that stops while it settles has met a limit, a mistake in the text, or a
  call that is refused. The error of a refused call has the frames around the
  call, up to those around the call that was woken last (`Traced.Explains`).
-/
namespace FlowTyping

open Catalog Steps

/-- A run with the calls that were woken, latest first, each with the number of calls that had been
entered by then. -/
structure Traced where
  run : Run
  woken : List (Site × Nat)

/-- Steps of a traced run. -/
abbrev TracedM := EStateM Halt Traced

namespace Traced

/-- Lets a step of a run be a step of a traced one. -/
def lift {α : Type} (act : RunM α) : TracedM α := fun t =>
  match act t.run with
  | .ok a run => .ok a ⟨run, t.woken⟩
  | .error halt run => .error halt ⟨run, t.woken⟩

/-- Takes down that a call is woken. -/
def note (w : Wake) (t : Traced) : Traced :=
  match w with
  | .site site => ⟨t.run, (site, t.run.sites.size) :: t.woken⟩
  | .provisional _ => t

end Traced

namespace TracedM

def wake (typer : Typer) (options : Options) (w : Wake) : TracedM Unit := do
  modify (Traced.note w)
  Traced.lift (RunM.wake typer options w)

def settleWithin (typer : Typer) (options : Options) : Nat → TracedM Unit
  | 0 => throw .tooManyRounds
  | rounds + 1 => do
    let wakes ← Traced.lift (RunM.onStore Store.propagate)
    if wakes.isEmpty then pure ()
    else
      wakes.forM (wake typer options)
      settleWithin typer options rounds

def settle (typer : Typer) (options : Options) : TracedM Unit := do
  settleWithin typer options ((← get).run.graph.budget + 1)

def settleProgram (options : Options) (program : Expr) : TracedM Node := do
  let typer := TypingM.typerWithin options.depthLimit
  let result ← Traced.lift (RunM.typeProgram typer program)
  settle typer options
  pure result

end TracedM

/-! ## A traced run is a run -/

namespace Traced

/-- A result without what was taken down. -/
def forget {α : Type} : EStateM.Result Halt Traced α → EStateM.Result Halt Run α
  | .ok a t => .ok a t.run
  | .error halt t => .error halt t.run

/-- Tracing changes nothing about a step. -/
def Mirrors {α : Type} (traced : TracedM α) (plain : RunM α) : Prop :=
  ∀ t, forget (traced t) = plain t.run

variable {α β : Type} {t t' : Traced} {typer : Typer} {options : Options}

theorem lift_ok {act : RunM α} {a : α} :
    lift act t = .ok a t' ↔ ∃ r, act t.run = .ok a r ∧ ⟨r, t.woken⟩ = t' := by
  unfold lift
  cases act t.run with
  | ok b r => simp
  | error halt r => simp

theorem lift_error {act : RunM α} {halt : Halt} :
    lift act t = .error halt t' ↔ ∃ r, act t.run = .error halt r ∧ ⟨r, t.woken⟩ = t' := by
  unfold lift
  cases act t.run with
  | ok b r => simp
  | error h r => simp

theorem left_lift (act : RunM α) : left (lift act t) = ⟨left (act t.run), t.woken⟩ := by
  unfold lift
  cases act t.run with
  | ok a r => rfl
  | error halt r => rfl

theorem mirrors_lift (act : RunM α) : Mirrors (lift act) act := by
  intro t
  unfold lift
  cases act t.run with
  | ok a r => rfl
  | error halt r => rfl

theorem mirrors_pure (a : α) : Mirrors (pure a) (pure a) := fun _ => rfl

theorem Mirrors.bind {x : TracedM α} {y : RunM α} {f : α → TracedM β} {g : α → RunM β}
    (hx : Mirrors x y) (hf : ∀ a, Mirrors (f a) (g a)) : Mirrors (x >>= f) (y >>= g) := by
  intro t
  rw [bind_eq, bind_eq, ← hx t]
  cases x t with
  | ok a t' => exact hf a t'
  | error halt t' => rfl

theorem mirrors_forM {f : α → TracedM Unit} {g : α → RunM Unit} (hf : ∀ a, Mirrors (f a) (g a))
    (as : List α) : Mirrors (as.forM f : TracedM Unit) (as.forM g : RunM Unit) := by
  induction as with
  | nil => exact mirrors_pure ()
  | cons a as ih => exact (hf a).bind fun _ => ih

theorem run_note (w : Wake) (t : Traced) : (t.note w).run = t.run := by
  cases w <;> rfl

theorem mirrors_wake (w : Wake) :
    Mirrors (TracedM.wake typer options w) (RunM.wake typer options w) := by
  intro t
  rw [← run_note w t]
  exact mirrors_lift _ (t.note w)

theorem mirrors_settleWithin (rounds : Nat) :
    Mirrors (TracedM.settleWithin typer options rounds) (RunM.settleWithin typer options rounds) := by
  induction rounds with
  | zero => exact fun _ => rfl
  | succ rounds ih =>
    refine (mirrors_lift _).bind fun wakes => ?_
    split
    · exact mirrors_pure ()
    · exact (mirrors_forM mirrors_wake wakes).bind fun _ => ih

/-- A traced run of a program does what a run does. -/
theorem mirrors_settleProgram (options : Options) (program : Expr) :
    Mirrors (TracedM.settleProgram options program) (RunM.settleProgram options program) :=
  (mirrors_lift _).bind fun result =>
    Mirrors.bind (fun t => mirrors_settleWithin (t.run.graph.budget + 1) t) fun _ =>
      mirrors_pure result

theorem Mirrors.ok {x : TracedM α} {y : RunM α} {a : α} (h : Mirrors x y) (hx : x t = .ok a t') :
    y t.run = .ok a t'.run := by
  rw [← h t, hx]
  rfl

/-- Where a run stops, so does the traced one. -/
theorem Mirrors.exists_error {x : TracedM α} {y : RunM α} {halt : Halt} {r : Run}
    (h : Mirrors x y) (hy : y t.run = .error halt r) : ∃ t', x t = .error halt t' ∧ t'.run = r := by
  have hforget := (h t).trans hy
  cases hx : x t with
  | ok a t' => rw [hx] at hforget; cases hforget
  | error halt' t' =>
    rw [hx] at hforget
    cases hforget
    exact ⟨t', rfl, rfl⟩

/-! ## Contexts -/

/-- The frames around a call from outside the resolution in which it was entered: all that is around
the call that was woken last before. -/
def around (r : Run) : List (Site × Nat) → Site → List Frame
  | [], _ => []
  | (woken, entered) :: earlier, site =>
    if entered ≤ site.index then (r.site woken).frames ++ around r earlier woken
    else around r earlier site

/-- The frames of all instances around a call, innermost first. -/
def context (t : Traced) (site : Site) : List Frame :=
  (t.run.site site).frames ++ around t.run t.woken site

/-- What is around the call that was woken last, from outside the resolution in which that was
entered. -/
def beyond (t : Traced) : List Frame :=
  match t.woken with
  | [] => []
  | (woken, _) :: earlier => around t.run earlier woken

/-- What is around a call as far as the trace goes: either it was entered at top level and there is
nothing, or it was entered in an instance that was typed for a call before it, and what is around
that one is around it too. -/
def Encloses (t : Traced) (site : Site) : Prop :=
  t.context site = [] ∨ ∃ (first : Site) (signature : String), first.index < site.index ∧
    t.context site = ⟨signature, (t.run.site first).place⟩ :: t.context first

/-- The trace fits the run, and what is around each call is as it should be. -/
structure Nested (t : Traced) : Prop where
  woken : ∀ w ∈ t.woken, w.1.index < w.2 ∧ w.2 ≤ t.run.sites.size
  encloses : ∀ site : Site, site.index < t.run.sites.size → t.Encloses site

section

variable {r : Run} {site : Site} {frames : List Frame} {resolving : Option Site}

theorem around_congr {woken : List (Site × Nat)} {r' : Run}
    (h : ∀ w ∈ woken, (r'.site w.1).frames = (r.site w.1).frames) :
    around r' woken site = around r woken site := by
  induction woken generalizing site with
  | nil => rfl
  | cons w woken ih =>
    have ih := fun s => @ih s fun v hv => h v (List.mem_cons_of_mem w hv)
    simp only [around, h w List.mem_cons_self, ih]

/-- What is around a call stays while more are entered. -/
theorem Nested.context_eq (h : t.Nested) (hnests : t.run.Nests frames resolving r)
    (hs : site.index < t.run.sites.size) :
    context ⟨r, t.woken⟩ site = t.context site := by
  unfold context
  rw [(hnests.kept site hs).1, around_congr fun w hw =>
    (hnests.kept w.1 (Nat.lt_of_lt_of_le (h.woken w hw).1 (h.woken w hw).2)).1]

/-- What is around the calls entered before stays when a call is woken. -/
theorem context_of_entered {woken : List (Site × Nat)} {w : Site} {entered : Nat}
    (hs : site.index < entered) : context ⟨r, (w, entered) :: woken⟩ site = context ⟨r, woken⟩ site := by
  unfold context
  rw [around, if_neg (Nat.not_le.mpr hs)]

/-- What holds of the calls that had been entered goes on to hold. -/
theorem Encloses.of_kept (h : t.Encloses site) (hs : site.index < t.run.sites.size)
    (hkept : ∀ s : Site, s.index < t.run.sites.size → t'.context s = t.context s ∧
      (t'.run.site s).place = (t.run.site s).place) : t'.Encloses site := by
  unfold Encloses
  rw [(hkept site hs).1]
  refine h.imp_right ?_
  rintro ⟨first, signature, hearlier, heq⟩
  obtain ⟨hcontext, hplace⟩ := hkept first (Nat.lt_trans hearlier hs)
  exact ⟨first, signature, hearlier, by rw [hcontext, hplace, heq]⟩

/-- A call that was entered in an instance that was typed for another, in the same resolution. -/
theorem encloses_of_inside {first : Site} (hearlier : first.index < site.index)
    (hsame : around t.run t.woken site = around t.run t.woken first)
    (h : t.run.Inside site first (t.run.site first).frames) : t.Encloses site := by
  obtain ⟨signature, heq⟩ := h
  refine .inr ⟨first, signature, hearlier, ?_⟩
  unfold context
  rw [heq, hsame]
  rfl

theorem Nested.of_sites (h : t.Nested) (hsites : r.sites = t.run.sites) : Nested ⟨r, t.woken⟩ := by
  have hnests : t.run.Nests [] none r := .of_sites hsites
  refine ⟨fun w hw => ?_, fun s hs => ?_⟩
  · exact ⟨(h.woken w hw).1, Nat.le_trans (h.woken w hw).2 hnests.size⟩
  · have hs : s.index < t.run.sites.size := by rwa [← hsites]
    exact (h.encloses s hs).of_kept hs fun s hs =>
      ⟨h.context_eq hnests hs, (hnests.kept s hs).2⟩

/-- The calls of the program itself. -/
theorem nested_of_typed {r₀ : Run} (hempty : r₀.sites.size = 0) (h : r₀.Nests [] none r) :
    Nested ⟨r, []⟩ := by
  refine ⟨(fun w hw => by cases hw), fun s hs => ?_⟩
  rcases h.inside s (by omega) hs with ⟨-, heq⟩ | ⟨first, hnone, -⟩ | ⟨first, -, hearlier, hin⟩
  · exact .inl (congrArg (· ++ []) heq)
  · cases hnone
  · exact encloses_of_inside hearlier rfl hin

/-- The calls that are entered while a woken one is resolved. -/
theorem Nested.of_woken (h : t.Nested) (hsite : site.index < t.run.sites.size)
    (hnests : t.run.Nests [] (some site) r) :
    Nested ⟨r, (site, t.run.sites.size) :: t.woken⟩ := by
  refine ⟨fun w hw => ?_, fun s hs => ?_⟩
  · rcases List.mem_cons.mp hw with rfl | hw
    · exact ⟨hsite, hnests.size⟩
    · exact ⟨(h.woken w hw).1, Nat.le_trans (h.woken w hw).2 hnests.size⟩
  · rcases Nat.lt_or_ge s.index t.run.sites.size with hold | hnew
    · exact (h.encloses s hold).of_kept hold fun s hs =>
        ⟨(context_of_entered hs).trans (h.context_eq hnests hs), (hnests.kept s hs).2⟩
    · rcases hnests.inside s hnew hs with ⟨hnone, -⟩ | ⟨first, hfirst, -, signature, heq⟩ |
        ⟨first, hlater, hearlier, hin⟩
      · cases hnone
      · -- directly in an instance that is typed for the woken call
        cases hfirst
        refine .inr ⟨site, signature, Nat.lt_of_lt_of_le hsite hnew, ?_⟩
        rw [context_of_entered hsite]
        unfold context
        rw [heq, around, if_pos hnew]
        rfl
      · refine encloses_of_inside hearlier ?_ hin
        simp only [around, if_pos hnew, if_pos hlater]

end

/-! ## Why a run stops -/

end Traced

/-- A limit that stops a run. -/
inductive Options.Exceeded (options : Options) : TypingError → Prop
  | steps : options.Exceeded (.fault (.stepLimit options.stepLimit))
  | generations (shown : String) :
      options.Exceeded (.fault (.generationLimit shown options.generationLimit))

namespace Traced

/-- Why a run stops while it settles. -/
inductive Explains (options : Options) (t : Traced) : TypingError → Prop
  /-- A call is refused. -/
  | refused {e : TypingError} (site : Site) (frames : List Frame)
      (hsite : site.index < t.run.sites.size)
      (hrefuses : t.run.Refuses site e)
      (hcontext : t.context site = frames ++ t.beyond) : t.Explains options (e.within frames)
  | mistaken {e : TypingError} (frames : List Frame) (h : Mistake e) :
      t.Explains options (e.within frames)
  | exceeded {e : TypingError} (h : options.Exceeded e) : t.Explains options e

variable {options : Options} {r : Run} {site : Site} {e : TypingError}

/-- What is to blame while the program is typed explains an error. -/
theorem explains_of_typed {resolving : Option Site} {r₀ : Run} (hresolving : resolving = none)
    (h : r₀.Blames [] resolving r e) : Explains options ⟨r, []⟩ e := by
  cases h with
  | resolved site hsite => rw [hresolving] at hsite; cases hsite
  | entered site inner hnew hlt hframes hrefuses =>
    exact .refused site inner hlt hrefuses (by rw [context, hframes, around, beyond, List.append_nil])
  | text inner hmistake => exact .mistaken inner hmistake

/-- What is to blame while a woken call is resolved explains an error, once this has the frames of
the call around it. -/
theorem explains_of_woken {woken : List (Site × Nat)} {r₀ : Run} (hsite : site.index < r₀.sites.size)
    (hentered : site.index < r.sites.size) (h : r₀.Blames [] (some site) r e) :
    Explains options ⟨r, (site, r₀.sites.size) :: woken⟩ (e.within (r.site site).frames) := by
  cases h with
  | resolved other hother hrefuses =>
    cases hother
    refine .refused site _ hentered hrefuses ?_
    rw [context, around, if_neg (Nat.not_le.mpr hsite)]
    rfl
  | entered other inner hnew hlt hframes hrefuses =>
    rw [← TypingError.within_append]
    refine .refused other _ hlt hrefuses ?_
    rw [context, around, if_pos hnew, hframes, List.append_nil, List.append_assoc]
    rfl
  | text inner hmistake =>
    rw [← TypingError.within_append]
    exact .mistaken _ hmistake

end Traced

/-! ## Settling -/

/-- What holds of a run that settles, where `wakes` are still to react. -/
structure Run.Settling (options : Options) (wakes : List Wake) (r : Run) : Prop where
  sound : r.Sound (wokenCalls wakes)
  attuned : r.Attuned (Store.wokenTypes wakes)
  limit : r.graph.limit = options.stepLimit
  entered : ∀ site, .site site ∈ wakes → site.index < r.sites.size
  provisional : ∀ t, .provisional t ∈ wakes → ∃ p, r.catalog.shape t = .provisional p

variable {typer : Typer} {options : Options} {program : Expr} {r r' : Run} {w : Wake}
  {wakes : List Wake} {e : TypingError} {t t' : Traced} {u : Unit}

theorem enduring_limit (htyper : typer.Sound) :
    Enduring typer options fun wakes r =>
      r.Attuned (Store.wokenTypes wakes) ∧ r.graph.limit = options.stepLimit :=
  have hattuned : Enduring typer options fun wakes r => r.Attuned (Store.wokenTypes wakes) :=
    enduring_attuned htyper
  { propagate := fun hr h hp =>
      ⟨hattuned.propagate hr h.1 hp, (Store.propagate_limit hp).trans h.2⟩
    call := fun hr hs h hrebind =>
      ⟨hattuned.call hr hs h.1 hrebind,
        (rebindCall_ok htyper hr hs List.mem_cons_self hrebind).2.2.toGrows.works.limit.trans h.2⟩
    refresh := fun hr h hrefresh =>
      ⟨hattuned.refresh hr h.1 hrefresh, (Store.limit_refresh hrefresh).trans h.2⟩ }

namespace Run.Settling

theorem propagate (htyper : typer.Sound) (h : r.Settling options []) {s : Store}
    (hp : Store.propagate r.store = .ok wakes s) : (r.withStore s).Settling options wakes := by
  have hkept := (enduring_limit htyper).propagate h.sound ⟨h.attuned, h.limit⟩ hp
  refine ⟨(h.sound.propagated hp).1, hkept.1, hkept.2, h.sound.entered_of_woken hp, fun u hu => ?_⟩
  obtain ⟨n, v, hv, hwake⟩ := h.sound.watching_of_woken hp hu
  cases v with
  | node m => cases hwake
  | site other => cases hwake
  | provisional t =>
    cases hwake
    obtain ⟨p, hshape, -⟩ := h.attuned.kept.watching n u hv
    obtain ⟨st, hst⟩ := (h.sound.propagated hp).2.provisional hshape
    exact ⟨_, hst⟩

theorem wake (htyper : typer.Sound) (h : r.Settling options (w :: wakes))
    (hwake : RunM.wake typer options w r = .ok u r') : r'.Settling options wakes := by
  obtain ⟨hr', hretains, hattuned, hlimit⟩ := wake_ok htyper (enduring_limit htyper) h.sound
    (fun site hw => h.entered site (by rw [hw]; exact List.mem_cons_self))
    ⟨h.attuned, h.limit⟩ hwake
  refine ⟨hr', hattuned, hlimit, fun site hs => Nat.lt_of_lt_of_le
    (h.entered site (List.mem_cons_of_mem w hs)) hretains.sites, fun u hu => ?_⟩
  obtain ⟨p, hp⟩ := h.provisional u (List.mem_cons_of_mem w hu)
  obtain ⟨st, hst⟩ := hretains.provisional hp
  exact ⟨_, hst⟩

theorem wakeAll (htyper : typer.Sound) (h : r.Settling options wakes)
    (hwakes : (wakes.forM (RunM.wake typer options) : RunM Unit) r = .ok u r') :
    r'.Settling options [] := by
  induction wakes generalizing r with
  | nil =>
    obtain ⟨-, rfl⟩ := pure_ok.mp hwakes
    exact h
  | cons w wakes ih =>
    obtain ⟨_, r₁, hwake, hwakes⟩ := bind_ok.mp hwakes
    exact ih (h.wake htyper hwake) hwakes

end Run.Settling

namespace TracedM

open Traced

theorem wake_explains (htyper : typer.Sound) (h : t.run.Settling options (w :: wakes))
    (hwake : wake typer options w t = .error (.failed e) t') : t'.Explains options e := by
  rcases bind_error.mp hwake with hnote | ⟨_, t₁, hnote, hwake⟩
  · cases hnote
  obtain rfl := modify_ok.mp hnote
  obtain ⟨r, hact, rfl⟩ := Traced.lift_error.mp hwake
  rw [run_note] at hact
  cases w with
  | site site =>
    have hs := h.entered site List.mem_cons_self
    obtain ⟨e₀, hrebind, rfl⟩ := inFramesOf_failed hact
    have hnests : t.run.Nests [] (some site) (left (RunM.rebindCall typer [] site t.run)) :=
      rebindCall_nests htyper h.sound hs List.mem_cons_self
    rw [hrebind] at hnests
    exact explains_of_woken hs (Nat.lt_of_lt_of_le hs hnests.size)
      (rebindCall_stops htyper h.sound hs hrebind)
  | provisional u =>
    obtain ⟨p, hp⟩ := h.provisional u List.mem_cons_self
    obtain ⟨_, s, hrefresh, hfailed, -⟩ := onStore_error.mp hact
    cases hfailed
    obtain ⟨shown, rfl⟩ := Store.refresh_error h.sound.held hp hrefresh
    exact .exceeded (.generations shown)

theorem wakes_explains (htyper : typer.Sound) (h : t.run.Settling options wakes)
    (hwakes : (wakes.forM (wake typer options) : TracedM Unit) t = .error (.failed e) t') :
    t'.Explains options e := by
  induction wakes generalizing t with
  | nil => cases hwakes
  | cons w wakes ih =>
    rcases bind_error.mp hwakes with hwake | ⟨_, t₁, hwake, hwakes⟩
    · exact wake_explains htyper h hwake
    · exact ih (h.wake htyper ((mirrors_wake w).ok hwake)) hwakes

theorem settleWithin_explains (htyper : typer.Sound) {rounds : Nat} (h : t.run.Settling options [])
    (hsettle : settleWithin typer options rounds t = .error (.failed e) t') :
    t'.Explains options e := by
  induction rounds generalizing t with
  | zero => cases hsettle
  | succ rounds ih =>
    rcases bind_error.mp hsettle with hround | ⟨wakes, t₁, hround, hsettle⟩
    · obtain ⟨r, hact, rfl⟩ := Traced.lift_error.mp hround
      obtain ⟨_, s, hpropagate, hfailed, -⟩ := onStore_error.mp hact
      cases hfailed
      rw [Store.propagate_error hpropagate, show t.run.store.graph.limit = _ from h.limit]
      exact .exceeded .steps
    · obtain ⟨r, hact, rfl⟩ := Traced.lift_ok.mp hround
      obtain ⟨s, hpropagate, rfl⟩ := onStore_ok.mp hact
      have h₁ := h.propagate htyper hpropagate
      split at hsettle
      · cases hsettle
      · rcases bind_error.mp hsettle with hwakes | ⟨_, t₂, hwakes, hsettle⟩
        · exact wakes_explains htyper h₁ hwakes
        · exact ih (h₁.wakeAll htyper ((mirrors_forM mirrors_wake wakes).ok hwakes)) hsettle

/-! ## What is around calls while a run settles -/

theorem wake_nested (htyper : typer.Sound) (h : t.run.Settling options (w :: wakes))
    (hn : t.Nested) : (left (wake typer options w t)).Nested := by
  rw [show wake typer options w t = Traced.lift (RunM.wake typer options w) (t.note w) from rfl,
    left_lift, run_note]
  cases w with
  | site site =>
    have hs := h.entered site List.mem_cons_self
    have hnests : t.run.Nests [] (some site) (left (RunM.rebindCall typer [] site t.run)) :=
      rebindCall_nests htyper h.sound hs List.mem_cons_self
    rw [← left_inFramesOf site] at hnests
    exact hn.of_woken hs hnests
  | provisional u => exact hn.of_sites (sites_left_onStore _)

theorem wakes_nested (htyper : typer.Sound) (h : t.run.Settling options wakes) (hn : t.Nested) :
    (left ((wakes.forM (wake typer options) : TracedM Unit) t)).Nested := by
  induction wakes generalizing t with
  | nil => exact hn
  | cons w wakes ih =>
    exact left_bind (wake_nested htyper h hn) fun _ _ hwake hn₁ =>
      ih (h.wake htyper ((mirrors_wake w).ok hwake)) hn₁

theorem settleWithin_nested (htyper : typer.Sound) {rounds : Nat}
    (h : t.run.Settling options []) (hn : t.Nested) :
    (left (settleWithin typer options rounds t)).Nested := by
  induction rounds generalizing t with
  | zero => exact hn
  | succ rounds ih =>
    have hround : (left (Traced.lift (RunM.onStore Store.propagate) t)).Nested := by
      rw [left_lift]
      exact hn.of_sites (sites_left_onStore _)
    refine left_bind hround fun wakes t₁ hround hn₁ => ?_
    obtain ⟨r, hact, rfl⟩ := Traced.lift_ok.mp hround
    obtain ⟨s, hpropagate, rfl⟩ := onStore_ok.mp hact
    have h₁ := h.propagate htyper hpropagate
    split
    · exact hn₁
    · exact left_bind (wakes_nested htyper h₁ hn₁) fun _ t₂ hwakes hn₂ =>
        ih (h₁.wakeAll htyper ((mirrors_forM mirrors_wake wakes).ok hwakes)) hn₂

/-! ## Programs -/

/-- A run settles once the program has been typed. -/
theorem settling_of_typeProgram {c : Catalog} {n : Node} (hdeclared : seeded.Declares c)
    (h : RunM.typeProgram (TypingM.typerWithin options.depthLimit) program (.start c options) =
      .ok n r) : r.Settling options [] := by
  have hstart := Run.Sound.start hdeclared options
  obtain ⟨hr, hl, -⟩ :=
    (keeps_typeProgram (typerWithin_sound options.depthLimit) program hstart).ok _ _ h
  exact {
    sound := hr
    attuned := (Run.attuned_start hdeclared options).works hstart hl.toGrows
    limit := hl.toGrows.works.limit
    entered := fun _ hw => by cases hw
    provisional := fun _ hw => by cases hw }

/-- What is around the calls of a run that types a program and settles, whether it comes to an end
or stops. -/
theorem settleProgram_nested {c : Catalog} (hdeclared : seeded.Declares c) :
    (left (settleProgram options program ⟨.start c options, []⟩)).Nested := by
  have htyper := typerWithin_sound options.depthLimit
  have htyped : (left (Traced.lift (RunM.typeProgram (TypingM.typerWithin options.depthLimit)
      program) ⟨.start c options, []⟩)).Nested := by
    rw [left_lift]
    exact nested_of_typed rfl (keeps_typeProgram htyper program (.start hdeclared options)).enters
  refine left_bind htyped fun n t₁ hlift hn₁ => ?_
  obtain ⟨r, htype, rfl⟩ := Traced.lift_ok.mp hlift
  exact left_bind (settleWithin_nested htyper (settling_of_typeProgram hdeclared htype) hn₁)
    fun _ _ _ hn₂ => hn₂

/-- Why a run stops that types a program and settles. -/
theorem settleProgram_explains {c : Catalog} (hdeclared : seeded.Declares c)
    (h : settleProgram options program ⟨.start c options, []⟩ = .error (.failed e) t) :
    t.Explains options e := by
  have htyper := typerWithin_sound options.depthLimit
  rcases bind_error.mp h with htype | ⟨n, t₁, htype, h⟩
  · obtain ⟨r, hact, rfl⟩ := Traced.lift_error.mp htype
    exact explains_of_typed rfl
      ((keeps_typeProgram htyper program (.start hdeclared options)).error _ _ hact)
  · obtain ⟨r, hact, rfl⟩ := Traced.lift_ok.mp htype
    have hsettling := settling_of_typeProgram hdeclared hact
    rcases bind_error.mp h with hsettle | ⟨_, t₂, -, h⟩
    · exact settleWithin_explains (t := ⟨r, []⟩) htyper hsettling hsettle
    · cases h

end TracedM

end FlowTyping
