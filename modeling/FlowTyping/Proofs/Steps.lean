/-
  Steps with state and errors

  What follows from a step that gives a result, or from one that fails: what the
  steps that it consists of gave. These let a proof take a step apart in the
  order in which it runs.

  A discipline is an invariant of states together with a relation from a state
  to later ones, what errors may say and what may be entered on the way.
  `Discipline.Keeps` says that a step follows it, with rules for the ways in
  which steps are put together.
-/
namespace FlowTyping.Steps

variable {ε σ α β : Type} {s s' : σ}

theorem bind_ok {x : EStateM ε σ α} {f : α → EStateM ε σ β} {b : β} :
    (x >>= f) s = .ok b s' ↔ ∃ a t, x s = .ok a t ∧ f a t = .ok b s' := by
  show EStateM.bind x f s = .ok b s' ↔ _
  unfold EStateM.bind
  cases x s with
  | ok a t =>
    refine ⟨fun h => ⟨a, t, rfl, h⟩, ?_⟩
    rintro ⟨_, _, h, hf⟩
    cases h
    exact hf
  | error e t => simp

theorem pure_ok {a b : α} : (pure a : EStateM ε σ α) s = .ok b s' ↔ a = b ∧ s = s' := by
  show EStateM.Result.ok a s = .ok b s' ↔ _
  simp

theorem get_bind_ok {f : σ → EStateM ε σ β} {b : β} :
    ((get : EStateM ε σ σ) >>= f) s = .ok b s' ↔ f s s = .ok b s' :=
  Iff.rfl

theorem modify_ok {f : σ → σ} {u : PUnit} :
    (modify f : EStateM ε σ PUnit) s = .ok u s' ↔ f s = s' := by
  show EStateM.Result.ok PUnit.unit (f s) = .ok u s' ↔ _
  simp

theorem modifyGet_ok {f : σ → α × σ} {a : α} :
    (modifyGet f : EStateM ε σ α) s = .ok a s' ↔ (f s).1 = a ∧ (f s).2 = s' := by
  show EStateM.Result.ok (f s).1 (f s).2 = .ok a s' ↔ _
  simp

theorem throw_ok {e : ε} {a : α} : (throw e : EStateM ε σ α) s = .ok a s' ↔ False := by
  show EStateM.Result.error e s = .ok a s' ↔ _
  simp

theorem discard_ok {x : EStateM ε σ α} {u : PUnit} :
    (discard x) s = .ok u s' ↔ ∃ a, x s = .ok a s' := by
  show (Functor.mapConst PUnit.unit x) s = .ok u s' ↔ _
  show EStateM.map _ x s = .ok u s' ↔ _
  unfold EStateM.map
  cases x s with
  | ok a t => simp
  | error e t => simp

theorem functor_map_eq {x : EStateM ε σ α} {f : α → β} : (f <$> x) s = EStateM.map f x s := rfl

theorem functor_map_ok {x : EStateM ε σ α} {f : α → β} {b : β} :
    (f <$> x) s = .ok b s' ↔ ∃ a, x s = .ok a s' ∧ f a = b := by
  rw [functor_map_eq]
  unfold EStateM.map
  cases x s with
  | ok a t =>
    refine ⟨fun h => ?_, ?_⟩
    · cases h
      exact ⟨a, rfl, rfl⟩
    · rintro ⟨_, h, rfl⟩
      cases h
      rfl
  | error e t => simp

theorem bind_error {x : EStateM ε σ α} {f : α → EStateM ε σ β} {e : ε} :
    (x >>= f) s = .error e s' ↔
      x s = .error e s' ∨ ∃ a t, x s = .ok a t ∧ f a t = .error e s' := by
  show EStateM.bind x f s = .error e s' ↔ _
  unfold EStateM.bind
  cases x s with
  | ok a t =>
    refine ⟨fun h => .inr ⟨a, t, rfl, h⟩, ?_⟩
    rintro (h | ⟨_, _, h, hf⟩)
    · cases h
    · cases h
      exact hf
  | error e' t => simp

theorem throw_error {e e' : ε} :
    (throw e : EStateM ε σ α) s = .error e' s' ↔ e = e' ∧ s = s' := by
  show EStateM.Result.error e s = .error e' s' ↔ _
  simp

theorem bind_eq {x : EStateM ε σ α} {f : α → EStateM ε σ β} :
    (x >>= f) s = match x s with
      | .ok a t => f a t
      | .error e t => .error e t := rfl

theorem get_bind_eq {f : σ → EStateM ε σ β} : ((get : EStateM ε σ σ) >>= f) s = f s s := rfl

/-- The state that a step leaves, whether it gives a result or fails. -/
def left : EStateM.Result ε σ α → σ
  | .ok _ s => s
  | .error _ s => s

/-- What each part of a step says of the state that it leaves, the step says. -/
theorem left_bind {P : σ → Prop} {x : EStateM ε σ α} {f : α → EStateM ε σ β} (hx : P (left (x s)))
    (hf : ∀ a t, x s = .ok a t → P t → P (left (f a t))) : P (left ((x >>= f) s)) := by
  rw [bind_eq]
  cases hact : x s with
  | error e t =>
    rw [hact] at hx
    exact hx
  | ok a t =>
    rw [hact] at hx
    exact hf a t hact hx

theorem map_ok {f : α → β} {x : Except ε α} {b : β} :
    x.map f = .ok b ↔ ∃ a, x = .ok a ∧ f a = b := by
  cases x with
  | ok a => simp [Except.map]
  | error e => simp [Except.map]

theorem map_error {f : α → β} {x : Except ε α} {e : ε} : x.map f = .error e ↔ x = .error e := by
  cases x with
  | ok a => simp [Except.map]
  | error e => simp [Except.map]

/-- Each result of a list of tries that all succeeded is the result of one of them. -/
theorem mem_of_mapM_ok {f : α → Except ε β} {as : List α} {bs : List β}
    (h : as.mapM f = .ok bs) : ∀ b ∈ bs, ∃ a ∈ as, f a = .ok b := by
  induction as generalizing bs with
  | nil =>
    cases h
    exact fun b hb => by cases hb
  | cons a as ih =>
    rw [List.mapM_cons] at h
    cases ha : f a with
    | error e => rw [ha] at h; cases h
    | ok b =>
      rw [ha] at h
      cases has : as.mapM f with
      | error e => rw [has] at h; cases h
      | ok rest =>
        rw [has] at h
        cases h
        intro b' hb'
        rcases List.mem_cons.mp hb' with rfl | hb'
        · exact ⟨a, List.mem_cons_self, ha⟩
        · obtain ⟨a', ha', heq⟩ := ih has b' hb'
          exact ⟨a', List.mem_cons_of_mem _ ha', heq⟩

/-- The error of a list of tries is the error of one of them. -/
theorem mem_of_mapM_error {f : α → Except ε β} {as : List α} {e : ε}
    (h : as.mapM f = .error e) : ∃ a ∈ as, f a = .error e := by
  induction as with
  | nil => cases h
  | cons a as ih =>
    rw [List.mapM_cons] at h
    cases ha : f a with
    | error e' =>
      rw [ha] at h
      cases h
      exact ⟨a, List.mem_cons_self, ha⟩
    | ok b =>
      rw [ha] at h
      cases has : as.mapM f with
      | ok rest => rw [has] at h; cases h
      | error e' =>
        rw [has] at h
        cases h
        obtain ⟨a', ha', heq⟩ := ih has
        exact ⟨a', List.mem_cons_of_mem _ ha', heq⟩

end FlowTyping.Steps

namespace FlowTyping

open Steps

/-- An invariant of states, how a state relates to those that come after it, and what an error says
of the state in which a step began and of the one that it leaves. `Enters` relates these two states
whether the step fails or not. -/
structure Discipline (ε σ : Type) where
  Good : σ → Prop
  Leads : σ → σ → Prop
  Fails : σ → ε → σ → Prop
  Enters : σ → σ → Prop
  refl : ∀ s, Good s → Leads s s
  trans : ∀ s t u, Leads s t → Leads t u → Leads s u
  fails : ∀ s t e u, Leads s t → Fails t e u → Fails s e u
  entersNothing : ∀ s, Enters s s
  entersMore : ∀ s t u, Enters s t → Enters t u → Enters s u

namespace Discipline

variable {ε σ α β : Type} {D : Discipline ε σ} {s : σ}

/-- What a step does that begins in a good state. If it gives a result, the state after it is good,
is led to, and is as `post` says. If it fails, the error is as it may be. -/
structure Follows (D : Discipline ε σ) (s : σ) (act : EStateM ε σ α) (post : α → σ → Prop) :
    Prop where
  ok : ∀ a s', act s = .ok a s' → D.Good s' ∧ D.Leads s s' ∧ post a s'
  error : ∀ e s', act s = .error e s' → D.Fails s e s'
  enters : D.Enters s (left (act s))

/-- A step follows the discipline. -/
def Keeps (D : Discipline ε σ) (s : σ) (act : EStateM ε σ α) (post : α → σ → Prop) : Prop :=
  D.Good s → D.Follows s act post

namespace Keeps

variable {act : EStateM ε σ α} {post mid : α → σ → Prop}

/-- The invariant may be used from the start. -/
theorem of_good (h : D.Good s → D.Keeps s act post) : D.Keeps s act post := fun hs => h hs hs

/-- Another step that does the same in this state. -/
theorem of_eq {act' : EStateM ε σ α} (h : D.Keeps s act' post) (heq : act s = act' s) :
    D.Keeps s act post := by
  intro hs
  obtain ⟨hok, herror, henters⟩ := h hs
  rw [← heq] at hok herror henters
  exact ⟨hok, herror, henters⟩

/-- A step whose result is known. -/
theorem of_ok {a : α} {s' : σ} (hact : act s = .ok a s')
    (h : D.Good s' ∧ D.Leads s s' ∧ post a s') (henters : D.Enters s s') :
    D.Keeps s act post := fun _ =>
  { ok := fun b t hok => by
      cases hact.symm.trans hok
      exact h
    error := fun e t herr => by cases hact.symm.trans herr
    enters := by rw [hact]; exact henters }

theorem pure' {a : α} (h : D.Good s → post a s) : D.Keeps s (pure a : EStateM ε σ α) post :=
  fun hs => of_ok rfl ⟨hs, D.refl s hs, h hs⟩ (D.entersNothing s) hs

theorem bind' {f : α → EStateM ε σ β} {last : β → σ → Prop} (hact : D.Keeps s act mid)
    (hf : ∀ a s', D.Good s' → D.Leads s s' → mid a s' → D.Keeps s' (f a) last) :
    D.Keeps s (act >>= f) last := by
  intro hs
  obtain ⟨hok, herror, henters⟩ := hact hs
  cases hact : act s with
  | error e s' =>
    rw [hact] at henters
    have hfails : (act >>= f) s = .error e s' := by rw [bind_eq, hact]
    refine ⟨fun b t h => ?_, fun e' t h => ?_, by rw [hfails]; exact henters⟩
    · cases hfails.symm.trans h
    · cases hfails.symm.trans h
      exact herror e s' hact
  | ok a s' =>
    rw [hact] at henters
    have hrest : (act >>= f) s = f a s' := by rw [bind_eq, hact]
    obtain ⟨hs', hl, hmid⟩ := hok a s' hact
    obtain ⟨hok', herror', henters'⟩ := hf a s' hs' hl hmid hs'
    refine ⟨fun b t h => ?_, fun e t h => ?_, ?_⟩
    · obtain ⟨ht, hl', hlast⟩ := hok' b t (hrest.symm.trans h)
      exact ⟨ht, D.trans _ _ _ hl hl', hlast⟩
    · exact D.fails _ _ _ _ hl (herror' e t (hrest.symm.trans h))
    · rw [hrest]
      exact D.entersMore _ _ _ henters henters'

/-- A value that is there already is passed on. -/
theorem pure_bind' {a : α} {f : α → EStateM ε σ β} {last : β → σ → Prop}
    (h : D.Keeps s (f a) last) : D.Keeps s ((pure a : EStateM ε σ α) >>= f) last := h

/-- A step whose result is used as it is. -/
theorem mono (hact : D.Keeps s act mid)
    (h : ∀ a s', D.Good s' → D.Leads s s' → mid a s' → post a s') : D.Keeps s act post := by
  refine fun hs => ⟨fun a s' hok => ?_, (hact hs).error, (hact hs).enters⟩
  obtain ⟨hs', hl, hmid⟩ := (hact hs).ok a s' hok
  exact ⟨hs', hl, h a s' hs' hl hmid⟩

theorem get' {f : σ → EStateM ε σ α} (h : D.Keeps s (f s) post) :
    D.Keeps s ((get : EStateM ε σ σ) >>= f) post := of_eq h rfl

theorem throw' {e : ε} (h : D.Good s → D.Fails s e s) :
    D.Keeps s (throw e : EStateM ε σ α) post := by
  refine fun hs => ⟨fun _ _ hok => (throw_ok.mp hok).elim, fun e' s' herr => ?_,
    D.entersNothing s⟩
  obtain ⟨rfl, rfl⟩ := throw_error.mp herr
  exact h hs

theorem discard' {last : PUnit → σ → Prop} (hact : D.Keeps s act mid)
    (h : ∀ a s', D.Good s' → D.Leads s s' → mid a s' → last .unit s') :
    D.Keeps s (discard act) last :=
  bind' hact fun a s' hs' hl hmid => pure' fun _ => h a s' hs' hl hmid

theorem modify' {f : σ → σ} {last : PUnit → σ → Prop}
    (h : D.Good s → D.Good (f s) ∧ D.Leads s (f s) ∧ last .unit (f s))
    (henters : D.Enters s (f s)) :
    D.Keeps s (modify f : EStateM ε σ PUnit) last :=
  fun hs => of_ok rfl (h hs) henters hs

theorem modifyGet' {f : σ → α × σ}
    (h : D.Good s → D.Good (f s).2 ∧ D.Leads s (f s).2 ∧ post (f s).1 (f s).2)
    (henters : D.Enters s (f s).2) :
    D.Keeps s (modifyGet f : EStateM ε σ α) post :=
  fun hs => of_ok rfl (h hs) henters hs

end Keeps

end Discipline

end FlowTyping
