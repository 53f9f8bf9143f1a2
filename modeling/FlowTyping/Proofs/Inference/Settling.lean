import FlowTyping.Proofs.Flow.Propagation
import FlowTyping.Proofs.Inference.Declare
import FlowTyping.Proofs.Inference.Typing

/-
  Settling

  Propagation changes types that calls and provisional types watch. The calls
  that it wakes are due, and all others have seen no change (`Sound.propagated`).
  Each wake does away with one that is due, so a run that settles is sound with
  nothing due and with no dirty node (`settle_ok`).
-/
namespace FlowTyping

open Catalog

namespace Catalog

variable {c : Catalog} {t : Ty}

/-- A generic type is a template where nothing is a copy. -/
theorem template_of_isGeneric (hc : c.Elementary) (h : c.isGeneric t = true) : c.Template t := by
  unfold isGeneric at h
  split at h
  · next o ho => exact ⟨o, ho, h, hc.template_eq_none ho⟩
  · cases h

/-- Declarations enter no provisional types. -/
theorem Declares.shape_ne_provisional (h : seeded.Declares c) (t : Ty) (p : Provisional) :
    c.shape t ≠ .provisional p := fun hp => by
  have := h.plain elementary_seeded.plain t
  rw [hp] at this
  cases this

end Catalog

namespace Store

/-- Propagation enters no provisional type and leaves those that are there as they are. -/
theorem propagate_steady {s s' : Store} {wakes : List Wake} (h : propagate s = .ok wakes s') :
    s.catalog.Steady s'.catalog :=
  drain_keeps (fun t => s.catalog.Steady t.catalog)
    (fun t n ht => by rw [catalog_recompute]; exact ht.trans (combine_steady _ _ _))
    (fun _ _ _ _ _ ht => ht) (.refl _) h

end Store

namespace Run

variable {r r' : Run} {due : List Task}

/-! ## The beginning -/

/-- A run starts sound on the declarations of a program. -/
theorem Sound.start {c : Catalog} (hdeclared : seeded.Declares c) (options : Options) :
    (Run.start c options).Sound [] := by
  have hnone : ∀ t p, c.shape t ≠ .provisional p := hdeclared.shape_ne_provisional
  have hplays : ∀ n a, ¬ (Run.start c options).Plays n a := by
    rintro n (site | t | -) h
    · exact Nat.not_lt_zero _ h.1
    · cases h
    · rcases h with ⟨key, h⟩ | ⟨t, p, h, -⟩
      · cases h
      · exact hnone t p h
  have hcell : ∀ n, (Graph.empty options.stepLimit).cell n = default := fun n =>
    Graph.cell_of_size_le (Nat.zero_le _)
  refine ⟨Store.sound_start hdeclared.sound _, fun n => .inl (Store.solved_of_no_dependencies ?_),
    fun t p hp => (hnone t p hp).elim, fun n a _ ha => (hplays n a ha).elim,
    fun n a ha => (hplays n a ha).elim, fun site hs => (Nat.not_lt_zero _ hs).elim,
    (fun _ _ h => by cases h), (fun _ _ h => by cases h), fun i hi => ?_,
    (fun _ _ h => by cases h), (fun _ _ h => by cases h),
    fun site hs => (Nat.not_lt_zero _ hs).elim, (fun _ _ h => by cases h), (fun _ _ h => by cases h),
    fun n site h => ?_, List.nodup_nil, hdeclared.callable callable_seeded,
    hdeclared.grows.template (template_of_isGeneric elementary_seeded (by decide +kernel))⟩
  · exact congrArg Cell.dependencies (hcell n)
  · exact absurd hi (Array.not_mem_empty i)
  · have h : .site site ∈ ((Graph.empty options.stepLimit).cell n).watchers := h
    rw [hcell] at h
    cases h

/-! ## Another store -/

/-- A run keeps sound with another store in which every node has the role that it had. -/
theorem Sound.restore (hr : r.Sound due) {store : Store} {due' : List Task}
    (hretains : r.Retains (r.withStore store)) (hsound : store.Sound)
    (hbalanced : store.Balanced []) (hheld : store.Held)
    (hplays : ∀ n a, (r.withStore store).Plays n a ↔ r.Plays n a)
    (hkind : ∀ n, r.Valid n → (store.graph.cell n).kind = (r.graph.cell n).kind)
    (hdependencies : ∀ n, r.Valid n → store.graph.dependencies n = r.graph.dependencies n)
    (hshared : ∀ t n, r.sharedNodes.get? t = some n → store.graph.typeAt n = r.graph.typeAt n)
    (hattended : ∀ site : Site, site.index < r.sites.size →
      (r.withStore store).Attended site ∨ .call site ∈ due')
    (hdue : due ⊆ due') : (r.withStore store).Sound due' := by
  have hbind : ∀ n, r.Bindable n → (r.withStore store).Bindable n := fun n hn =>
    ⟨hretains.valid hn.valid, (hkind n hn.valid).trans hn.plain,
      fun a hp => hn.free a ((hplays n a).mp hp)⟩
  have hnothing : Enters due' r (r.withStore store) :=
    hretains.entersNothing hr rfl rfl rfl rfl rfl rfl
  refine hretains.sound hr hnothing hdue hsound hbalanced hheld
    (fun n a b ha hb => hr.roles n a b ((hplays n a).mp ha) ((hplays n b).mp hb))
    (fun n a ha => ?_) hbind hattended
  have ha₀ := (hplays n a).mp ha
  obtain ⟨hv, hf⟩ := hr.played n a ha₀
  refine ⟨hretains.valid hv, ?_⟩
  have hdeps := hdependencies n hv
  cases a with
  | result site =>
    refine ⟨(hkind n hv).trans hf.1, fun d => ?_⟩
    show d ∈ store.graph.dependencies n ↔ d ∈ (r.site site).targets
    rw [hdeps]
    exact hf.2 d
  | shared t =>
    exact ⟨hretains.definite hf.1, (hshared t n ha₀).trans hf.2.1, hdeps.trans hf.2.2⟩
  | value => exact hdeps.trans hf

/-! ## Propagation -/

end Run

/-- The calls that are woken. -/
def wokenCalls (wakes : List Wake) : List Task :=
  wakes.filterMap fun
    | .site site => some (.call site)
    | .provisional _ => none

theorem mem_wokenCalls {wakes : List Wake} {site : Site} :
    .call site ∈ wokenCalls wakes ↔ .site site ∈ wakes := by
  unfold wokenCalls
  rw [List.mem_filterMap]
  constructor
  · rintro ⟨w, hw, heq⟩
    cases w with
    | site s => cases heq; exact hw
    | provisional t => cases heq
  · exact fun h => ⟨_, h, rfl⟩

namespace Run

variable {r r' : Run} {due : List Task}

/-- A round of propagation: the calls that are not woken have seen no change. -/
theorem Sound.propagated (hr : r.Sound []) {s : Store} {wakes : List Wake}
    (h : Store.propagate r.store = .ok wakes s) :
    (r.withStore s).Sound (wokenCalls wakes) ∧ r.Retains (r.withStore s) := by
  have hp := Store.propagate_ok hr.store.formed hr.balanced h
  have hsteady := Store.propagate_steady h
  have hretains : r.Retains (r.withStore s) := ⟨hp.flows.catalog, Nat.le_of_eq hp.flows.size.symm,
    fun n site hw => by
      rw [show (r.withStore s).graph = s.graph from rfl, hp.flows.watchers]
      exact hw,
    fun n site hw => .inl (hp.flows.watchers n ▸ hw), Nat.le_refl _, fun _ _ => ⟨_, rfl⟩,
    fun _ _ h => h, fun _ _ h => h, fun _ _ h => h, fun _ _ h => h, fun _ _ h => .inl h⟩
  have hheld : s.Held := by
    intro t p hp'
    have hp₀ := hsteady t p hp'
    refine (hr.held t p hp₀).keep hr.store hp.flows.catalog
      (hp.flows.held _ (hr.kept hp₀).2.2) fun u q v hq hv => ?_
    exact ⟨q.standing, (hsteady.provisional_iff hp.flows.catalog.toGrows).mpr hq, hv⟩
  refine ⟨hr.restore hretains (hr.store.propagate h) hp.balanced hheld
    (plays_withStore hsteady hp.flows.catalog.toGrows) (fun n _ => hp.flows.kind n)
    (fun n _ => hp.flows.dependencies n)
    (fun t n hn => hp.flows.held n (hr.played n (.shared t) hn).2.2.2) (fun site hs => ?_)
    (fun task htask => by cases htask), hretains⟩
  rw [mem_wokenCalls]
  by_cases hwoken : .site site ∈ wakes
  · exact .inr hwoken
  · -- a call that was not woken watches only nodes that were not dirty and keep their types
    left
    have hunseen : ∀ n ∈ (r.site site).watched,
        r.graph.dirtyAt n = false ∧ s.graph.typeAt n = r.graph.typeAt n := fun n hn =>
      hp.unseen n _ ((hr.sites site hs).watched n hn).2 (.site site) rfl hwoken
    rcases (hr.attended site hs).resolve_right (fun h => by cases h) with ⟨c, hc⟩ | ⟨n, hn, hd⟩
    · exact .inl ⟨c, hretains.resolvedIn hr.store hs rfl (fun n hn => (hunseen n hn).2) hc⟩
    · rw [(hunseen n hn).1] at hd
      cases hd

/-- What is woken watches a node. -/
theorem Sound.watching_of_woken (hr : r.Sound []) {s : Store} {wakes : List Wake} {w : Wake}
    (h : Store.propagate r.store = .ok wakes s) (hw : w ∈ wakes) :
    ∃ n, ∃ v ∈ (r.graph.cell n).watchers, v.wake? = some w :=
  ((Store.propagate_ok hr.store.formed hr.balanced h).origin w hw).resolve_left fun h => by cases h

/-- Only calls that were entered are woken. -/
theorem Sound.entered_of_woken (hr : r.Sound []) {s : Store} {wakes : List Wake}
    (h : Store.propagate r.store = .ok wakes s) (site : Site) (hw : .site site ∈ wakes) :
    site.index < r.sites.size := by
  obtain ⟨n, v, hv, hwake⟩ := hr.watching_of_woken h hw
  cases v with
  | site other =>
    cases hwake
    exact hr.watching n site hv
  | node m => cases hwake
  | provisional t => cases hwake

/-- A provisional type reacts. -/
theorem Sound.refreshed (hr : r.Sound due) {t : Ty} {limit : Nat} {u : Unit} {s : Store}
    (h : Store.refresh t limit r.store = .ok u s) :
    (r.withStore s).Sound due ∧ r.Retains (r.withStore s) := by
  obtain ⟨hheld, hcontinues, hdeps, ha⟩ := hr.held.refresh hr.store hr.balanced
    (fun t p hp => (hr.kept hp).2) h
  have hgrows : r.Grows (r.withStore s) := .of_store (ha.weaken fun _ _ => trivial)
    (.single (.refresh h)) (.refresh h) (Nat.le_refl _) (fun _ _ => ⟨_, rfl⟩) (fun _ _ h => h)
    (fun _ _ h => h) (fun _ _ h => h) (fun _ _ h => h) fun _ _ h => .inl h
  refine ⟨hr.restore hgrows.toRetains ha.sound ha.balanced hheld (fun n a => ?_) ha.kind
    (fun n _ => hdeps n) (fun t n hn => ?_)
    (fun site hs => (hr.attended site hs).imp_left
      (hgrows.attended hr.store hs (hr.sites site hs) rfl)) fun _ h => h, hgrows.toRetains⟩
  · cases a with
    | result site => exact Iff.rfl
    | shared t => exact Iff.rfl
    | value =>
      refine or_congr Iff.rfl ⟨fun ⟨t, p, hp, hholder⟩ => ?_, fun ⟨t, p, hp, hholder⟩ => ?_⟩
      · obtain ⟨t', p', hp', hsame, -⟩ := hcontinues t p hp
        exact ⟨t', p', hp', hsame.trans hholder⟩
      · obtain ⟨st, hst⟩ := hgrows.provisional hp
        exact ⟨t, _, hst, hholder⟩
  · have hplays : r.Plays n (.shared t) := hn
    obtain ⟨hv, -, -, hd⟩ := hr.played n _ hplays
    refine ha.held n hv ?_ hd
    -- no node of a fixed type holds a provisional one
    rintro ⟨t', p, hp, hholder⟩
    cases hr.roles n _ .value hplays (.inr ⟨t', p, hp, hholder⟩)

end Run

/-! ## Wakes -/

open Run

variable {typer : Typer} {options : Options} {r r' : Run} {u : Unit}

theorem inFramesOf_ok {α : Type} {site : Site} {act : RunM α} {a : α}
    (h : RunM.inFramesOf site act r = .ok a r') : act r = .ok a r' := by
  unfold RunM.inFramesOf at h
  split at h
  · cases h
  · exact h

theorem inFramesOf_failed {α : Type} {site : Site} {act : RunM α} {e : TypingError}
    (h : RunM.inFramesOf site act r = .error (.failed e) r') :
    ∃ e₀, act r = .error (.failed e₀) r' ∧ e = e₀.within (r'.site site).frames := by
  unfold RunM.inFramesOf at h
  split at h
  · next e₀ r₁ hact =>
    cases h
    exact ⟨e₀, hact, rfl⟩
  · next hother => exact absurd h (hother e r')

theorem left_inFramesOf {α : Type} (site : Site) (act : RunM α) :
    Steps.left (RunM.inFramesOf site act r) = Steps.left (act r) := by
  unfold RunM.inFramesOf
  split
  · next hact => rw [hact]; rfl
  · rfl

/-- What every part of settling keeps, where something can be left to do for what is woken: a round
of propagation, a call that is resolved and a provisional type that reacts. -/
structure Enduring (typer : Typer) (options : Options) (P : List Wake → Run → Prop) : Prop where
  propagate : ∀ {r wakes s}, r.Sound [] → P [] r → Store.propagate r.store = .ok wakes s →
    P wakes (r.withStore s)
  call : ∀ {r r' site wakes}, r.Sound (wokenCalls (.site site :: wakes)) →
    site.index < r.sites.size → P (.site site :: wakes) r →
    RunM.rebindCall typer [] site r = .ok () r' → P wakes r'
  refresh : ∀ {r t wakes s}, r.Sound (wokenCalls wakes) → P (.provisional t :: wakes) r →
    Store.refresh t options.generationLimit r.store = .ok () s → P wakes (r.withStore s)

variable {P : List Wake → Run → Prop}

theorem wake_ok (htyper : typer.Sound) (hP : Enduring typer options P) {w : Wake}
    {wakes : List Wake} (hr : r.Sound (wokenCalls (w :: wakes)))
    (hentered : ∀ site, w = .site site → site.index < r.sites.size) (hp : P (w :: wakes) r)
    (h : RunM.wake typer options w r = .ok u r') :
    r'.Sound (wokenCalls wakes) ∧ r.Retains r' ∧ P wakes r' := by
  cases w with
  | site site =>
    have h := inFramesOf_ok h
    obtain ⟨hr', hattended, ha⟩ := rebindCall_ok htyper hr (hentered site rfl)
      List.mem_cons_self h
    exact ⟨hr'.discharge hattended, ha.toRetains, hP.call hr (hentered site rfl) hp h⟩
  | provisional t =>
    obtain ⟨s, hrefresh, rfl⟩ := onStore_ok.mp h
    obtain ⟨hr', hretains⟩ := Sound.refreshed hr hrefresh
    exact ⟨hr', hretains, hP.refresh hr hp hrefresh⟩

theorem wakes_ok (htyper : typer.Sound) (hP : Enduring typer options P) {wakes : List Wake}
    (hr : r.Sound (wokenCalls wakes))
    (hentered : ∀ site, .site site ∈ wakes → site.index < r.sites.size) (hp : P wakes r)
    (h : (wakes.forM (RunM.wake typer options) : RunM Unit) r = .ok u r') :
    r'.Sound [] ∧ P [] r' := by
  induction wakes generalizing r with
  | nil =>
    obtain ⟨-, rfl⟩ := Steps.pure_ok.mp h
    exact ⟨hr, hp⟩
  | cons w wakes ih =>
    obtain ⟨_, r₁, h₁, h₂⟩ := Steps.bind_ok.mp h
    obtain ⟨hr₁, hk₁, hp₁⟩ := wake_ok htyper hP hr
      (fun site hw => hentered site (by rw [hw]; exact List.mem_cons_self)) hp h₁
    exact ih hr₁ (fun site hw => Nat.lt_of_lt_of_le
      (hentered site (List.mem_cons_of_mem w hw)) hk₁.sites) hp₁ h₂

/-! ## Settling -/

/-- Nothing is queued and no node is dirty. -/
structure Run.Quiet (r : Run) : Prop where
  queue : r.graph.queue = []
  clean : ∀ n, r.graph.dirtyAt n = false

theorem settleWithin_ok (htyper : typer.Sound) (hP : Enduring typer options P) {rounds : Nat}
    (hr : r.Sound []) (hp : P [] r) (h : RunM.settleWithin typer options rounds r = .ok u r') :
    r'.Sound [] ∧ r'.Quiet ∧ P [] r' := by
  induction rounds generalizing r with
  | zero => exact (Steps.throw_ok.mp h).elim
  | succ rounds ih =>
    obtain ⟨wakes, r₁, h₁, h₂⟩ := Steps.bind_ok.mp h
    obtain ⟨s, hpropagate, rfl⟩ := onStore_ok.mp h₁
    have hround := Store.propagate_ok hr.store.formed hr.balanced hpropagate
    have hr₁ := (hr.propagated hpropagate).1
    have hp₁ := hP.propagate hr hp hpropagate
    split at h₂
    · next hempty =>
      obtain ⟨-, rfl⟩ := Steps.pure_ok.mp h₂
      obtain rfl := List.isEmpty_iff.mp hempty
      exact ⟨hr₁, ⟨hround.queue, hround.quiet⟩, hp₁⟩
    · obtain ⟨_, r₂, h₃, h₄⟩ := Steps.bind_ok.mp h₂
      obtain ⟨hr₂, hp₂⟩ := wakes_ok htyper hP hr₁ (hr.entered_of_woken hpropagate) hp₁ h₃
      exact ih hr₂ hp₂ h₄

/-- A run that settles is sound, has nothing due and has no dirty node. -/
theorem settle_ok (htyper : typer.Sound) (hP : Enduring typer options P) (hr : r.Sound [])
    (hp : P [] r) (h : RunM.settle typer options r = .ok u r') :
    r'.Sound [] ∧ r'.Quiet ∧ P [] r' :=
  settleWithin_ok htyper hP hr hp (Steps.get_bind_ok.mp h)

end FlowTyping
