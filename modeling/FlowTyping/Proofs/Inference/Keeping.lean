import FlowTyping.Proofs.Inference.Blame
import FlowTyping.Proofs.Inference.Retarget
import FlowTyping.Proofs.Steps

/-
  Steps that keep a run sound

  The discipline of a run and of typing with local variables, and the steps of
  `RunM` and `TypingM` that follow it. Of errors it says what is to blame.
-/
namespace FlowTyping

/-- Local variables have nodes that may be bound. -/
def Scopes.Fits (scopes : Scopes) (r : Run) : Prop :=
  ∀ table ∈ scopes.inner :: scopes.outer, ∀ name n, table.get? name = some n → r.Bindable n

structure Typing.Sound (due : List Task) (s : Typing) : Prop where
  run : s.run.Sound due
  scopes : s.scopes.Fits s.run

namespace Scopes.Fits

variable {scopes : Scopes} {r r' : Run} {n : Node}

theorem leads (h : scopes.Fits r) (hl : r.Leads r') : scopes.Fits r' :=
  fun table ht name n hn => hl.bindable (h table ht name n hn)

theorem empty (r : Run) : Scopes.empty.Fits r := by
  intro table ht name n hn
  obtain rfl := List.mem_singleton.mp ht
  cases hn

theorem push (h : scopes.Fits r) : scopes.push.Fits r := by
  intro table ht name n hn
  rcases List.mem_cons.mp ht with rfl | ht
  · cases hn
  · exact h table ht name n hn

theorem pop (h : scopes.Fits r) : (scopes.pop?.getD scopes).Fits r := by
  unfold pop?
  split
  · exact h
  · next scope rest hrest =>
    exact fun table ht => h table (List.mem_cons_of_mem _ (hrest ▸ ht))

theorem define (h : scopes.Fits r) (name : String) (hn : r.Bindable n) :
    (scopes.define name n).Fits r := by
  intro table ht other m hm
  rcases List.mem_cons.mp ht with rfl | ht
  · rcases Table.of_get?_put hm with ⟨-, rfl⟩ | hm
    · exact hn
    · exact h _ List.mem_cons_self other m hm
  · exact h table (List.mem_cons_of_mem _ ht) other m hm

theorem find (h : scopes.Fits r) {name : String} (hn : scopes.find name = some n) :
    r.Bindable n := by
  obtain ⟨table, ht, hget⟩ := List.exists_of_findSome?_eq_some hn
  exact h table ht name n hget

end Scopes.Fits

/-- What goes on in a run. -/
structure Stage where
  due : List Task
  /-- The instances that are being typed, innermost first. -/
  frames : List Frame
  /-- The call that is being resolved, where it may be to blame itself. -/
  resolving : Option Site

/-- The discipline of a run at some stage. -/
def running (stage : Stage) : Discipline Halt Run where
  Good r := r.Sound stage.due
  Leads r r' := r.Leads r'
  Fails r halt r' := r.Stops stage.frames stage.resolving halt r'
  Enters r r' := r.Nests stage.frames stage.resolving r'
  refl _ hr := .refl hr.store hr.balanced
  trans _ _ _ h₁ h₂ := h₁.trans h₂
  fails _ _ _ _ hl h := h.of_retains hl.toRetains
  entersNothing _ := .of_sites rfl
  entersMore _ _ _ h₁ h₂ := h₁.trans h₂

/-- The discipline of typing with local variables. -/
def typing (stage : Stage) : Discipline Halt Typing where
  Good s := s.Sound stage.due
  Leads s s' := s.run.Leads s'.run
  Fails s halt s' := s.run.Stops stage.frames stage.resolving halt s'.run
  Enters s s' := s.run.Nests stage.frames stage.resolving s'.run
  refl _ hs := .refl hs.run.store hs.run.balanced
  trans _ _ _ h₁ h₂ := h₁.trans h₂
  fails _ _ _ _ hl h := h.of_retains hl.toRetains
  entersNothing _ := .of_sites rfl
  entersMore _ _ _ h₁ h₂ := h₁.trans h₂

/-- What goes on where something is typed in a context. -/
def Context.stage (ctx : Context) (due : List Task) : Stage := ⟨due, ctx.active, none⟩

variable {α : Type} {stage : Stage} {r : Run} {s : Typing} {n d : Node} {t : Ty}

theorem lift_ok {act : RunM α} {a : α} {s' : Typing} :
    Typing.lift act s = .ok a s' ↔ ∃ run, act s.run = .ok a run ∧ ⟨s.scopes, run⟩ = s' := by
  unfold Typing.lift
  cases act s.run with
  | ok b run => simp
  | error halt run => simp

theorem lift_error {act : RunM α} {halt : Halt} {s' : Typing} :
    Typing.lift act s = .error halt s' ↔
      ∃ run, act s.run = .error halt run ∧ ⟨s.scopes, run⟩ = s' := by
  unfold Typing.lift
  cases act s.run with
  | ok b run => simp
  | error halt run => simp

theorem onStore_ok {act : StoreM α} {a : α} {r' : Run} :
    RunM.onStore act r = .ok a r' ↔ ∃ s, act r.store = .ok a s ∧ r' = r.withStore s := by
  unfold RunM.onStore
  cases act r.store with
  | ok b s => simp [Run.withStore, and_comm, eq_comm]
  | error e s => simp

theorem onStore_error {act : StoreM α} {halt : Halt} {r' : Run} :
    RunM.onStore act r = .error halt r' ↔
      ∃ e s, act r.store = .error e s ∧ halt = .failed e ∧ r' = r.withStore s := by
  unfold RunM.onStore
  cases act r.store with
  | ok b s => simp
  | error e s => simp [Run.withStore, and_comm, eq_comm]

theorem run_left_lift (act : RunM α) :
    (Steps.left (Typing.lift act s)).run = Steps.left (act s.run) := by
  unfold Typing.lift
  cases act s.run with
  | ok a run => rfl
  | error halt run => rfl

theorem sites_left_onStore (act : StoreM α) :
    (Steps.left (RunM.onStore act r)).sites = r.sites := by
  unfold RunM.onStore
  cases act r.store with
  | ok a s => rfl
  | error e s => rfl

theorem left_inFreshScopes (act : TypingM α) :
    Steps.left (RunM.inFreshScopes act r) = (Steps.left (act ⟨.empty, r⟩)).run := by
  unfold RunM.inFreshScopes
  cases act ⟨.empty, r⟩ with
  | ok a s => rfl
  | error halt s => rfl

theorem left_framed (frame : Frame) (act : RunM α) :
    Steps.left (RunM.framed frame act r) = Steps.left (act r) := by
  unfold RunM.framed
  split
  · next hact => rw [hact]; rfl
  · rfl

theorem run_left_inScope (act : TypingM α) :
    (Steps.left (TypingM.inScope act s)).run = (Steps.left (act ⟨s.scopes.push, s.run⟩)).run := by
  unfold TypingM.inScope
  dsimp only
  split <;> next hact => rw [hact]; rfl

/-- A step of a run leaves the local variables as they are. -/
theorem keeps_lift {act : RunM α} {post : α → Run → Prop}
    (h : (running stage).Keeps s.run act post) :
    (typing stage).Keeps s (Typing.lift act) fun a s' => post a s'.run := by
  intro hs
  obtain ⟨hok, herror, henters⟩ := h hs.run
  refine ⟨fun a s' hact => ?_, fun halt s' hact => ?_, ?_⟩
  · obtain ⟨run, hrun, rfl⟩ := lift_ok.mp hact
    obtain ⟨hr, hl, hpost⟩ := hok _ _ hrun
    exact ⟨⟨hr, hs.scopes.leads hl⟩, hl, hpost⟩
  · obtain ⟨run, hrun, rfl⟩ := lift_error.mp hact
    exact herror _ _ hrun
  · show s.run.Nests _ _ _
    rw [run_left_lift]
    exact henters

theorem keeps_inFreshScopes {act : TypingM α} {post : α → Run → Prop}
    (h : (typing stage).Keeps ⟨.empty, r⟩ act fun a s' => post a s'.run) :
    (running stage).Keeps r (RunM.inFreshScopes act) post := by
  intro hr
  obtain ⟨hok, herror, henters⟩ := h ⟨hr, .empty r⟩
  refine ⟨fun a r' hact => ?_, fun halt r' hact => ?_, ?_⟩
  · unfold RunM.inFreshScopes at hact
    split at hact <;> cases hact
    next s' hact =>
    obtain ⟨hs, hl, hpost⟩ := hok _ _ hact
    exact ⟨hs.run, hl, hpost⟩
  · unfold RunM.inFreshScopes at hact
    split at hact <;> cases hact
    next s' hact =>
    exact herror _ _ hact
  · rw [left_inFreshScopes]
    exact henters

/-- What is typed as an instance blames calls that were entered in it. -/
theorem keeps_framed {due : List Task} {frames : List Frame} {site : Site} {frame : Frame}
    {act : RunM α} {post : α → Run → Prop} (hsite : site.index < r.sites.size)
    (hframe : frame.place = (r.site site).place)
    (h : (running ⟨due, frame :: frames, none⟩).Keeps r act post) :
    (running ⟨due, frames, some site⟩).Keeps r (RunM.framed frame act) post := by
  intro hr
  obtain ⟨hok, herror, henters⟩ := h hr
  refine ⟨fun a r' hact => ?_, fun halt r' hact => ?_, ?_⟩
  · unfold RunM.framed at hact
    split at hact
    · cases hact
    · exact hok a r' hact
  · unfold RunM.framed at hact
    split at hact
    · next e r₁ hfailed =>
      cases hact
      exact Run.Blames.instantiating (herror _ _ hfailed)
    · next hother =>
      cases halt with
      | failed e => exact absurd hact (hother e r')
      | _ => trivial
  · rw [left_framed]
    exact Run.Nests.of_instance henters hsite hframe

theorem keeps_inScope {act : TypingM α} (post : α → Run → Prop)
    (h : (typing stage).Keeps ⟨s.scopes.push, s.run⟩ act fun a s' => post a s'.run) :
    (typing stage).Keeps s (TypingM.inScope act) fun a s' => post a s'.run := by
  intro hs
  obtain ⟨hok, herror, henters⟩ := h ⟨hs.run, hs.scopes.push⟩
  refine ⟨fun a s' hact => ?_, fun halt s' hact => ?_, ?_⟩
  · unfold TypingM.inScope at hact
    dsimp only at hact
    split at hact <;> cases hact
    next s₁ hact =>
    obtain ⟨hs₁, hl, hpost⟩ := hok _ _ hact
    exact ⟨⟨hs₁.run, hs₁.scopes.pop⟩, hl, hpost⟩
  · unfold TypingM.inScope at hact
    dsimp only at hact
    split at hact <;> cases hact
    next s₁ hact =>
    exact herror halt s₁ hact
  · show s.run.Nests _ _ _
    rw [run_left_inScope]
    exact henters

theorem keeps_ofExcept {x : Except TypingError α}
    (herror : ∀ e, x = .error e → r.Stops stage.frames stage.resolving (.failed e) r) :
    (running stage).Keeps r (RunM.ofExcept x) fun a r' => r = r' ∧ x = .ok a := by
  cases x with
  | ok a => exact .pure' fun _ => ⟨rfl, rfl⟩
  | error e => exact .throw' fun _ => herror e rfl

theorem keeps_freshNode (place : Place) :
    (running stage).Keeps r (RunM.freshNode place) fun n r' => r'.Bindable n :=
  .modifyGet' (fun hr => hr.freshPlain place) (.of_sites rfl)

theorem keeps_freshAddress (place : Place) :
    (running stage).Keeps r (RunM.freshAddress place) fun n r' => r'.Ready n :=
  .modifyGet' (fun hr => hr.freshNode .pointer place) (.of_sites rfl)

theorem sites_sharedNode (r : Run) (t : Ty) : (r.sharedNode t).2.sites = r.sites := by
  unfold Run.sharedNode
  split <;> rfl

theorem sites_slotNode (r : Run) (owner : Ty) (name : String) :
    (r.slotNode owner name).2.sites = r.sites := by
  unfold Run.slotNode
  dsimp only
  split
  · rfl
  · dsimp only
    split
    · exact sites_sharedNode _ _
    · rfl

theorem keeps_sharedNode (ht : r.catalog.Definite t) :
    (running stage).Keeps r (RunM.sharedNode t) fun n r' =>
      r'.sharedNodes.get? t = some n ∧ r'.Valid n ∧ r'.results = r.results :=
  .modifyGet' (fun hr => by
    obtain ⟨hs, hl, hn, -, hresults⟩ := hr.sharedNode ht
    exact ⟨hs, hl, hn, (hs.played _ (.shared t) hn).1, hresults⟩) (.of_sites (sites_sharedNode r t))

theorem keeps_sharedNil : (running stage).Keeps r RunM.sharedNil fun n r' => r'.Valid n :=
  .mono (fun hr => keeps_sharedNode (hr.store.catalog.builtin (by decide)) hr) fun _ _ _ _ h => h.2.1

theorem keeps_slotNode (owner : Ty) (name : String) :
    (running stage).Keeps r (RunM.slotNode owner name) fun n r' =>
      r'.Bindable n ∧ r'.slotNodes.get? (owner, name) = some n :=
  .modifyGet' (fun hr => by
    obtain ⟨hs, hl, hn⟩ := hr.slotNode owner name
    exact ⟨hs, hl, hs.slotNodes _ _ hn, hn⟩) (.of_sites (sites_slotNode r owner name))

theorem keeps_bindReady (hn : r.Ready n) (hd : r.Valid d) :
    (running stage).Keeps r (RunM.bind n d) fun _ _ => True :=
  .modify' (fun hr => ⟨(hr.bind hn hd).1, (hr.bind hn hd).2, trivial⟩) (.of_sites rfl)

theorem keeps_bind (hn : r.Bindable n) (hd : r.Valid d) :
    (running stage).Keeps r (RunM.bind n d) fun _ _ => True :=
  keeps_bindReady hn.ready hd

/-! ## Steps that read the state -/

variable {β : Type}

theorem keeps_catalog {f : Catalog → RunM β} {post : β → Run → Prop}
    (h : (running stage).Keeps r (f r.catalog) post) :
    (running stage).Keeps r (RunM.catalog >>= f) post :=
  .of_eq h rfl

theorem keeps_siteAt {site : Site} {f : CallSite → RunM β} {post : β → Run → Prop}
    (h : (running stage).Keeps r (f (r.site site)) post) :
    (running stage).Keeps r (RunM.siteAt site >>= f) post :=
  .of_eq h rfl

theorem keeps_liftCatalog {f : Catalog → TypingM β} {post : β → Typing → Prop}
    (h : (typing stage).Keeps s (f s.run.catalog) post) :
    (typing stage).Keeps s (Typing.lift RunM.catalog >>= f) post :=
  .of_eq h rfl

/-- A step that goes on from a later state with more to do, and ends when that is done. Only the part
that does it enters calls, and only it can fail. -/
theorem keeps_due {due due' : List Task} {frames : List Frame} {resolving : Option Site}
    {act : RunM α} {x : RunM β} {f : β → RunM α} {mid : β → Run → Prop} {post : α → Run → Prop}
    {r₁ : Run} (hr₁ : r₁.Sound due') (hl : r.Leads r₁) (hsites : r₁.sites = r.sites)
    (hx : (running ⟨due', frames, resolving⟩).Keeps r₁ x mid)
    (hrest : ∀ b r₂, r₂.Sound due' → r₁.Leads r₂ → mid b r₂ →
      ∃ a r', f b r₂ = .ok a r' ∧ r'.sites = r₂.sites ∧ r'.Sound due ∧ r.Leads r' ∧ post a r')
    (heq : act r = (x >>= f) r₁) :
    (running ⟨due, frames, resolving⟩).Keeps r act post := by
  intro _
  obtain ⟨hok, herror, henters⟩ := hx hr₁
  have hbefore : r.Nests frames resolving r₁ := .of_sites hsites
  cases hact : x r₁ with
  | error halt r₂ =>
    have hfails : act r = .error halt r₂ := by rw [heq, Steps.bind_eq, hact]
    refine ⟨fun a r' h => ?_, fun halt' r' h => ?_, ?_⟩
    · cases hfails.symm.trans h
    · cases hfails.symm.trans h
      exact (herror halt r₂ hact).of_retains hl.toRetains
    · rw [hact] at henters
      rw [hfails]
      exact hbefore.trans henters
  | ok b r₂ =>
    obtain ⟨hr₂, hl₂, hmid⟩ := hok b r₂ hact
    obtain ⟨a, r', hdone, hsites', hpost⟩ := hrest b r₂ hr₂ hl₂ hmid
    have hgives : act r = .ok a r' :=
      heq.trans (Steps.bind_ok.mpr ⟨b, r₂, hact, hdone⟩)
    rw [hact] at henters
    exact Discipline.Keeps.of_ok hgives hpost (hbefore.trans (henters.trans (.of_sites hsites')))
      ‹_›

/-- A mistake in the text stops a run. -/
theorem keeps_fail {e : TypingError} {post : β → Run → Prop} (h : Mistake e) :
    (running stage).Keeps r (RunM.fail e) post :=
  .throw' fun _ => Run.stops_of_mistake h

theorem keeps_liftFail {e : TypingError} {post : β → Typing → Prop} (h : Mistake e) :
    (typing stage).Keeps s (Typing.lift (RunM.fail e)) post :=
  .mono (keeps_lift (@keeps_fail _ _ _ _ (fun _ _ => False) h)) fun _ _ _ _ h => h.elim

end FlowTyping
