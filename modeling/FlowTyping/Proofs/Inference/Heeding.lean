import FlowTyping.Proofs.Flow.Marking
import FlowTyping.Proofs.Flow.Notifying
import FlowTyping.Proofs.Inference.Tracing

/-
  What calls and provisional types have seen

  A call is resolved when it is entered and whenever it is woken. A provisional
  type looks at the nodes that bind it when it is made and whenever it is woken.
  A run goes through stretches: the program is typed, and then rounds of
  propagation take turns with the reactions of what they wake (`RunsBy`).

  Outside of a round a node that changes is left dirty (`Graph.Marks`), so the
  next round tells those that watch it. Who comes to watch it after that has
  been made after that (`Run.hears_or_arises`). So a run that has settled has,
  for all that watches a node, a stretch in which it was made or reacted, and
  the node has not changed since that stretch began (`RunsBy.heeds`).
-/
namespace FlowTyping

open Catalog

/-! ## Who is told of changes -/

/-- A call that is entered, or a provisional type that is made, on the way from `r` to `r'`. -/
def Wake.Arises (r r' : Run) : Wake → Prop
  | .site s => r.sites.size ≤ s.index ∧ s.index < r'.sites.size
  | .provisional t => (∀ p, r.catalog.shape t ≠ .provisional p) ∧
      ∃ p, r'.catalog.shape t = .provisional p

namespace Run

variable {r r' : Run} {n : Node} {k : Wake} {tasks tasks' : List Task} {due due' : List Ty}

/-- A call or a provisional type is told when a node changes. -/
def Hears (r : Run) (n : Node) (k : Wake) : Prop :=
  ∃ w ∈ (r.graph.cell n).watchers, w.wake? = some k

/-- Watchers that are woken as the same are the same. -/
theorem hears_iff {w : Watcher} (hw : w.wake? = some k) :
    r.Hears n k ↔ w ∈ (r.graph.cell n).watchers := by
  refine ⟨fun ⟨v, hv, hk⟩ => ?_, fun h => ⟨w, h, hw⟩⟩
  cases v <;> cases hk <;> cases w <;> cases hw <;> exact hv

theorem hears_site {site : Site} :
    r.Hears n (.site site) ↔ .site site ∈ (r.graph.cell n).watchers := hears_iff rfl

theorem hears_provisional {t : Ty} : r.Hears n (.provisional t) ↔ r.store.Watches t n :=
  hears_iff rfl

/-- What is told of the changes of a node was told of them before, or it is new. -/
theorem hears_or_arises (hr' : r'.Sound tasks') (ha : r.Attuned due) (ha' : r'.Attuned due')
    (hretains : r.Retains r') (hnewcomers : r.Newcomers r') (h : r'.Hears n k) :
    r.Hears n k ∨ k.Arises r r' := by
  cases k with
  | site site =>
    have hw := hears_site.mp h
    exact (hnewcomers n site hw).imp hears_site.mpr fun hnew => ⟨hnew, hr'.watching n site hw⟩
  | provisional t =>
    have hw := hears_provisional.mp h
    by_cases hold : ∃ p, r.catalog.shape t = .provisional p
    · obtain ⟨p, hp⟩ := hold
      exact .inl (hears_provisional.mpr (ha.kept.watches_of_shape ha'.kept hretains.extended hp hw))
    · obtain ⟨p, hp, -⟩ := ha'.kept.watching n t hw
      exact .inr ⟨fun p hp => hold ⟨p, hp⟩, p, hp⟩

end Run

/-! ## Stretches -/

/-- A part of what a run does: the program is typed, a round of propagation takes place, or a call
or a provisional type that was woken reacts. -/
inductive Stretch where
  | typing (before after : Run)
  | round (before after : Run)
  | reaction (k : Wake) (before after : Run)

namespace Stretch

/-- What a stretch goes through on its way. -/
def Proceeds : Stretch → Prop
  | typing before after => before.store.Works after.store
  | round before after => after.store ∈ before.store.moments
  | reaction _ before after => before.store.Works after.store

/-- The type of a node is not one and the same all through a stretch. -/
def Changes (n : Node) : Stretch → Prop
  | typing before after => before.store.Alters after.store n
  | round before after => ∃ m ∈ before.store.moments, m.graph.typeAt n ≠ after.graph.typeAt n
  | reaction _ before after => before.store.Alters after.store n

/-- A call is resolved or a provisional type is refreshed, or it is entered or made. -/
def Attends (k : Wake) : Stretch → Prop
  | typing before after => k.Arises before after
  | round _ _ => False
  | reaction k' before after => k' = k ∨ k.Arises before after

end Stretch

/-- There is a stretch that attends to a call or a provisional type, and a node has not changed
since that stretch began. -/
def Heeds (history : List Stretch) (n : Node) (k : Wake) : Prop :=
  ∃ earlier last later, history = earlier ++ last :: later ∧ last.Attends k ∧
    ∀ stretch ∈ last :: later, ¬ stretch.Changes n

/-- Every change of a node is followed by a stretch that attends to a call or a provisional type. -/
def Answered (n : Node) (k : Wake) : List Stretch → Prop
  | [] => True
  | stretch :: later =>
    (stretch.Changes n → ∃ answer ∈ later, answer.Attends k) ∧ Answered n k later

section

variable {n : Node} {k : Wake} {history later : List Stretch} {stretch : Stretch}

theorem Answered.unchanged (h : Answered n k history)
    (hnone : ∀ answer ∈ history, ¬ answer.Attends k) (hmem : stretch ∈ history) :
    ¬ stretch.Changes n := by
  induction history with
  | nil => cases hmem
  | cons first later ih =>
    have hlater : ∀ answer ∈ later, ¬ answer.Attends k := fun answer ha =>
      hnone answer (List.mem_cons_of_mem first ha)
    rcases List.mem_cons.mp hmem with rfl | hmem
    · intro hchanges
      obtain ⟨answer, ha, hattends⟩ := h.1 hchanges
      exact hlater answer ha hattends
    · exact ih h.2 hlater hmem

/-- If all changes are answered, none has come after the last answer. -/
theorem Answered.heeds (h : Answered n k history)
    (hattends : ∃ answer ∈ history, answer.Attends k) : Heeds history n k := by
  induction history with
  | nil =>
    obtain ⟨answer, ha, -⟩ := hattends
    cases ha
  | cons first later ih =>
    by_cases hlater : ∃ answer ∈ later, answer.Attends k
    · obtain ⟨earlier, last, rest, rfl, hlast⟩ := ih h.2 hlater
      exact ⟨first :: earlier, last, rest, rfl, hlast⟩
    · have hnone : ∀ answer ∈ later, ¬ answer.Attends k := fun answer ha hk =>
        hlater ⟨answer, ha, hk⟩
      obtain ⟨answer, ha, hk⟩ := hattends
      obtain rfl : answer = first :=
        (List.mem_cons.mp ha).resolve_right fun ha => hnone answer ha hk
      refine ⟨[], answer, later, rfl, hk, fun stretch hmem hchanges => ?_⟩
      rcases List.mem_cons.mp hmem with rfl | hmem
      · exact hlater (h.1 hchanges)
      · exact h.2.unchanged hnone hmem hchanges

end

/-! ## Histories -/

/-- What is woken reacts, one after the other. -/
inductive ReactBy (typer : Typer) (options : Options) :
    List Wake → Run → List Stretch → Run → Prop
  | done (r : Run) : ReactBy typer options [] r [] r
  | next {k : Wake} {wakes : List Wake} {r r₁ r' : Run} {later : List Stretch}
      (h : RunM.wake typer options k r = .ok () r₁)
      (rest : ReactBy typer options wakes r₁ later r') :
      ReactBy typer options (k :: wakes) r (.reaction k r r₁ :: later) r'

/-- Rounds of propagation and the reactions to each, up to a round that wakes nothing. -/
inductive SettleBy (typer : Typer) (options : Options) : Run → List Stretch → Run → Prop
  | last {r : Run} {s : Store} (h : Store.propagate r.store = .ok [] s) :
      SettleBy typer options r [.round r (r.withStore s)] (r.withStore s)
  | more {r r₁ r' : Run} {s : Store} {wakes : List Wake} {reactions later : List Stretch}
      (h : Store.propagate r.store = .ok wakes s)
      (react : ReactBy typer options wakes (r.withStore s) reactions r₁)
      (rest : SettleBy typer options r₁ later r') :
      SettleBy typer options r (.round r (r.withStore s) :: (reactions ++ later)) r'

/-- The declarations of a program are fine, and its run goes through a history until it settles. -/
def RunsBy (program : Expr) (options : Options) (history : List Stretch) (result : Node) (r : Run) :
    Prop :=
  ∃ u c r₀ later, DeclareM.declareProgram program .seeded = .ok u c ∧
    RunM.typeProgram (TypingM.typerWithin options.depthLimit) program (.start c options) =
      .ok result r₀ ∧
    SettleBy (TypingM.typerWithin options.depthLimit) options r₀ later r ∧
    history = .typing (.start c options) r₀ :: later

section

variable {typer : Typer} {options : Options} {program : Expr} {r r' r₁ : Run} {u : Unit}
  {wakes : List Wake} {history reactions later : List Stretch} {n result : Node} {k : Wake}

theorem exists_reactBy (h : (wakes.forM (RunM.wake typer options) : RunM Unit) r = .ok u r') :
    ∃ reactions, ReactBy typer options wakes r reactions r' := by
  induction wakes generalizing r with
  | nil =>
    obtain ⟨-, rfl⟩ := Steps.pure_ok.mp h
    exact ⟨[], .done r⟩
  | cons k wakes ih =>
    obtain ⟨_, r₁, hwake, hrest⟩ := Steps.bind_ok.mp h
    obtain ⟨reactions, hreactions⟩ := ih hrest
    exact ⟨_, .next hwake hreactions⟩

theorem exists_settleBy {rounds : Nat} (h : RunM.settleWithin typer options rounds r = .ok u r') :
    ∃ history, SettleBy typer options r history r' := by
  induction rounds generalizing r with
  | zero => exact (Steps.throw_ok.mp h).elim
  | succ rounds ih =>
    obtain ⟨wakes, r₁, h₁, h₂⟩ := Steps.bind_ok.mp h
    obtain ⟨s, hpropagate, rfl⟩ := onStore_ok.mp h₁
    split at h₂
    · next hempty =>
      obtain ⟨-, rfl⟩ := Steps.pure_ok.mp h₂
      obtain rfl := List.isEmpty_iff.mp hempty
      exact ⟨_, .last hpropagate⟩
    · obtain ⟨_, r₂, h₃, h₄⟩ := Steps.bind_ok.mp h₂
      obtain ⟨reactions, hreactions⟩ := exists_reactBy h₃
      obtain ⟨later, hlater⟩ := ih h₄
      exact ⟨_, .more hpropagate hreactions hlater⟩

/-- A program that settles has a history. -/
theorem exists_runsBy (h : Settles program options result r) :
    ∃ history, RunsBy program options history result r := by
  obtain ⟨u, c, hdeclare, hsettle⟩ := h
  obtain ⟨n, r₀, htype, hafter⟩ := Steps.bind_ok.mp hsettle
  obtain ⟨_, r₁, hrounds, hpure⟩ := Steps.bind_ok.mp hafter
  obtain ⟨rfl, rfl⟩ := Steps.pure_ok.mp hpure
  obtain ⟨later, hlater⟩ := exists_settleBy (Steps.get_bind_ok.mp hrounds)
  exact ⟨_, u, c, r₀, later, hdeclare, htype, hlater, rfl⟩

/-! ## Reactions -/

/-- What one reaction does to the store, and who comes to watch. -/
theorem Run.Settling.reaction (htyper : typer.Sound) (h : r.Settling options (k :: wakes))
    (hwake : RunM.wake typer options k r = .ok () r₁) :
    r₁.Settling options wakes ∧ r.store.Works r₁.store ∧
      ∀ n j, r₁.Hears n j → r.Hears n j ∨ j.Arises r r₁ := by
  have hafter := h.wake htyper hwake
  refine ⟨hafter, ?_⟩
  cases k with
  | site site =>
    obtain ⟨-, -, ha⟩ := rebindCall_ok htyper h.sound (h.entered site List.mem_cons_self)
      List.mem_cons_self (inFramesOf_ok hwake)
    exact ⟨ha.works, fun n j => Run.hears_or_arises hafter.sound h.attuned hafter.attuned
      ha.toRetains ha.newcomers⟩
  | provisional t =>
    obtain ⟨s, hrefresh, rfl⟩ := onStore_ok.mp hwake
    have hretains := (h.sound.refreshed hrefresh).2
    exact ⟨.single (.refresh hrefresh), fun n j => Run.hears_or_arises hafter.sound h.attuned
      hafter.attuned hretains (.of_unwatched (.refresh hrefresh))⟩

theorem Run.Settling.reactBy (htyper : typer.Sound) (h : r.Settling options wakes)
    (hreact : ReactBy typer options wakes r reactions r₁) :
    r₁.Settling options [] ∧ r.graph.Marks r₁.graph ∧
      (∀ stretch ∈ reactions, stretch.Proceeds) ∧
      ∀ n j, r₁.Hears n j → r.Hears n j ∨ ∃ answer ∈ reactions, answer.Attends j := by
  induction hreact with
  | done r => exact ⟨h, .refl _, List.forall_mem_nil _, fun n j hj => .inl hj⟩
  | next hwake _ ih =>
    obtain ⟨h₁, hworks, hhears⟩ := h.reaction htyper hwake
    obtain ⟨h', hmarks, hproceeds, hhears'⟩ := ih h₁
    refine ⟨h', hworks.marks.trans hmarks, ?_, fun n j hj => ?_⟩
    · rintro stretch (_ | ⟨_, hmem⟩)
      · exact hworks
      · exact hproceeds stretch hmem
    · rcases hhears' n j hj with hj | ⟨answer, ha, hattends⟩
      · exact (hhears n j hj).imp_right fun harises => ⟨_, List.mem_cons_self, .inr harises⟩
      · exact .inr ⟨answer, List.mem_cons_of_mem _ ha, hattends⟩

/-- All that is woken reacts. -/
theorem ReactBy.attends (hreact : ReactBy typer options wakes r reactions r₁) (hk : k ∈ wakes) :
    ∃ answer ∈ reactions, answer.Attends k := by
  induction hreact with
  | done r => cases hk
  | next _ _ ih =>
    rcases List.mem_cons.mp hk with rfl | hk
    · exact ⟨_, List.mem_cons_self, .inl rfl⟩
    · obtain ⟨answer, ha, hattends⟩ := ih hk
      exact ⟨answer, List.mem_cons_of_mem _ ha, hattends⟩

/-! ## Rounds -/

/-- A round wakes all that is told of a node that was dirty or changes. -/
theorem mem_wakes_of_stirs {s : Store} (hr : r.Sound []) (hk : r.Hears n k)
    (h : Store.propagate r.store = .ok wakes s) (hn : r.store.Stirs n) : k ∈ wakes :=
  (Store.mem_wakes_iff h).mpr ⟨n, Store.mem_visited_of_stirs hr.store.pending h hn, hk⟩

theorem hears_of_propagate {s : Store} (hr : r.Sound [])
    (h : Store.propagate r.store = .ok wakes s) (hk : (r.withStore s).Hears n k) :
    r.Hears n k := by
  have hwatchers := (Store.propagate_ok hr.store.formed hr.balanced h).flows.watchers n
  unfold Run.Hears at hk
  rwa [show ((r.withStore s).graph.cell n).watchers = _ from hwatchers] at hk

/-- What is told of the changes of a node at the end was told of them before, or some stretch
attends to it. -/
theorem SettleBy.hears (htyper : typer.Sound) (h : r.Settling options [])
    (hsettle : SettleBy typer options r history r') (hk : r'.Hears n k) :
    r.Hears n k ∨ ∃ answer ∈ history, answer.Attends k := by
  induction hsettle with
  | last hp => exact .inl (hears_of_propagate h.sound hp hk)
  | more hp hreact _ ih =>
    obtain ⟨h₁, -, -, hhears⟩ := (h.propagate htyper hp).reactBy htyper hreact
    rcases ih h₁ hk with hk | ⟨answer, ha, hattends⟩
    · rcases hhears n k hk with hk | ⟨answer, ha, hattends⟩
      · exact .inl (hears_of_propagate h.sound hp hk)
      · exact .inr ⟨answer, List.mem_cons_of_mem _ (List.mem_append_left _ ha), hattends⟩
    · exact .inr ⟨answer, List.mem_cons_of_mem _ (List.mem_append_right _ ha), hattends⟩

/-- What a round tells of is answered after that round. -/
theorem SettleBy.answers (htyper : typer.Sound) (h : r.Settling options [])
    (hsettle : SettleBy typer options r history r') (hk : r'.Hears n k) (hn : r.store.Stirs n) :
    ∃ answer ∈ history.tail, answer.Attends k := by
  have hwoken {s : Store} {wakes : List Wake} (hp : Store.propagate r.store = .ok wakes s)
      (hk : r.Hears n k) : k ∈ wakes := mem_wakes_of_stirs h.sound hk hp hn
  have hhears := hsettle.hears htyper h hk
  cases hsettle with
  | last hp => cases hwoken hp (hears_of_propagate h.sound hp hk)
  | more hp hreact _ =>
    rcases hhears with hk | ⟨answer, ha, hattends⟩
    · obtain ⟨answer, ha, hattends⟩ := hreact.attends (hwoken hp hk)
      exact ⟨answer, List.mem_append_left _ ha, hattends⟩
    · rcases List.mem_cons.mp ha with rfl | ha
      · exact hattends.elim
      · exact ⟨answer, ha, hattends⟩

theorem ReactBy.answered (htyper : typer.Sound) (h : r.Settling options wakes)
    (hreact : ReactBy typer options wakes r reactions r₁) (hlater : Answered n k later)
    (hdirty : r₁.graph.dirtyAt n = true → ∃ answer ∈ later, answer.Attends k) :
    Answered n k (reactions ++ later) := by
  induction hreact with
  | done r => exact hlater
  | next hwake hrest ih =>
    obtain ⟨h₁, -, -⟩ := h.reaction htyper hwake
    refine ⟨fun hchanges => ?_, ih h₁ hdirty⟩
    -- a node that changes in a reaction is still dirty when all have reacted
    obtain ⟨answer, ha, hattends⟩ := hdirty
      ((h₁.reactBy htyper hrest).2.1.dirty n (Store.Alters.dirty hchanges))
    exact ⟨answer, List.mem_append_right _ ha, hattends⟩

theorem SettleBy.answered (htyper : typer.Sound) (h : r.Settling options [])
    (hsettle : SettleBy typer options r history r') (hk : r'.Hears n k) :
    Answered n k history := by
  induction hsettle with
  | last hp =>
    refine ⟨fun ⟨m, hm, hne⟩ => ?_, trivial⟩
    exact SettleBy.answers htyper h (.last hp) hk (Store.stirs_of_moment hp hm hne)
  | more hp hreact hrest ih =>
    have h₁ := ((h.propagate htyper hp).reactBy htyper hreact).1
    refine ⟨fun ⟨m, hm, hne⟩ => ?_, hreact.answered htyper (h.propagate htyper hp) (ih h₁ hk)
      fun hd => ?_⟩
    · exact SettleBy.answers htyper h (.more hp hreact hrest) hk (Store.stirs_of_moment hp hm hne)
    · obtain ⟨answer, ha, hattends⟩ := hrest.answers htyper h₁ hk (.inl hd)
      exact ⟨answer, List.mem_of_mem_tail ha, hattends⟩

theorem SettleBy.proceeds (htyper : typer.Sound) (h : r.Settling options [])
    (hsettle : SettleBy typer options r history r') :
    ∀ stretch ∈ history, stretch.Proceeds := by
  induction hsettle with
  | last hp =>
    intro stretch hmem
    obtain rfl := List.mem_singleton.mp hmem
    exact Store.mem_moments_of_propagate hp
  | more hp hreact _ ih =>
    obtain ⟨h₁, -, hproceeds, -⟩ := (h.propagate htyper hp).reactBy htyper hreact
    intro stretch hmem
    rcases List.mem_cons.mp hmem with rfl | hmem
    · exact Store.mem_moments_of_propagate hp
    · exact (List.mem_append.mp hmem).elim (hproceeds stretch) (ih h₁ stretch)

/-! ## Programs -/

/-- A run without nodes tells nobody. -/
theorem not_hears_start (c : Catalog) (options : Options) (n : Node) (k : Wake) :
    ¬ (Run.start c options).Hears n k := by
  rintro ⟨w, hw, -⟩
  have hw : w ∈ ((Graph.empty options.stepLimit).cell n).watchers := hw
  rw [Graph.cell_of_size_le (Nat.zero_le _)] at hw
  cases hw

/-- The history of a program heeds all changes that anyone is told of in the end. -/
theorem RunsBy.heeds (h : RunsBy program options history result r) :
    (∀ stretch ∈ history, stretch.Proceeds) ∧ ∀ n k, r.Hears n k → Heeds history n k := by
  obtain ⟨u, c, r₀, later, hdeclare, htype, hsettle, rfl⟩ := h
  have htyper := typerWithin_sound options.depthLimit
  have hdeclared := DeclareM.declareProgram_declares hdeclare
  have hstart := Run.Sound.start hdeclared options
  obtain ⟨hr₀, hl, -⟩ := (keeps_typeProgram htyper program hstart).ok _ _ htype
  have h₀ := TracedM.settling_of_typeProgram hdeclared htype
  refine ⟨fun stretch hmem => ?_, fun n k hk => Answered.heeds ⟨fun hchanges => ?_,
    hsettle.answered htyper h₀ hk⟩ ?_⟩
  · rcases List.mem_cons.mp hmem with rfl | hmem
    · exact hl.works
    · exact hsettle.proceeds htyper h₀ stretch hmem
  · have hdirty := Store.Alters.dirty hchanges
    obtain ⟨answer, ha, hattends⟩ := hsettle.answers htyper h₀ hk (.inl hdirty)
    exact ⟨answer, List.mem_of_mem_tail ha, hattends⟩
  · rcases hsettle.hears htyper h₀ hk with hk | ⟨answer, ha, hattends⟩
    · have harises := (Run.hears_or_arises hr₀ (Run.attuned_start hdeclared options) h₀.attuned
        hl.toRetains hl.newcomers hk).resolve_left (not_hears_start c options n k)
      exact ⟨_, List.mem_cons_self, harises⟩
    · exact ⟨answer, List.mem_cons_of_mem _ ha, hattends⟩

end

/-- No wake is lost, and none is repeated. A round of propagation on a graph in which no round has
failed wakes what watches a node that changes, and nothing else. In a run that has settled, no call
watches a node that has changed since it was last resolved, and no provisional type one that has
changed since it was last refreshed. -/
theorem wakes_exact :
    (∀ calls s s' wakes, Store.Undisturbed calls s → Store.propagate s = .ok wakes s' →
      s.Notifies wakes) ∧
    ∀ program options result r, Settles program options result r →
      ∃ history, RunsBy program options history result r ∧
        (∀ stretch ∈ history, stretch.Proceeds) ∧ ∀ n k, r.Hears n k → Heeds history n k := by
  refine ⟨fun calls s s' wakes h hp => Store.notifies_of_propagate h.enqueued.2 hp,
    fun program options result r h => ?_⟩
  obtain ⟨history, hruns⟩ := exists_runsBy h
  exact ⟨history, hruns, hruns.heeds⟩

/-- Two nodes are watched by a call, the second one also by a provisional type, and both get a
type. -/
def watchedTwice : Store :=
  let acts : List Store.Act := [
    .add .plain none .synthesized,
    .add .plain none .synthesized,
    .watch ⟨0⟩ (.site ⟨3⟩),
    .watch ⟨1⟩ (.site ⟨3⟩),
    .watch ⟨1⟩ (.provisional .array),
    .retype ⟨0⟩ .int,
    .retype ⟨1⟩ .int]
  acts.foldl (fun s act => act.after s) ⟨.seeded, .empty 100⟩

theorem undisturbed_watchedTwice : Store.Undisturbed 4 watchedTwice := by
  have h₀ : Store.Undisturbed 4 ⟨.seeded, .empty 100⟩ := .start 100
  have h₁ := h₀.step (.add .plain none .synthesized) (by decide +kernel) nofun
  have h₂ := h₁.step (.add .plain none .synthesized) (by decide +kernel) nofun
  have h₃ := h₂.step (.watch ⟨0⟩ (.site ⟨3⟩)) (by decide +kernel) nofun
  have h₄ := h₃.step (.watch ⟨1⟩ (.site ⟨3⟩)) (by decide +kernel) nofun
  have h₅ := h₄.step (.watch ⟨1⟩ (.provisional .array)) (by decide +kernel) nofun
  have h₆ := h₅.step (.retype ⟨0⟩ .int) (by decide +kernel) nofun
  exact h₆.step (.retype ⟨1⟩ .int) (by decide +kernel) nofun

theorem propagate_watchedTwice : (match Store.propagate watchedTwice with
    | .ok wakes _ => wakes == [.site ⟨3⟩, .provisional .array]
    | .error _ _ => false) = true := by
  decide +kernel

section
open Sample

/-- The argument of a call gets a second type once the call has been resolved, and so does the
element of a list. -/
def recalled : Expr := lines [
  method "same" [("x", none)] (var "x"),
  setVar "given" int,
  setVar "list" (list [run "same" [var "given"]]),
  setVar "given" double,
  var "list"]

end

theorem recalled_hears : (settledRun recalled ⟨100, 5, 8, 5⟩).any (fun (_, r) =>
    (r.graph.cell ⟨2⟩).watchers.contains (.site ⟨0⟩) &&
      (r.graph.cell ⟨7⟩).watchers.contains (.provisional ⟨42⟩)) = true := by
  decide +kernel

/-- A call is woken once by two nodes, and one that is woken again has seen the last change. -/
theorem wakes_exact_recalled :
    (∃ s', Store.propagate watchedTwice =
        .ok [.site ⟨3⟩, .provisional .array] s' ∧
      watchedTwice.Notifies [.site ⟨3⟩, .provisional .array]) ∧
    ∃ result r history, Settles recalled ⟨100, 5, 8, 5⟩ result r ∧
      RunsBy recalled ⟨100, 5, 8, 5⟩ history result r ∧
      r.Hears ⟨2⟩ (.site ⟨0⟩) ∧ Heeds history ⟨2⟩ (.site ⟨0⟩) ∧
      r.Hears ⟨7⟩ (.provisional ⟨42⟩) ∧ Heeds history ⟨7⟩ (.provisional ⟨42⟩) := by
  refine ⟨?_, ?_⟩
  · have hwoken := propagate_watchedTwice
    split at hwoken
    · next wakes s' hp =>
      obtain rfl := beq_iff_eq.mp hwoken
      exact ⟨s', hp, wakes_exact.1 _ _ _ _ undisturbed_watchedTwice hp⟩
    · cases hwoken
  · obtain ⟨⟨result, r⟩, hsettled, hwatched⟩ := Option.any_eq_true _ _ |>.mp recalled_hears
    obtain ⟨hsite, hprovisional⟩ := Bool.and_eq_true_iff.mp hwatched
    have hsettles := settles_of_settledRun hsettled
    obtain ⟨history, hruns, -, hheeds⟩ := wakes_exact.2 _ _ _ _ hsettles
    have hcall : r.Hears ⟨2⟩ (.site ⟨0⟩) := Run.hears_site.mpr (List.contains_iff_mem.mp hsite)
    have hlist : r.Hears ⟨7⟩ (.provisional ⟨42⟩) :=
      Run.hears_provisional.mpr (List.contains_iff_mem.mp hprovisional)
    exact ⟨result, r, history, hsettles, hruns, hcall, hheeds _ _ hcall, hlist, hheeds _ _ hlist⟩

end FlowTyping
