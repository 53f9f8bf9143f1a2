import FlowTyping.Proofs.Flow.Dropping

/-
  Refreshing is all or nothing

  When a provisional type is refreshed, one of five things happens. If it is
  superseded, or its template cannot be specialized, nothing changes. If it still
  stands for the right specialization it keeps its place. If too many types have
  succeeded one another, the refresh fails. Otherwise a successor takes over, and
  the nodes that bind the type are handed over to it.

  Only in the last case does the graph change, and the change is complete
  (`HandsOver`). Whatever happens, the catalog gains at most a specialization
  (`Catalog.Gains`) and the successor.
-/
namespace FlowTyping

open Catalog Steps

namespace Catalog

variable {c c' : Catalog} {t u target : Ty} {bindings : List (String × Ty)}

/-- The catalog has at most one new type, which is a specialization. All else is as it was. -/
structure Gains (c c' : Catalog) : Prop where
  size : c.size ≤ c'.size ∧ c'.size ≤ c.size + 1
  old : ∀ u : Ty, u.index < c.size → c'.shape u = c.shape u
  new : ∀ u : Ty, c.size ≤ u.index → u.index < c'.size →
    ∃ o template, c'.shape u = .object o ∧ o.template = some template
  classes : c'.classes = c.classes
  methods : c'.methods = c.methods

namespace Gains

theorem refl (c : Catalog) : c.Gains c :=
  ⟨⟨Nat.le_refl _, Nat.le_succ _⟩, fun _ _ => rfl, fun _ h h' => absurd h' (Nat.not_lt.mpr h), rfl,
    rfl⟩

theorem push {o : ObjectShape} {template : Ty} (ho : o.template = some template) :
    c.Gains (c.push (.object o)).2 where
  size := by
    rw [size_push]
    exact ⟨Nat.le_succ _, Nat.le_refl _⟩
  old u hu := by rw [shape_push, if_neg (Nat.ne_of_lt hu)]
  new u hle hlt := by
    rw [size_push] at hlt
    rw [shape_push, if_pos (Nat.le_antisymm (Nat.le_of_lt_succ hlt) hle)]
    exact ⟨o, template, rfl, ho⟩
  classes := rfl
  methods := rfl

/-- What is known of specializations plays no part. -/
theorem of_specializations (h : c.Gains c')
    (known : Table (Ty × List (String × Ty)) Ty) :
    c.Gains { c' with specializations := known } := ⟨h.size, h.old, h.new, h.classes, h.methods⟩

theorem instantiate (h : c.instantiate t bindings = .ok (target, c')) : c.Gains c' := by
  unfold Catalog.instantiate at h
  split at h
  · cases h
  · next template _ =>
    dsimp only at h
    split at h
    · cases h
      exact .refl c
    · cases h
      refine of_specializations ?_ _
      unfold Catalog.specialize
      split
      · exact .push rfl
      · exact .refl c

/-- No provisional type is new or other than it was. -/
theorem provisional_iff (h : c.Gains c') (p : Provisional) :
    c'.shape u = .provisional p ↔ c.shape u = .provisional p := by
  constructor
  · intro hp
    by_cases hu : u.index < c.size
    · exact (h.old u hu).symm.trans hp
    · obtain ⟨o, _, ho, -⟩ := h.new u (Nat.le_of_not_lt hu) (lt_size_of_provisional hp)
      rw [ho] at hp
      cases hp
  · intro hp
    exact (h.old u (lt_size_of_provisional hp)).trans hp

end Gains

end Catalog

namespace Store

variable {s s' : Store} {g : Graph} {n : Node} {t u target former : Ty} {p : Provisional}
  {observed : List (String × Node)} {limit calls : Nat} {lost : List Node} {c : Catalog}

/-! ## Handing nodes over -/

/-- Watchers among which the successor has taken the place of the former type. -/
def handed (former successor : Ty) (ws : List Watcher) : List Watcher :=
  ws.filter (· != .provisional former) ++ [.provisional successor]

theorem not_mem_handed (hne : t ≠ u) (ws : List Watcher) : .provisional t ∉ handed t u ws := by
  simp [handed, hne]

/-- What handing over one node makes of its watchers, if the successor is not yet among them. -/
theorem addOnce_handed {ws : List Watcher} (hu : .provisional u ∉ ws) :
    Graph.addOnce (.provisional u) (ws.filter (· != .provisional t)) = handed t u ws := by
  unfold Graph.addOnce
  rw [if_neg]
  · rfl
  · simp [hu]

/-- A node that has been handed over is not changed by being handed over again. -/
theorem addOnce_handed_again (hne : t ≠ u) (ws : List Watcher) :
    Graph.addOnce (.provisional u) ((handed t u ws).filter (· != .provisional t)) =
      handed t u ws := by
  have hkeep : (handed t u ws).filter (· != .provisional t) = handed t u ws := by
    refine List.filter_eq_self.mpr fun w hw => ?_
    have hwt : w ≠ .provisional t := fun heq => not_mem_handed hne ws (heq ▸ hw)
    simpa using hwt
  rw [hkeep, Graph.addOnce, if_pos]
  simp [handed]

theorem watchers_handOver_one (hn : n.index < g.size) (m : Node) :
    (((g.unwatch n (.provisional t)).watch n (.provisional u)).cell m).watchers =
      if m = n then
        Graph.addOnce (.provisional u) ((g.cell m).watchers.filter (· != .provisional t))
      else (g.cell m).watchers := by
  unfold Graph.watch Graph.unwatch
  rw [Graph.cell_modify, Graph.size_modify, Graph.cell_modify]
  by_cases hm : m = n
  · rw [if_pos ⟨hm, hn⟩, if_pos ⟨hm, hn⟩, if_pos hm]
  · rw [if_neg fun h => hm h.1, if_neg fun h => hm h.1, if_neg hm]

/-- Who watches once the nodes that bind a type have been handed over, however often a node is among
them. -/
theorem watchers_handOver (hne : t ≠ u) (hvalid : ∀ b ∈ observed, b.2.index < g.size) (m : Node)
    (ws : List Watcher) (hu : .provisional u ∉ ws)
    (hws : (g.cell m).watchers = ws ∨ (g.cell m).watchers = handed t u ws) :
    ((handOver g observed t u).cell m).watchers =
      if m ∈ sources observed then handed t u ws else (g.cell m).watchers := by
  unfold handOver
  induction observed generalizing g with
  | nil => rfl
  | cons b observed ih =>
    have hsize : ((g.unwatch b.2 (.provisional t)).watch b.2 (.provisional u)).size = g.size :=
      (Graph.Rewatches.watch _ b.2 _).size.trans (Graph.Rewatches.unwatch g b.2 t).size
    have hone := watchers_handOver_one (t := t) (u := u) (hvalid b List.mem_cons_self) m
    have hrest : ∀ b' ∈ observed,
        b'.2.index < ((g.unwatch b.2 (.provisional t)).watch b.2 (.provisional u)).size :=
      fun b' hb' => hsize.symm ▸ hvalid b' (List.mem_cons_of_mem b hb')
    have hsources : sources (b :: observed) = b.2 :: sources observed := rfl
    rw [List.foldl_cons, hsources]
    by_cases hm : m = b.2
    · have hhanded :
          (((g.unwatch b.2 (.provisional t)).watch b.2 (.provisional u)).cell m).watchers =
            handed t u ws := by
        rw [hone, if_pos hm]
        rcases hws with heq | heq
        · rw [heq]
          exact addOnce_handed hu
        · rw [heq]
          exact addOnce_handed_again hne ws
      rw [ih hrest (.inr hhanded), hhanded, ite_self, if_pos (hm ▸ List.mem_cons_self)]
    · rw [if_neg hm] at hone
      rw [ih hrest (hone ▸ hws), hone]
      simp only [List.mem_cons, hm, false_or]

/-! ## What refreshing can do -/

/-- A superseded type ignores it. -/
theorem refresh_superseded (hp : s.catalog.shape t = .provisional p)
    (hstanding : p.standing.target? = none) (limit : Nat) : refresh t limit s = .ok () s := by
  rw [show refresh t limit s = _ from get_bind_eq, hp]
  dsimp only
  rw [hstanding]
  rfl

/-- A live type whose template cannot be specialized. -/
theorem refresh_unfounded {e : TypingError} (hp : s.catalog.shape t = .provisional p)
    (hstanding : p.standing.target? = some former)
    (hfail : s.catalog.instantiate p.template (bindings s.graph p.observed) = .error e)
    (limit : Nat) : refresh t limit s = .error e s := by
  rw [show refresh t limit s = _ from get_bind_eq, hp]
  dsimp only
  rw [hstanding]
  dsimp only
  rw [Steps.bind_eq, specializationFor, hfail]

/-- A live type whose template has been specialized for its bindings. -/
theorem refresh_founded (hp : s.catalog.shape t = .provisional p)
    (hstanding : p.standing.target? = some former)
    (hc : s.catalog.instantiate p.template (bindings s.graph p.observed) = .ok (target, c))
    (limit : Nat) : refresh t limit s =
      if target = former then .ok () (restand ⟨c, s.graph⟩ t p target)
      else if limit < p.generation + 1 then
        .error (.fault (.generationLimit (c.display p.template) limit)) ⟨c, s.graph⟩
      else .ok () (supersede ⟨c, s.graph⟩ t p target) := by
  rw [show refresh t limit s = _ from get_bind_eq, hp]
  dsimp only
  rw [hstanding]
  dsimp only
  rw [Steps.bind_eq, specializationFor, hc]
  dsimp only
  split
  · rfl
  · split <;> rfl

/-- In `s'` the provisional type `t`, whose entry is `p`, has given its place to a successor that
stands for `target`. `c` is the catalog in which `target` was found. -/
structure HandsOver (s : Store) (t : Ty) (p : Provisional) (c : Catalog) (target : Ty)
    (s' : Store) : Prop where
  /-- One type is new, the successor. -/
  size : s'.catalog.size = c.size + 1
  successor : s'.catalog.shape ⟨c.size⟩ = .provisional
    { p with standing := standing s.graph p.observed target, generation := p.generation + 1 }
  forwarded : s'.catalog.shape t = .provisional { p with standing := .superseded ⟨c.size⟩ }
  /-- Every other provisional type is as it was, and so is any other type. -/
  others : ∀ u : Ty, u ≠ t → u ≠ ⟨c.size⟩ →
    s'.catalog.shape u = c.shape u ∧
      ∀ q, s'.catalog.shape u = .provisional q ↔ s.catalog.shape u = .provisional q
  tables : s'.catalog.classes = s.catalog.classes ∧ s'.catalog.methods = s.catalog.methods
  types : ∀ n, s'.graph.typeAt n = if n = p.holder then some ⟨c.size⟩ else s.graph.typeAt n
  dirty : ∀ n, s'.graph.dirtyAt n = true ↔ n = p.holder ∨ s.graph.dirtyAt n = true
  queue : s'.graph.queue =
    if s.graph.dirtyAt p.holder then s.graph.queue else s.graph.queue ++ [p.holder]
  /-- The successor watches the nodes that bind the type, and the former one does not. -/
  observed : ∀ n ∈ sources p.observed, .provisional t ∉ (s'.graph.cell n).watchers ∧
    .provisional ⟨c.size⟩ ∈ (s'.graph.cell n).watchers
  /-- All other watchers stay, in their order. -/
  watchers : ∀ n, (s'.graph.cell n).watchers =
    if n ∈ sources p.observed then
      (s.graph.cell n).watchers.filter (· != .provisional t) ++ [.provisional ⟨c.size⟩]
    else (s.graph.cell n).watchers
  wiring : s'.graph.size = s.graph.size ∧ s'.graph.budget = s.graph.budget ∧
    ∀ n, s'.graph.dependencies n = s.graph.dependencies n ∧
      (s'.graph.cell n).kind = (s.graph.cell n).kind

theorem budget_handOver (g : Graph) (observed : List (String × Node)) (former successor : Ty) :
    (handOver g observed former successor).budget = g.budget := by
  unfold handOver
  induction observed generalizing g with
  | nil => rfl
  | cons b observed ih => exact ih _

/-- How a node is queued that gets a type which it does not have. -/
theorem queue_retype_of_ne (hne : g.typeAt n ≠ some t) :
    (g.retype n t).queue = if g.dirtyAt n then g.queue else g.queue ++ [n] := by
  unfold Graph.retype
  rw [if_neg hne]
  split
  · rfl
  · rfl

theorem handsOver_of_supersede (hs : s.Contained calls)
    (hp : s.catalog.shape t = .provisional p) (hc : s.catalog.Gains c) (target : Ty) :
    s.HandsOver t p c target (supersede ⟨c, s.graph⟩ t p target) := by
  have hstored := Catalog.Within.shape hs.catalog t
  rw [hp] at hstored
  obtain ⟨-, -, hvalidHolder, hobserved⟩ := stores_provisional.mp hstored
  have hholder : p.holder.index < s.graph.size := hvalidHolder
  have ht := lt_size_of_provisional hp
  have hpc : c.shape t = .provisional p := (hc.old t ht).trans hp
  have hsize : s.catalog.size ≤ c.size := hc.size.1
  have hne : t ≠ ⟨c.size⟩ := fun heq =>
    Nat.ne_of_lt (Nat.lt_of_lt_of_le ht hsize) (congrArg Ty.index heq)
  -- the successor is new, so nothing has its type and nothing is watched by it
  have hholds : s.graph.typeAt p.holder ≠ some ⟨c.size⟩ := fun htype =>
    Nat.lt_irrefl _ (Nat.lt_of_lt_of_le (hs.graph.lt_of_typeAt htype) hsize)
  have hunwatched : ∀ n, .provisional ⟨c.size⟩ ∉ (s.graph.cell n).watchers := fun n hw =>
    Nat.lt_irrefl _ (Nat.lt_of_lt_of_le (hs.graph.holds_of_watcher hw) hsize)
  have hshape := shape_superseding hpc s.graph target
  have hrewatch := handOver_rewatches (s.graph.retype p.holder ⟨c.size⟩) p.observed t ⟨c.size⟩
  have hvalid : ∀ b ∈ p.observed, b.2.index < (s.graph.retype p.holder ⟨c.size⟩).size :=
    fun b hb => (Graph.size_retype s.graph p.holder ⟨c.size⟩).symm ▸ hobserved b hb
  have hwatchers : ∀ n, ((handOver (s.graph.retype p.holder ⟨c.size⟩) p.observed t
      ⟨c.size⟩).cell n).watchers = if n ∈ sources p.observed then
        handed t ⟨c.size⟩ (s.graph.cell n).watchers else (s.graph.cell n).watchers := by
    intro n
    have hkept := Graph.watchers_retype s.graph p.holder n ⟨c.size⟩
    rw [watchers_handOver hne hvalid n _ (hunwatched n) (.inl hkept), hkept]
  rw [supersede_eq]
  dsimp only
  refine ⟨?_, ?_, ?_, fun u hut hnew => ?_, ⟨hc.classes, hc.methods⟩, fun n => ?_, fun n => ?_, ?_,
    fun n hn => ?_, hwatchers, ?_⟩
  · show (superseding c s.graph t p target).size = _
    unfold superseding
    rw [size_setShape, size_push]
  · exact shape_supersede_new (s := ⟨c, s.graph⟩) hpc target
  · exact shape_supersede_former (s := ⟨c, s.graph⟩) hpc target
  · have hkept : (superseding c s.graph t p target).shape u = c.shape u :=
      (hshape u).trans ((if_neg hut).trans (if_neg hnew))
    exact ⟨hkept, fun q => by rw [hkept]; exact hc.provisional_iff q⟩
  · refine (typeAt_supersede ⟨c, s.graph⟩ t p target n).trans ?_
    simp only [hholder, and_true]
  · rw [hrewatch.dirtyAt, Graph.dirtyAt_retype, or_comm]
    simp only [hholder, true_and]
    exact or_congr_left (and_iff_left hholds)
  · rw [hrewatch.queue]
    exact queue_retype_of_ne hholds
  · have hw := hwatchers n
    rw [if_pos hn] at hw
    show .provisional t ∉ ((handOver _ _ _ _).cell n).watchers ∧
      _ ∈ ((handOver _ _ _ _).cell n).watchers
    rw [hw]
    exact ⟨not_mem_handed hne _, by simp [handed]⟩
  · refine ⟨size_supersede ⟨c, s.graph⟩ t p target, ?_, fun n => ⟨?_, ?_⟩⟩
    · exact (budget_handOver _ _ _ _).trans (budget_retype _ _ _).1
    · exact dependencies_supersede ⟨c, s.graph⟩ t p target n
    · exact kind_supersede ⟨c, s.graph⟩ t p target n

/-- What refreshing the provisional type `t`, whose entry is `p`, does at a bound. -/
structure AllOrNothing (s : Store) (t : Ty) (p : Provisional) (limit : Nat) : Prop where
  /-- If it fails, the graph and all provisional types are as they were. -/
  failed : ∀ e s', refresh t limit s = .error e s' → s'.graph = s.graph ∧
    s.catalog.Gains s'.catalog ∧
    ∀ u q, s'.catalog.shape u = .provisional q ↔ s.catalog.shape u = .provisional q
  /-- It does nothing to a superseded type. -/
  superseded : p.standing.isSuperseded = true → refresh t limit s = .ok () s
  /-- Of a live one that stands for the right specialization it notes whether all bindings are
  known by now. -/
  stays : ∀ former c, p.standing.target? = some former →
    s.catalog.instantiate p.template (bindings s.graph p.observed) = .ok (former, c) →
    ∃ s', refresh t limit s = .ok () s' ∧ s'.graph = s.graph ∧ s.catalog.Gains c ∧
      s'.catalog.size = c.size ∧ s'.catalog.shape t = .provisional
        { p with standing := standing s.graph p.observed former } ∧
      ∀ u, u ≠ t → s'.catalog.shape u = c.shape u ∧
        ∀ q, s'.catalog.shape u = .provisional q ↔ s.catalog.shape u = .provisional q
  /-- One that does not is succeeded, unless too many types have succeeded one another. -/
  succeeded : ∀ former target c, p.standing.target? = some former →
    s.catalog.instantiate p.template (bindings s.graph p.observed) = .ok (target, c) →
    target ≠ former →
    (limit < p.generation + 1 → refresh t limit s =
      .error (.fault (.generationLimit (c.display p.template) limit)) ⟨c, s.graph⟩) ∧
    (p.generation + 1 ≤ limit → s.catalog.Gains c ∧
      ∃ s', refresh t limit s = .ok () s' ∧ s.HandsOver t p c target s')

theorem refresh_failed {e : TypingError} (hp : s.catalog.shape t = .provisional p)
    (h : refresh t limit s = .error e s') : s'.graph = s.graph ∧ s.catalog.Gains s'.catalog := by
  cases hformer : p.standing.target? with
  | none =>
    rw [refresh_superseded hp hformer] at h
    cases h
  | some former =>
    cases hc : s.catalog.instantiate p.template (bindings s.graph p.observed) with
    | error e' =>
      rw [refresh_unfounded hp hformer hc] at h
      cases h
      exact ⟨rfl, .refl _⟩
    | ok found =>
      rw [refresh_founded hp hformer hc] at h
      split at h
      · cases h
      · split at h
        · cases h
          exact ⟨rfl, .instantiate hc⟩
        · cases h

/-- Refreshing is all or nothing, in every store that operations on valid handles lead to. -/
theorem refresh_all_or_nothing (h : Interrupted calls lost s)
    (hp : s.catalog.shape t = .provisional p) (limit : Nat) : s.AllOrNothing t p limit := by
  have ht := lt_size_of_provisional hp
  refine ⟨fun e s' hfail => ?_, fun hsuperseded => ?_, fun former c hformer hc => ?_,
    fun former target c hformer hc hne => ⟨fun hlimit => ?_, fun hlimit => ?_⟩⟩
  · obtain ⟨hgraph, hgains⟩ := refresh_failed hp hfail
    exact ⟨hgraph, hgains, fun u q => hgains.provisional_iff q⟩
  · refine refresh_superseded hp ?_ limit
    cases hstanding : p.standing with
    | superseded u => rfl
    | pending u => rw [hstanding] at hsuperseded; cases hsuperseded
    | settled u => rw [hstanding] at hsuperseded; cases hsuperseded
  · have hgains := Catalog.Gains.instantiate hc
    have hshape := shape_restand (s := ⟨c, s.graph⟩) ((hgains.old t ht).trans hp) former
    refine ⟨restand ⟨c, s.graph⟩ t p former, ?_, rfl, hgains, size_setShape _ _ _, ?_,
      fun u hu => ?_⟩
    · rw [refresh_founded hp hformer hc, if_pos rfl]
    · exact (hshape t).trans (if_pos rfl)
    · have hkept := (hshape u).trans (if_neg hu)
      exact ⟨hkept, fun q => by rw [hkept]; exact hgains.provisional_iff q⟩
  · rw [refresh_founded hp hformer hc, if_neg hne, if_pos hlimit]
  · have hgains := Catalog.Gains.instantiate hc
    refine ⟨hgains, _, ?_, handsOver_of_supersede h.contained hp hgains target⟩
    rw [refresh_founded hp hformer hc, if_neg hne, if_neg (Nat.not_lt.mpr hlimit)]

/-- An array whose element is observed twice, and changes. -/
def doubled : Store :=
  let acts : List Act := [
    .add .plain (some .int) .synthesized,
    .add .plain none .synthesized,
    .install .array [("@buffer", ⟨0⟩), ("@buffer", ⟨0⟩)] ⟨1⟩,
    .retype ⟨0⟩ .double]
  acts.foldl (fun s act => act.after s) ⟨.seeded, .empty 100⟩

theorem interrupted_doubled : Interrupted 0 [] doubled := by
  have h₀ : Interrupted 0 [] ⟨.seeded, .empty 100⟩ := .start 100
  have h₁ := h₀.step (.add .plain (some .int) .synthesized) (by decide +kernel)
  have h₂ := h₁.step (.add .plain none .synthesized) (by decide +kernel)
  have h₃ := h₂.step (.install .array [("@buffer", ⟨0⟩), ("@buffer", ⟨0⟩)] ⟨1⟩)
    (by decide +kernel)
  exact h₃.step (.retype ⟨0⟩ .double) (by decide +kernel)

/-- The successor takes over from the type of the array. -/
theorem refresh_all_or_nothing_doubled : ∃ p s', doubled.catalog.shape ⟨37⟩ = .provisional p ∧
    doubled.AllOrNothing ⟨37⟩ p 64 ∧ refresh ⟨37⟩ 64 doubled = .ok () s' ∧
    s'.graph.typeAt ⟨1⟩ = some ⟨39⟩ ∧
    (doubled.graph.cell ⟨0⟩).watchers = [.provisional ⟨37⟩] ∧
    (s'.graph.cell ⟨0⟩).watchers = [.provisional ⟨39⟩] := by
  obtain ⟨p, hp⟩ := Shape.isProvisional_iff.mp
    (by decide +kernel : (doubled.catalog.shape ⟨37⟩).isProvisional = true)
  have htypes : doubled.graph.typeAt ⟨1⟩ = some ⟨37⟩ ∧
      (left (refresh ⟨37⟩ 64 doubled)).graph.typeAt ⟨1⟩ = some ⟨39⟩ := by decide +kernel
  have hwatchers : (doubled.graph.cell ⟨0⟩).watchers = [.provisional ⟨37⟩] ∧
      ((left (refresh ⟨37⟩ 64 doubled)).graph.cell ⟨0⟩).watchers = [.provisional ⟨39⟩] := by
    decide +kernel
  cases hrefresh : refresh ⟨37⟩ 64 doubled with
  | ok u s' =>
    rw [hrefresh] at htypes hwatchers
    exact ⟨p, s', hp, refresh_all_or_nothing interrupted_doubled hp 64, rfl, htypes.2, hwatchers⟩
  | error e s' =>
    -- a failure would have left the array its type
    rw [hrefresh] at htypes
    have hsame : s'.graph.typeAt ⟨1⟩ = doubled.graph.typeAt ⟨1⟩ := by
      rw [(refresh_failed hp hrefresh).1]
    cases htypes.2.symm.trans (hsame.trans htypes.1)

end Store

end FlowTyping
