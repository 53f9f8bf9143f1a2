import Mathlib.Data.List.Induction
import FlowTyping.Proofs.Catalog.Specificity
import FlowTyping.Proofs.Flow.Queueing

/-
  Who is told

  A round of propagation takes nodes off the queue (`Store.visited`) and tells
  their watchers, one after the other. A node that is told is computed again,
  and any other watcher is woken. The stores that the round comes through on the
  way are its moments (`Store.moments`).

  A node is taken off the queue if it is dirty when the round begins or has
  another type at some moment, and for no other reason (`mem_visited_iff`). What
  watches it from outside of the graph is woken once, in the order in which it is
  first told (`notifies_of_propagate`).
-/
namespace FlowTyping

namespace Graph

theorem Enqueued.pending {g : Graph} (h : g.Enqueued) : g.Pending := fun n => (h.queued n).mpr

/-- Adding items one after the other, each if it is new, leaves each at its first place. -/
theorem foldl_addOnce {α : Type} [DecidableEq α] (items : List α) :
    items.foldl (fun found item => addOnce item found) [] = items.eraseDups := by
  induction items using List.reverseRecOn with
  | nil => rfl
  | append_singleton items item ih =>
    rw [List.foldl_append, ih, List.eraseDups_append, List.foldl_cons, List.foldl_nil, addOnce]
    by_cases hfound : item ∈ items
    · simp [hfound, List.removeAll]
    · simp [hfound, List.removeAll, List.eraseDups_cons]

end Graph

namespace Store

variable {s s' t : Store} {n m : Node} {rest : List Node} {budget : Nat} {w : Watcher}
  {ws : List Watcher} {k : Wake} {wakes wakes' : List Wake}

theorem Sound.pending (hs : s.Sound) : s.graph.Pending := hs.wired.queued

/-! ## Telling watchers -/

/-- The store after one watcher has been told. -/
def told (s : Store) : Watcher → Store
  | .node n => s.recompute n
  | .site _ => s
  | .provisional _ => s

theorem notify_eq (s : Store) (wakes : List Wake) (w : Watcher) :
    notify (s, wakes) w =
      (s.told w, w.wake?.toList.foldl (fun wakes k => Graph.addOnce k wakes) wakes) := by
  cases w <;> rfl

theorem foldl_notify (s : Store) (wakes : List Wake) (ws : List Watcher) :
    ws.foldl notify (s, wakes) = (ws.foldl told s,
      (ws.filterMap Watcher.wake?).foldl (fun wakes k => Graph.addOnce k wakes) wakes) := by
  induction ws generalizing s wakes with
  | nil => rfl
  | cons w ws ih =>
    rw [List.foldl_cons, notify_eq, ih, List.foldl_cons]
    cases w <;> rfl

theorem told_flows (s : Store) (w : Watcher) : s.Flows (s.told w) := by
  cases w with
  | node n => exact recompute_flows s n
  | site site => exact .refl s
  | provisional t => exact .refl s

theorem dirtyAt_told (h : s.graph.dirtyAt n = true) (w : Watcher) :
    (s.told w).graph.dirtyAt n = true := by
  cases w with
  | node m => exact dirtyAt_recompute h
  | site site => exact h
  | provisional t => exact h

theorem typeAt_told_eq_or_dirty (s : Store) (w : Watcher) (n : Node) :
    (s.told w).graph.typeAt n = s.graph.typeAt n ∨ (s.told w).graph.dirtyAt n = true := by
  cases w with
  | node m => exact typeAt_recompute_eq_or_dirty s m n
  | site site => exact .inl rfl
  | provisional t => exact .inl rfl

/-- No node gets dirty that keeps its type. -/
theorem dirtyAt_of_recompute (h : (s.recompute m).graph.dirtyAt n = true) :
    s.graph.dirtyAt n = true ∨ (s.recompute m).graph.typeAt n ≠ s.graph.typeAt n := by
  rcases recompute_cases s m with ⟨t, -, heq⟩ | ⟨-, heq⟩
  · rw [heq] at h ⊢
    refine ((Graph.dirtyAt_retype s.graph m n t).mp h).imp_right ?_
    rintro ⟨rfl, hm, hne⟩
    show (s.graph.retype n t).typeAt n ≠ _
    rw [Graph.typeAt_retype, if_pos ⟨rfl, hm⟩]
    exact hne.symm
  · rw [heq] at h
    exact .inl h

theorem dirtyAt_of_told (h : (s.told w).graph.dirtyAt n = true) :
    s.graph.dirtyAt n = true ∨ (s.told w).graph.typeAt n ≠ s.graph.typeAt n := by
  cases w with
  | node m => exact dirtyAt_of_recompute h
  | site site => exact .inl h
  | provisional t => exact .inl h

theorem enqueued_told (h : s.graph.Enqueued) (w : Watcher) : (s.told w).graph.Enqueued := by
  cases w with
  | node n => exact enqueued_recompute h n
  | site site => exact h
  | provisional t => exact h

theorem pending_recompute (h : s.graph.Pending) (n : Node) : (s.recompute n).graph.Pending := by
  rcases recompute_cases s n with ⟨t, -, heq⟩ | ⟨-, heq⟩
  · rw [heq]
    exact h.retype n t
  · rw [heq]
    exact h

theorem pending_told (h : s.graph.Pending) (w : Watcher) : (s.told w).graph.Pending := by
  cases w with
  | node n => exact pending_recompute h n
  | site site => exact h
  | provisional t => exact h

/-! ## Telling all watchers of a node -/

/-- What each of the steps keeps, telling all of them keeps. -/
theorem foldl_told_keeps (P : Store → Prop) (h : ∀ s w, P s → P (s.told w)) (ws : List Watcher)
    (hs : P s) : P (ws.foldl told s) := by
  induction ws generalizing s with
  | nil => exact hs
  | cons w ws ih => exact ih (h s w hs)

theorem dirtyAt_foldl_told (h : s.graph.dirtyAt n = true) (ws : List Watcher) :
    (ws.foldl told s).graph.dirtyAt n = true :=
  foldl_told_keeps (fun s => s.graph.dirtyAt n = true) (fun _ w h => dirtyAt_told h w) ws h

theorem watchers_foldl_told (s : Store) (ws : List Watcher) (n : Node) :
    ((ws.foldl told s).graph.cell n).watchers = (s.graph.cell n).watchers :=
  foldl_told_keeps (fun t => (t.graph.cell n).watchers = (s.graph.cell n).watchers)
    (fun t w h => ((told_flows t w).watchers n).trans h) ws rfl

theorem foldl_told_mem_scanl (s : Store) (ws : List Watcher) :
    ws.foldl told s ∈ ws.scanl told s := by
  induction ws generalizing s with
  | nil => exact List.mem_singleton_self s
  | cons w ws ih =>
    rw [List.scanl_cons]
    exact List.mem_cons_of_mem s (ih (s.told w))

/-- A node that has another type while watchers are told is dirty afterwards. -/
theorem dirtyAt_of_changed (ht : t ∈ ws.scanl told s)
    (hne : t.graph.typeAt n ≠ s.graph.typeAt n) : (ws.foldl told s).graph.dirtyAt n = true := by
  induction ws generalizing s with
  | nil =>
    obtain rfl := List.mem_singleton.mp ht
    exact absurd rfl hne
  | cons w ws ih =>
    rw [List.scanl_cons] at ht
    rcases List.mem_cons.mp ht with rfl | ht
    · exact absurd rfl hne
    · rcases typeAt_told_eq_or_dirty s w n with heq | hd
      · exact ih ht (heq ▸ hne)
      · exact dirtyAt_foldl_told hd ws

/-- A node that is dirty after watchers were told was dirty before, or has had another type. -/
theorem changed_of_dirtyAt (h : (ws.foldl told s).graph.dirtyAt n = true) :
    s.graph.dirtyAt n = true ∨ ∃ t ∈ ws.scanl told s, t.graph.typeAt n ≠ s.graph.typeAt n := by
  induction ws generalizing s with
  | nil => exact .inl h
  | cons w ws ih =>
    have hfirst : s.told w ∈ (w :: ws).scanl told s := by
      rw [List.scanl_cons]
      cases ws <;> simp
    by_cases hsame : (s.told w).graph.typeAt n = s.graph.typeAt n
    · rcases ih h with hd | ⟨t, ht, hne⟩
      · exact .inl ((dirtyAt_of_told hd).resolve_right fun hne => hne hsame)
      · exact .inr ⟨t, by rw [List.scanl_cons]; exact List.mem_cons_of_mem s ht, hsame ▸ hne⟩
    · exact .inr ⟨_, hfirst, hsame⟩

/-! ## Rounds -/

/-- The store after a node was taken off the queue and its watchers were told. -/
def stepped (s : Store) (n : Node) (rest : List Node) (budget : Nat) : Store :=
  (s.graph.cell n).watchers.foldl told (s.taken n rest budget)

/-- The nodes that are taken off the queue with a budget of so many, in this order. -/
def visitedWithin : Nat → Store → List Node
  | 0, _ => []
  | budget + 1, s =>
    match s.graph.queue with
    | [] => []
    | n :: rest => n :: visitedWithin budget (s.stepped n rest budget)

/-- The stores that a round with a budget of so many nodes comes through, one after the other. -/
def momentsWithin : Nat → Store → List Store
  | 0, s => [s]
  | budget + 1, s =>
    match s.graph.queue with
    | [] => [s]
    | n :: rest =>
      s :: (s.graph.cell n).watchers.scanl told (s.taken n rest budget) ++
        momentsWithin budget (s.stepped n rest budget)

/-- A node is dirty when a round with a budget of so many nodes begins, or gets another type in
it. -/
def StirsWithin (budget : Nat) (s : Store) (n : Node) : Prop :=
  s.graph.dirtyAt n = true ∨ ∃ t ∈ momentsWithin budget s, t.graph.typeAt n ≠ s.graph.typeAt n

/-- The nodes that a round of propagation takes off the queue. -/
def visited (s : Store) : List Node := visitedWithin s.graph.budget s

/-- The stores that a round of propagation comes through. -/
def moments (s : Store) : List Store := momentsWithin s.graph.budget s

/-- A node is dirty when a round of propagation begins, or gets another type in it. -/
def Stirs (s : Store) (n : Node) : Prop := StirsWithin s.graph.budget s n

/-- The wakes of the watchers that a round of propagation tells, in this order. -/
def notices (s : Store) : List Wake :=
  (s.visited.flatMap fun n => (s.graph.cell n).watchers).filterMap Watcher.wake?

theorem visitedWithin_of_empty (hqueue : s.graph.queue = []) (budget : Nat) :
    visitedWithin budget s = [] := by
  cases budget with
  | zero => rfl
  | succ budget => rw [visitedWithin, hqueue]

theorem visitedWithin_of_queue (hqueue : s.graph.queue = n :: rest) (budget : Nat) :
    visitedWithin (budget + 1) s = n :: visitedWithin budget (s.stepped n rest budget) := by
  rw [visitedWithin, hqueue]

theorem momentsWithin_of_empty (hqueue : s.graph.queue = []) (budget : Nat) :
    momentsWithin budget s = [s] := by
  cases budget with
  | zero => rfl
  | succ budget => rw [momentsWithin, hqueue]

theorem momentsWithin_of_queue (hqueue : s.graph.queue = n :: rest) (budget : Nat) :
    momentsWithin (budget + 1) s =
      s :: (s.graph.cell n).watchers.scanl told (s.taken n rest budget) ++
        momentsWithin budget (s.stepped n rest budget) := by
  rw [momentsWithin, hqueue]

/-- A round that comes to its end: the queue is empty, or a node is taken off the queue, its
watchers are told and the round goes on. -/
inductive Drains : Nat → Store → List Wake → List Wake → Store → Prop
  | done {budget : Nat} {s : Store} {wakes : List Wake} (hqueue : s.graph.queue = []) :
      Drains budget s wakes wakes s
  | next {budget : Nat} {s s' : Store} {n : Node} {rest : List Node} {wakes wakes' : List Wake}
      (hqueue : s.graph.queue = n :: rest)
      (h : Drains budget (s.stepped n rest budget)
        (((s.graph.cell n).watchers.filterMap Watcher.wake?).foldl
          (fun wakes k => Graph.addOnce k wakes) wakes) wakes' s') :
      Drains (budget + 1) s wakes wakes' s'

theorem drains_of_ok (h : drain budget s wakes = .ok wakes' s') :
    Drains budget s wakes wakes' s' := by
  induction budget generalizing s wakes with
  | zero =>
    unfold drain at h
    split at h
    · next hqueue =>
      cases h
      exact .done hqueue
    · cases h
  | succ budget ih =>
    unfold drain at h
    split at h
    · next hqueue =>
      cases h
      exact .done hqueue
    · next n rest hqueue =>
      refine .next hqueue (ih ?_)
      rw [step_eq, foldl_notify] at h
      exact h

theorem watchers_stepped (s : Store) (n : Node) (rest : List Node) (budget : Nat) (m : Node) :
    ((s.stepped n rest budget).graph.cell m).watchers = (s.graph.cell m).watchers :=
  (watchers_foldl_told _ _ m).trans ((taken_flows s n rest budget).watchers m)

theorem typeAt_taken (s : Store) (n : Node) (rest : List Node) (budget : Nat) (m : Node) :
    (s.taken n rest budget).graph.typeAt m = s.graph.typeAt m :=
  field_taken (·.type) (fun _ => rfl) s n rest budget m

theorem enqueued_stepped (h : s.graph.Enqueued) (hqueue : s.graph.queue = n :: rest)
    (budget : Nat) : (s.stepped n rest budget).graph.Enqueued :=
  foldl_told_keeps (fun s => s.graph.Enqueued) (fun _ w h => enqueued_told h w) _
    (enqueued_taken h hqueue budget)

theorem pending_stepped (h : s.graph.Pending) (hqueue : s.graph.queue = n :: rest)
    (budget : Nat) : (s.stepped n rest budget).graph.Pending :=
  foldl_told_keeps (fun s => s.graph.Pending) (fun _ w h => pending_told h w) _
    (pending_taken h hqueue budget)

/-! ## Which nodes are taken off the queue -/

/-- What the rest of a round stirs, the round has stirred. -/
theorem StirsWithin.of_stepped (hqueue : s.graph.queue = n :: rest)
    (h : StirsWithin budget (s.stepped n rest budget) m) : StirsWithin (budget + 1) s m := by
  have htaken := typeAt_taken s n rest budget m
  have changed {t : Store} (ht : t ∈ (s.graph.cell n).watchers.scanl told (s.taken n rest budget))
      (hne : t.graph.typeAt m ≠ s.graph.typeAt m) : StirsWithin (budget + 1) s m := by
    refine .inr ⟨t, ?_, hne⟩
    rw [momentsWithin_of_queue hqueue]
    exact List.mem_cons_of_mem s (List.mem_append_left _ ht)
  rcases h with hd | ⟨t, ht, hne⟩
  · rcases changed_of_dirtyAt hd with hd | ⟨t, ht, hne⟩
    · exact .inl (dirtyAt_taken hd).2
    · exact changed ht (htaken ▸ hne)
  · by_cases hsame : (s.stepped n rest budget).graph.typeAt m = s.graph.typeAt m
    · refine .inr ⟨t, ?_, hsame ▸ hne⟩
      rw [momentsWithin_of_queue hqueue]
      exact List.mem_cons_of_mem s (List.mem_append_right _ ht)
    · exact changed (foldl_told_mem_scanl _ _) hsame

/-- What a round stirs is the node that it takes off the queue first, or the rest of the round stirs
it. -/
theorem StirsWithin.stepped (hqueue : s.graph.queue = n :: rest)
    (h : StirsWithin (budget + 1) s m) :
    m = n ∨ StirsWithin budget (s.stepped n rest budget) m := by
  have htaken := typeAt_taken s n rest budget m
  refine or_iff_not_imp_left.mpr fun hmn => ?_
  rcases h with hd | ⟨t, ht, hne⟩
  · exact .inl (dirtyAt_foldl_told (by rw [dirtyAt_taken_of_ne hmn]; exact hd) _)
  · rw [momentsWithin_of_queue hqueue] at ht
    -- the node may have changed when the watchers of the first one were told, or after that
    rcases List.mem_cons.mp ht with rfl | ht
    · exact absurd rfl hne
    rcases List.mem_append.mp ht with ht | ht
    · exact .inl (dirtyAt_of_changed ht (htaken ▸ hne))
    · by_cases hsame : (s.stepped n rest budget).graph.typeAt m = s.graph.typeAt m
      · exact .inr ⟨t, ht, hsame ▸ hne⟩
      · exact .inl (dirtyAt_of_changed (foldl_told_mem_scanl _ _) (htaken ▸ hsame))

theorem mem_visitedWithin_of_stirs (h : Drains budget s wakes wakes' s') (hs : s.graph.Pending)
    (hm : StirsWithin budget s m) : m ∈ visitedWithin budget s := by
  induction h with
  | done hqueue =>
    rcases hm with hd | ⟨t, ht, hne⟩
    · exact absurd (hqueue ▸ hs m hd) List.not_mem_nil
    · rw [momentsWithin_of_empty hqueue] at ht
      exact absurd (List.mem_singleton.mp ht ▸ rfl) hne
  | next hqueue _ ih =>
    rw [visitedWithin_of_queue hqueue]
    rcases hm.stepped hqueue with rfl | hm
    · exact List.mem_cons_self
    · exact List.mem_cons_of_mem _ (ih (pending_stepped hs hqueue _) hm)

theorem stirs_of_mem_visitedWithin (hs : s.graph.Enqueued) (hm : m ∈ visitedWithin budget s) :
    StirsWithin budget s m := by
  induction budget generalizing s with
  | zero => cases hm
  | succ budget ih =>
    cases hqueue : s.graph.queue with
    | nil =>
      rw [visitedWithin_of_empty hqueue] at hm
      cases hm
    | cons n rest =>
      rw [visitedWithin_of_queue hqueue] at hm
      rcases List.mem_cons.mp hm with rfl | hm
      · exact .inl ((hs.queued m).mp (hqueue ▸ List.mem_cons_self))
      · exact (ih (enqueued_stepped hs hqueue budget) hm).of_stepped hqueue

theorem mem_visited_of_stirs (hs : s.graph.Pending) (h : propagate s = .ok wakes s')
    (hm : s.Stirs m) : m ∈ s.visited :=
  mem_visitedWithin_of_stirs (drains_of_ok h) hs hm

theorem mem_visited_iff (hs : s.graph.Enqueued) (h : propagate s = .ok wakes s') :
    m ∈ s.visited ↔ s.Stirs m :=
  ⟨stirs_of_mem_visitedWithin hs, mem_visited_of_stirs hs.pending h⟩

theorem mem_momentsWithin_of_drains (h : Drains budget s wakes wakes' s') :
    s' ∈ momentsWithin budget s := by
  induction h with
  | done hqueue =>
    rw [momentsWithin_of_empty hqueue]
    exact List.mem_singleton_self _
  | next hqueue _ ih =>
    rw [momentsWithin_of_queue hqueue]
    exact List.mem_cons_of_mem _ (List.mem_append_right _ ih)

/-- A round ends with a store that it comes through. -/
theorem mem_moments_of_propagate (h : propagate s = .ok wakes s') : s' ∈ s.moments :=
  mem_momentsWithin_of_drains (drains_of_ok h)

/-- A node that does not have the same type at some moment and at the end of a round is stirred. -/
theorem stirs_of_moment (h : propagate s = .ok wakes s') (ht : t ∈ s.moments)
    (hne : t.graph.typeAt n ≠ s'.graph.typeAt n) : s.Stirs n := by
  by_cases hsame : t.graph.typeAt n = s.graph.typeAt n
  · exact .inr ⟨s', mem_moments_of_propagate h, fun heq => hne (hsame.trans heq.symm)⟩
  · exact .inr ⟨t, ht, hsame⟩

/-! ## Which watchers are woken -/

theorem wakes_of_drains (h : Drains budget s wakes wakes' s') :
    wakes' = (((visitedWithin budget s).flatMap fun n => (s.graph.cell n).watchers).filterMap
      Watcher.wake?).foldl (fun wakes k => Graph.addOnce k wakes) wakes := by
  induction h with
  | done hqueue => rw [visitedWithin_of_empty hqueue]; rfl
  | next hqueue _ ih =>
    rw [visitedWithin_of_queue hqueue, ih, List.flatMap_cons, List.filterMap_append,
      List.foldl_append]
    simp only [watchers_stepped]

/-- What is woken, and in which order. -/
theorem wakes_of_propagate (h : propagate s = .ok wakes s') : wakes = s.notices.eraseDups := by
  rw [wakes_of_drains (drains_of_ok h)]
  exact Graph.foldl_addOnce _

theorem mem_wakes_iff (h : propagate s = .ok wakes s') :
    k ∈ wakes ↔ ∃ n ∈ s.visited, ∃ w ∈ (s.graph.cell n).watchers, w.wake? = some k := by
  rw [wakes_of_propagate h, List.mem_eraseDups, notices, List.mem_filterMap]
  constructor
  · rintro ⟨w, hw, hk⟩
    obtain ⟨n, hn, hw⟩ := List.mem_flatMap.mp hw
    exact ⟨n, hn, w, hw, hk⟩
  · rintro ⟨n, hn, w, hw, hk⟩
    exact ⟨w, List.mem_flatMap.mpr ⟨n, hn, hw⟩, hk⟩

/-- What a round of propagation wakes: all that watches from outside of the graph a node that is
dirty when the round begins or changes in it, each once and in the order in which it is told. -/
structure Notifies (s : Store) (wakes : List Wake) : Prop where
  order : wakes = s.notices.eraseDups
  once : wakes.Nodup
  visited : ∀ n, n ∈ s.visited ↔ s.Stirs n
  woken : ∀ k, k ∈ wakes ↔ ∃ n, s.Stirs n ∧ ∃ w ∈ (s.graph.cell n).watchers, w.wake? = some k

theorem notifies_of_propagate (hs : s.graph.Enqueued) (h : propagate s = .ok wakes s') :
    s.Notifies wakes where
  order := wakes_of_propagate h
  once := by
    rw [wakes_of_propagate h]
    exact nodup_eraseDups _
  visited _ := mem_visited_iff hs h
  woken _ := (mem_wakes_iff h).trans
    (exists_congr fun _ => and_congr_left fun _ => mem_visited_iff hs h)

end Store

end FlowTyping
