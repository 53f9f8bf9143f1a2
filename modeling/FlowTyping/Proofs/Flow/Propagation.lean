import FlowTyping.Proofs.Flow.Operations

/-
  Propagation

  A round of propagation that ends leaves no node dirty and every equation
  solved (`propagate_ok`). It wakes every watcher outside the graph of a node
  that was dirty or changed its type: the others have seen nothing
  (`Propagated.unseen`).
-/
namespace FlowTyping.Store

variable {s s' : Store} {due : List Node} {wakes wakes' : List Wake}

/-- The nodes among watchers. -/
def watchingNodes (ws : List Watcher) : List Node :=
  ws.filterMap fun
    | .node n => some n
    | _ => none

theorem mem_watchingNodes {ws : List Watcher} {n : Node} :
    n ∈ watchingNodes ws ↔ .node n ∈ ws := by
  unfold watchingNodes
  rw [List.mem_filterMap]
  constructor
  · rintro ⟨w, hw, heq⟩
    cases w <;> simp_all
  · exact fun h => ⟨_, h, rfl⟩

/-! ## Notifying watchers -/

/-- What the notification of some watchers does. -/
structure Notified (ws : List Watcher) (s : Store) (wakes : List Wake) (s' : Store)
    (wakes' : List Wake) : Prop where
  flows : s.Flows s'
  formed : s'.Formed
  balanced : ∀ due, s.Balanced (watchingNodes ws ++ due) → s'.Balanced due
  dirty : ∀ n, s.graph.dirtyAt n = true → s'.graph.dirtyAt n = true
  changed : ∀ n, s'.graph.typeAt n = s.graph.typeAt n ∨ s'.graph.dirtyAt n = true
  woken : ∀ k, k ∈ wakes' ↔ k ∈ wakes ∨ ∃ w ∈ ws, w.wake? = some k

theorem notified_cons {w : Watcher} {ws : List Watcher} {s'' : Store} {wakes'' : List Wake}
    (h₁ : Notified [w] s wakes s' wakes') (h₂ : Notified ws s' wakes' s'' wakes'') :
    Notified (w :: ws) s wakes s'' wakes'' where
  flows := h₁.flows.trans h₂.flows
  formed := h₂.formed
  balanced due h := by
    refine h₂.balanced due (h₁.balanced _ ?_)
    unfold watchingNodes at h ⊢
    rw [← List.append_assoc, ← List.filterMap_append]
    exact h
  dirty n h := h₂.dirty n (h₁.dirty n h)
  changed n := by
    rcases h₁.changed n with heq | hd
    · rw [← heq]
      exact h₂.changed n
    · exact .inr (h₂.dirty n hd)
  woken k := by
    rw [h₂.woken, h₁.woken, or_assoc]
    simp

theorem notified_one (hs : s.Formed) (wakes : List Wake) (w : Watcher) :
    Notified [w] s wakes (notify (s, wakes) w).1 (notify (s, wakes) w).2 := by
  cases w with
  | node n =>
    refine ⟨recompute_flows s n, hs.recompute n, fun due h => h.recompute hs,
      fun d => dirtyAt_recompute, typeAt_recompute_eq_or_dirty s n, fun k => ?_⟩
    simp [notify, Watcher.wake?]
  | site site =>
    refine ⟨.refl s, hs, fun due h => h, fun _ h => h, fun _ => .inl rfl, fun k => ?_⟩
    simp [notify, Watcher.wake?, Graph.mem_addOnce, or_comm, eq_comm]
  | provisional t =>
    refine ⟨.refl s, hs, fun due h => h, fun _ h => h, fun _ => .inl rfl, fun k => ?_⟩
    simp [notify, Watcher.wake?, Graph.mem_addOnce, or_comm, eq_comm]

theorem notified_all (hs : s.Formed) (wakes : List Wake) (ws : List Watcher) :
    Notified ws s wakes (ws.foldl notify (s, wakes)).1 (ws.foldl notify (s, wakes)).2 := by
  induction ws generalizing s wakes with
  | nil =>
    exact ⟨.refl s, hs, fun due h => h, fun _ h => h, fun _ => .inl rfl, fun k => by simp⟩
  | cons w ws ih =>
    have hone := notified_one hs wakes w
    exact notified_cons hone (ih hone.formed _)

/-! ## A round -/

/-- The store after a dirty node is taken off the queue, before its watchers are notified. -/
def taken (s : Store) (n : Node) (rest : List Node) (budget : Nat) : Store :=
  ⟨s.catalog, { s.graph with queue := rest, budget := budget }.modify n
    fun cell => { cell with dirty := false }⟩

theorem step_eq (s : Store) (n : Node) (rest : List Node) (budget : Nat) (wakes : List Wake) :
    s.step n rest budget wakes =
      (s.graph.cell n).watchers.foldl notify (s.taken n rest budget, wakes) := rfl

variable {n : Node} {rest : List Node}

/-- A field that has nothing to do with being dirty. -/
theorem field_taken {β : Type} (field : Cell → β)
    (hdirty : ∀ cell, field { cell with dirty := false } = field cell) (s : Store) (n : Node)
    (rest : List Node) (budget : Nat) (m : Node) :
    field ((s.taken n rest budget).graph.cell m) = field (s.graph.cell m) :=
  Graph.field_modify field hdirty { s.graph with queue := rest, budget := budget } n m

theorem dirtyAt_taken {budget : Nat} {m : Node}
    (h : (s.taken n rest budget).graph.dirtyAt m = true) :
    m ≠ n ∧ s.graph.dirtyAt m = true := by
  have hm : m.index < s.graph.size := by
    have := Graph.lt_size_of_dirty h
    rwa [taken, Graph.size_modify] at this
  have h' : ((Graph.modify { s.graph with queue := rest, budget := budget } n
    fun cell => { cell with dirty := false }).cell m).dirty = true := h
  rw [Graph.cell_modify] at h'
  split at h'
  · cases h'
  · next hne => exact ⟨fun e => hne ⟨e, e ▸ hm⟩, h'⟩

theorem dirtyAt_taken_of_ne {budget : Nat} {m : Node} (hm : m ≠ n) :
    (s.taken n rest budget).graph.dirtyAt m = s.graph.dirtyAt m := by
  unfold taken Graph.dirtyAt
  rw [Graph.cell_modify, if_neg fun h => hm h.1]
  rfl

theorem taken_flows (s : Store) (n : Node) (rest : List Node) (budget : Nat) :
    s.Flows (s.taken n rest budget) where
  catalog := .refl _
  size := Graph.size_modify _ n _
  kind m := field_taken (·.kind) (fun _ => rfl) s n rest budget m
  dependencies m := field_taken (·.dependencies) (fun _ => rfl) s n rest budget m
  watchers m := field_taken (·.watchers) (fun _ => rfl) s n rest budget m
  typed m h := by
    have := field_taken (·.type) (fun _ => rfl) s n rest budget m
    unfold Graph.typeAt
    rw [this]
    exact h
  held m _ := field_taken (·.type) (fun _ => rfl) s n rest budget m

theorem pending_taken (h : s.graph.Pending) (hq : s.graph.queue = n :: rest) (budget : Nat) :
    (s.taken n rest budget).graph.Pending := by
  intro m hm
  obtain ⟨hne, hd⟩ := dirtyAt_taken hm
  have := h m hd
  rw [hq] at this
  exact (List.mem_cons.mp this).resolve_left hne

theorem Formed.taken (h : s.Formed) (hq : s.graph.queue = n :: rest) (budget : Nat) :
    (s.taken n rest budget).Formed := by
  have hf := taken_flows s n rest budget
  refine ⟨h.canonical, ⟨fun m d hd => ?_, fun m d hd => ?_, pending_taken h.wired.queued hq budget⟩,
    fun m t ht => ?_⟩
  · rw [hf.size]
    rw [hf.dependencies] at hd
    exact h.wired.bounded m d hd
  · rw [hf.watchers]
    rw [hf.dependencies] at hd
    exact h.wired.watched m d hd
  · refine h.typed m t ?_
    have := field_taken (·.type) (fun _ => rfl) s n rest budget m
    exact this.symm.trans ht

theorem Sound.taken (h : s.Sound) (hq : s.graph.queue = n :: rest) (budget : Nat) :
    (s.taken n rest budget).Sound :=
  (h.formed.taken hq budget).sound h.catalog

/-- The nodes that depend on the one taken off the queue are due. -/
theorem Balanced.taken (h : s.Balanced []) (hs : s.Formed) (rest : List Node) (budget : Nat) :
    (s.taken n rest budget).Balanced (watchingNodes (s.graph.cell n).watchers ++ []) := by
  have hf := taken_flows s n rest budget
  have htype : ∀ m, (s.taken n rest budget).graph.typeAt m = s.graph.typeAt m :=
    field_taken (·.type) (fun _ => rfl) s n rest budget
  intro m
  rw [List.append_nil]
  rcases h m with hsolved | ⟨d, hd, hdirty⟩ | hdue
  · left
    have hin : (s.taken n rest budget).graph.inputs m = s.graph.inputs m := by
      unfold Graph.inputs
      rw [hf.dependencies, funext htype]
    unfold Solved
    rw [hf.kind, hin, htype]
    exact hsolved
  · right
    -- the node that was taken is no longer dirty: what depends on it is due
    by_cases hdn : d = n
    · right
      rw [mem_watchingNodes]
      exact hdn ▸ hs.wired.watched m d hd
    · left
      exact ⟨d, by rw [hf.dependencies]; exact hd, by rw [dirtyAt_taken_of_ne hdn]; exact hdirty⟩
  · cases hdue

/-- What rounds of taking nodes off the queue do until it is empty. -/
structure Propagated (s : Store) (wakes : List Wake) (s' : Store) (wakes' : List Wake) : Prop where
  flows : s.Flows s'
  formed : s'.Formed
  balanced : s'.Balanced []
  queue : s'.graph.queue = []
  kept : ∀ k ∈ wakes, k ∈ wakes'
  unseen : ∀ n, ∀ w ∈ (s.graph.cell n).watchers, ∀ k, w.wake? = some k → k ∉ wakes' →
    s.graph.dirtyAt n = false ∧ s'.graph.typeAt n = s.graph.typeAt n
  origin : ∀ k ∈ wakes', k ∈ wakes ∨ ∃ n, ∃ w ∈ (s.graph.cell n).watchers, w.wake? = some k

theorem Propagated.quiet (h : Propagated s wakes s' wakes') (n : Node) :
    s'.graph.dirtyAt n = false :=
  h.formed.wired.quiet h.queue n

theorem propagated_of_queue_nil (hs : s.Formed) (hb : s.Balanced []) (hq : s.graph.queue = [])
    (wakes : List Wake) : Propagated s wakes s wakes where
  flows := .refl s
  formed := hs
  balanced := hb
  queue := hq
  kept _ h := h
  unseen n _ _ _ _ _ := ⟨hs.wired.quiet hq n, rfl⟩
  origin _ h := .inl h

theorem propagated_of_drain {budget : Nat} (hs : s.Formed) (hb : s.Balanced [])
    (h : drain budget s wakes = .ok wakes' s') : Propagated s wakes s' wakes' := by
  induction budget generalizing s wakes with
  | zero =>
    unfold drain at h
    split at h
    · next hq => cases h; exact propagated_of_queue_nil hs hb hq _
    · cases h
  | succ budget ih =>
    unfold drain at h
    split at h
    · next hq => cases h; exact propagated_of_queue_nil hs hb hq _
    · next n rest hq =>
      have hn := notified_all (hs.taken hq budget) wakes (s.graph.cell n).watchers
      rw [← step_eq] at hn
      have htaken := taken_flows s n rest budget
      have hrest : Propagated _ _ s' wakes' :=
        ih hn.formed (hn.balanced [] (hb.taken hs rest budget)) h
      have hwatchers : ∀ m, ((s.step n rest budget wakes).1.graph.cell m).watchers =
          (s.graph.cell m).watchers := fun m => (hn.flows.watchers m).trans (htaken.watchers m)
      refine ⟨htaken.trans (hn.flows.trans hrest.flows), hrest.formed, hrest.balanced, hrest.queue,
        fun k hk => hrest.kept k ((hn.woken k).mpr (.inl hk)), fun m w hw k hk hnot => ?_,
        fun k hk => ?_⟩
      · obtain ⟨hclean, htype⟩ := hrest.unseen m w (by rw [hwatchers]; exact hw) k hk hnot
        have hmn : m ≠ n := fun e => hnot (hrest.kept k ((hn.woken k).mpr (.inr ⟨w, e ▸ hw, hk⟩)))
        have hold := (hn.changed m).resolve_right (by rw [hclean]; exact Bool.false_ne_true)
        refine ⟨Bool.eq_false_iff.mpr fun hd => ?_, htype.trans (hold.trans ?_)⟩
        · rw [hn.dirty m (by rw [dirtyAt_taken_of_ne hmn]; exact hd)] at hclean
          cases hclean
        · exact field_taken (·.type) (fun _ => rfl) s n rest budget m
      · rcases hrest.origin k hk with hk | ⟨m, w, hw, hk⟩
        · rcases (hn.woken k).mp hk with hk | ⟨w, hw, hk⟩
          · exact .inl hk
          · exact .inr ⟨n, w, hw, hk⟩
        · exact .inr ⟨m, w, by rw [← hwatchers]; exact hw, hk⟩

theorem propagate_ok (hs : s.Formed) (hb : s.Balanced []) (h : propagate s = .ok wakes s') :
    Propagated s [] s' wakes :=
  propagated_of_drain hs hb h

/-! ## What a round keeps -/

/-- What recomputing a node keeps, the notification of watchers keeps. -/
theorem notify_keeps (P : Store → Prop) (hrecompute : ∀ s n, P s → P (s.recompute n))
    (ws : List Watcher) (state : Store × List Wake) (h : P state.1) :
    P (ws.foldl notify state).1 := by
  induction ws generalizing state with
  | nil => exact h
  | cons w ws ih =>
    refine ih _ ?_
    cases w with
    | node n => exact hrecompute _ n h
    | site _ => exact h
    | provisional _ => exact h

/-- What recomputing a node and taking it off the queue keep, a round of propagation keeps. -/
theorem drain_keeps (P : Store → Prop) (hrecompute : ∀ s n, P s → P (s.recompute n))
    (htaken : ∀ s n rest budget, s.graph.queue = n :: rest → P s → P (s.taken n rest budget))
    {budget : Nat} (hs : P s) (h : drain budget s wakes = .ok wakes' s') : P s' := by
  induction budget generalizing s wakes with
  | zero =>
    unfold drain at h
    split at h
    · cases h; exact hs
    · cases h
  | succ budget ih =>
    unfold drain at h
    split at h
    · cases h; exact hs
    · next n rest hq => exact ih (notify_keeps P hrecompute _ _ (htaken _ _ _ _ hq hs)) h

theorem Sound.propagate (hs : s.Sound) (h : propagate s = .ok wakes s') : s'.Sound :=
  drain_keeps Sound (fun _ n hs => hs.recompute n) (fun _ _ _ budget hq hs => hs.taken hq budget)
    hs h

end FlowTyping.Store
