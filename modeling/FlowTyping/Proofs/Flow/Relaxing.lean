import FlowTyping.Proofs.Flow.Propagation
import FlowTyping.Proofs.Flow.Provisional

/-
  Stores with more budget

  A store may have more budget and another limit (`Store.relax`). Only a round of
  propagation looks at these. Any other operation does in the relaxed store what
  it does in the store itself, and so does a round that the budget is enough for
  (`propagate_relax`). A provisional type reacts in the same way where more types
  may succeed one another on its holder (`refresh_relax`).
-/
namespace FlowTyping

namespace Steps

variable {ε σ α : Type}

/-- The same outcome, with the state changed. -/
def inState (f : σ → σ) : EStateM.Result ε σ α → EStateM.Result ε σ α
  | .ok a s => .ok a (f s)
  | .error e s => .error e (f s)

/-- Steps that follow one another and each do the same from a changed state. -/
theorem inState_bind {β : Type} {f : σ → σ} {x x' : EStateM ε σ α} {y y' : α → EStateM ε σ β}
    {s : σ} (hx : x' (f s) = inState f (x s))
    (hy : ∀ a t, x s = .ok a t → y' a (f t) = inState f (y a t)) :
    (x' >>= y') (f s) = inState f ((x >>= y) s) := by
  rw [bind_eq, bind_eq, hx]
  cases hact : x s with
  | error e t => rfl
  | ok a t => exact hy a t hact

end Steps

open Steps

/-! ## Graphs -/

namespace Graph

/-- The same graph with so much more budget, and with another limit. -/
def relax (extra limit : Nat) (g : Graph) : Graph :=
  { g with budget := g.budget + extra, limit := limit }

variable {extra limit : Nat}

theorem relax_retype (g : Graph) (n : Node) (t : Ty) :
    (g.relax extra limit).retype n t = (g.retype n t).relax extra limit := by
  unfold retype
  show (if g.typeAt n = some t then _ else if g.dirtyAt n = true then _ else _) = _
  split
  · rfl
  · split <;> rfl

end Graph

namespace Store

/-- The same store with so much more budget, and with another limit. -/
def relax (extra limit : Nat) (s : Store) : Store := ⟨s.catalog, s.graph.relax extra limit⟩

variable {extra limit : Nat} {s s' : Store} {n d : Node} {wakes wakes' : List Wake} {t : Ty}

theorem relax_recompute (s : Store) (n : Node) :
    (s.relax extra limit).recompute n = (s.recompute n).relax extra limit := by
  have hcombine : combine (s.relax extra limit).catalog ((s.relax extra limit).graph.cell n).kind
      ((s.relax extra limit).graph.inputs n) =
      combine s.catalog (s.graph.cell n).kind (s.graph.inputs n) := rfl
  unfold recompute
  rw [hcombine]
  rcases combine s.catalog (s.graph.cell n).kind (s.graph.inputs n) with ⟨_ | t, c⟩
  · rfl
  · exact congrArg (Store.mk c) (Graph.relax_retype s.graph n t)

theorem relax_bind (s : Store) (n d : Node) :
    (s.relax extra limit).bind n d = (s.bind n d).relax extra limit := by
  rw [bind_eq, bind_eq]
  show (if (s.graph.typeAt d).isSome then _ else _) = _
  split
  · exact relax_recompute ⟨s.catalog, s.graph.link n d⟩ n
  · rfl

theorem relax_unbind (s : Store) (n d : Node) :
    (s.relax extra limit).unbind n d = (s.unbind n d).relax extra limit :=
  relax_recompute ⟨s.catalog, s.graph.unlink n d⟩ n

/-! ## A round of propagation -/

theorem relax_notify (ws : List Watcher) (s : Store) (wakes : List Wake) :
    ws.foldl notify (s.relax extra limit, wakes) =
      ((ws.foldl notify (s, wakes)).1.relax extra limit, (ws.foldl notify (s, wakes)).2) := by
  induction ws generalizing s wakes with
  | nil => rfl
  | cons w ws ih =>
    rw [List.foldl_cons, List.foldl_cons]
    cases w with
    | node n =>
      show ws.foldl notify ((s.relax extra limit).recompute n, wakes) = _
      rw [relax_recompute]
      exact ih _ _
    | site site => exact ih _ _
    | provisional t => exact ih _ _

theorem relax_step (s : Store) (n : Node) (rest : List Node) (budget : Nat) (wakes : List Wake) :
    (s.relax extra limit).step n rest (budget + extra) wakes =
      ((s.step n rest budget wakes).1.relax extra limit, (s.step n rest budget wakes).2) := by
  let graph : Graph := { s.graph with queue := rest, budget := budget }
  show (graph.cell n).watchers.foldl notify (relax extra limit
    ⟨s.catalog, graph.modify n fun cell => { cell with dirty := false }⟩, wakes) = _
  exact relax_notify _ _ wakes

theorem budget_step (s : Store) (n : Node) (rest : List Node) (budget : Nat) (wakes : List Wake) :
    (s.step n rest budget wakes).1.graph.budget = budget :=
  notify_keeps (fun t => t.graph.budget = budget)
    (fun t n ht => (budget_recompute t n).1.trans ht) _ _ rfl

/-- A round that the budget is enough for goes the same way with more budget. -/
theorem relax_drain {budget : Nat} (hbudget : s.graph.budget = budget)
    (h : drain budget s wakes = .ok wakes' s') :
    drain (budget + extra) (s.relax extra limit) wakes = .ok wakes' (s'.relax extra limit) := by
  induction budget generalizing s wakes with
  | zero =>
    -- nothing is queued, or the budget would not be enough
    unfold drain at h
    split at h
    · next hempty =>
      cases h
      have hqueue : (s'.relax extra limit).graph.queue = [] := hempty
      generalize 0 + extra = budget
      cases budget <;> unfold drain <;> rw [hqueue]
    · cases h
  | succ budget ih =>
    rw [Nat.add_right_comm]
    unfold drain at h ⊢
    split at h
    · next hempty =>
      cases h
      rw [show (s'.relax extra limit).graph.queue = [] from hempty]
    · next n rest hqueue =>
      rw [show (s.relax extra limit).graph.queue = n :: rest from hqueue]
      dsimp only at h ⊢
      rw [relax_step]
      exact ih (budget_step s n rest budget wakes) h

theorem propagate_relax (h : propagate s = .ok wakes s') :
    propagate (s.relax extra limit) = .ok wakes (s'.relax extra limit) :=
  relax_drain rfl h

/-! ## Provisional types -/

variable {template target : Ty} {observed : List (String × Node)} {holder : Node}

theorem relax_watchAll (g : Graph) (observed : List (String × Node)) (t : Ty) :
    watchAll (g.relax extra limit) observed t = (watchAll g observed t).relax extra limit := by
  unfold watchAll
  induction observed generalizing g with
  | nil => rfl
  | cons b observed ih => exact ih (g.watch b.2 (.provisional t))

theorem relax_handOver (g : Graph) (observed : List (String × Node)) (former successor : Ty) :
    handOver (g.relax extra limit) observed former successor =
      (handOver g observed former successor).relax extra limit := by
  unfold handOver
  induction observed generalizing g with
  | nil => rfl
  | cons b observed ih =>
    exact ih ((g.unwatch b.2 (.provisional former)).watch b.2 (.provisional successor))

theorem relax_specializationFor (s : Store) (template : Ty) (observed : List (String × Node)) :
    specializationFor template observed (s.relax extra limit) =
      inState (relax extra limit) (specializationFor template observed s) := by
  have hinstantiate : (s.relax extra limit).catalog.instantiate template
      (bindings (s.relax extra limit).graph observed) =
      s.catalog.instantiate template (bindings s.graph observed) := rfl
  unfold specializationFor
  rw [hinstantiate]
  cases s.catalog.instantiate template (bindings s.graph observed) <;> rfl

theorem relax_install (s : Store) (template : Ty) (observed : List (String × Node))
    (holder : Node) :
    install template observed holder (s.relax extra limit) =
      inState (relax extra limit) (install template observed holder s) := by
  refine inState_bind (relax_specializationFor s template observed) fun target s' _ => ?_
  show EStateM.Result.ok _
    (⟨_, (watchAll (s'.graph.relax extra limit) observed _).retype holder _⟩ : Store) = _
  rw [relax_watchAll, Graph.relax_retype]
  rfl

theorem relax_supersede (s : Store) (t : Ty) (p : Provisional) (target : Ty) :
    (s.relax extra limit).supersede t p target = (s.supersede t p target).relax extra limit := by
  rw [supersede_eq]
  show (⟨_, handOver ((s.graph.relax extra limit).retype p.holder _) p.observed t _⟩ : Store) = _
  rw [Graph.relax_retype, relax_handOver]
  rfl

/-- Where more types may succeed one another, a provisional type reacts as before, unless it did not
because of the bound. -/
theorem refresh_relax {bound bound' : Nat} (hbound : bound ≤ bound') (s : Store) (t : Ty) :
    (∃ shown s', refresh t bound s = .error (.fault (.generationLimit shown bound)) s') ∨
      refresh t bound' (s.relax extra limit) =
        inState (relax extra limit) (refresh t bound s) := by
  rw [show refresh t bound s = _ from get_bind_eq,
    show refresh t bound' (s.relax extra limit) = _ from get_bind_eq]
  rw [show (s.relax extra limit).catalog.shape t = s.catalog.shape t from rfl]
  cases s.catalog.shape t with
  | provisional p =>
    dsimp only
    cases p.standing.target? with
    | none => exact .inr rfl
    | some former =>
      dsimp only
      simp only [Steps.bind_eq, relax_specializationFor]
      cases specializationFor p.template p.observed s with
      | error e s₁ => exact .inr rfl
      | ok target s₁ =>
        dsimp only [inState]
        split
        · exact .inr rfl
        · split
          · exact .inl ⟨_, _, rfl⟩
          · next hgeneration =>
            rw [if_neg fun h => hgeneration (Nat.lt_of_le_of_lt hbound h)]
            exact .inr (congrArg (EStateM.Result.ok _) (relax_supersede s₁ t p target))
  | _ => exact .inr rfl

end Store

end FlowTyping
