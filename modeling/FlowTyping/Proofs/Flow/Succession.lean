import FlowTyping.Proofs.Flow.Propagation
import FlowTyping.Proofs.Flow.Work

/-
  How provisional types succeed one another

  A provisional type is the type of its holder and watches the nodes that bind
  it until a successor takes over both (`Store.Kept`). While it is live it
  stands for the specialization that these nodes bind, or one of them has
  changed and the type is still to react (`Store.Abreast`). Every step of work
  and every round of propagation keeps this; a round leaves the types that it
  wakes behind, and each of these catches up when it reacts.
-/
namespace FlowTyping.Store

open Catalog Relation

variable {s s' : Store} {n holder : Node} {t u w template target : Ty} {p q : Provisional}
  {observed : List (String × Node)} {c : Catalog} {g : Graph}

/-- A provisional type is told when a node changes. -/
def Watches (s : Store) (t : Ty) (n : Node) : Prop := .provisional t ∈ (s.graph.cell n).watchers

/-- The nodes that bind slots. -/
def sources (observed : List (String × Node)) : List Node := observed.map (·.2)

theorem mem_sources {b : String × Node} (h : b ∈ observed) : b.2 ∈ sources observed :=
  List.mem_map_of_mem h

/-- A superseded type leads to a successor for the same value, one generation later. -/
def Linked (c : Catalog) : Prop :=
  ∀ t p u, c.shape t = .provisional p → p.standing = .superseded u →
    ∃ st, c.shape u = .provisional { p with standing := st, generation := p.generation + 1 }

/-- What holds of provisional types at all times. -/
structure Kept (s : Store) : Prop where
  holder : ∀ t p, s.catalog.shape t = .provisional p →
    p.holder.index < s.graph.size ∧ s.graph.dependencies p.holder = []
  observed : ∀ t p, s.catalog.shape t = .provisional p →
    ∀ b ∈ p.observed, b.2.index < s.graph.size
  live : ∀ t p, s.catalog.shape t = .provisional p → p.standing.isSuperseded = false →
    s.graph.typeAt p.holder = some t
  successor : Linked s.catalog
  watched : ∀ t p, s.catalog.shape t = .provisional p → p.standing.isSuperseded = false →
    ∀ n ∈ sources p.observed, s.Watches t n
  watching : ∀ n t, s.Watches t n → ∃ p, s.catalog.shape t = .provisional p ∧
    p.standing.isSuperseded = false ∧ n ∈ sources p.observed

/-! ## Steps that touch no provisional type -/

/-- No provisional type is touched, and no holder is bound or retyped. -/
structure Spares (s s' : Store) : Prop where
  catalog : s.catalog.Grows s'.catalog
  steady : s.catalog.Steady s'.catalog
  size : s.graph.size ≤ s'.graph.size
  watches : ∀ n t, s'.Watches t n ↔ s.Watches t n
  holder : ∀ t p, s.catalog.shape t = .provisional p →
    s'.graph.dependencies p.holder = s.graph.dependencies p.holder ∧
      s'.graph.typeAt p.holder = s.graph.typeAt p.holder

theorem Spares.shape_iff (h : s.Spares s') :
    s'.catalog.shape t = .provisional p ↔ s.catalog.shape t = .provisional p :=
  h.steady.provisional_iff h.catalog

theorem Kept.spare (hk : s.Kept) (h : s.Spares s') : s'.Kept where
  holder t p hp := by
    have hp := h.shape_iff.mp hp
    obtain ⟨hlt, hdeps⟩ := hk.holder t p hp
    exact ⟨Nat.lt_of_lt_of_le hlt h.size, (h.holder t p hp).1.trans hdeps⟩
  observed t p hp b hb := Nat.lt_of_lt_of_le (hk.observed t p (h.shape_iff.mp hp) b hb) h.size
  live t p hp hl := by
    have hp := h.shape_iff.mp hp
    exact (h.holder t p hp).2.trans (hk.live t p hp hl)
  successor t p u hp hu := by
    obtain ⟨st, hst⟩ := hk.successor t p u (h.shape_iff.mp hp) hu
    exact ⟨st, h.shape_iff.mpr hst⟩
  watched t p hp hl n hn := (h.watches n t).mpr (hk.watched t p (h.shape_iff.mp hp) hl n hn)
  watching n t hw := by
    obtain ⟨p, hp, hl, hn⟩ := hk.watching n t ((h.watches n t).mp hw)
    exact ⟨p, h.shape_iff.mpr hp, hl, hn⟩

/-- Work that binds no holder and touches no provisional type. -/
theorem Kept.spares_of_advances (hk : s.Kept) {free : Node → Prop} (ha : s.Advances free s')
    (hsteady : s.catalog.Steady s'.catalog) (hwatches : ∀ n t, s'.Watches t n ↔ s.Watches t n)
    (hfree : ∀ t p, s.catalog.shape t = .provisional p → ¬ free p.holder) : s.Spares s' where
  catalog := ha.catalog.toGrows
  steady := hsteady
  size := ha.size
  watches := hwatches
  holder t p hp := by
    obtain ⟨hlt, hdeps⟩ := hk.holder t p hp
    exact ⟨ha.dependencies _ hlt (hfree t p hp), ha.held _ hlt (hfree t p hp) hdeps⟩

theorem watches_congr (h : (s'.graph.cell n).watchers = (s.graph.cell n).watchers) :
    s'.Watches t n ↔ s.Watches t n := by
  unfold Watches
  rw [h]

theorem watches_add (s : Store) (kind : CellKind) (type : Option Ty) (place : Place) :
    Watches ⟨s.catalog, (s.graph.add kind type place).2⟩ t n ↔ s.Watches t n := by
  unfold Watches
  rw [Graph.cell_add]
  split
  · next h =>
    rw [Graph.cell_of_size_le (Nat.le_of_eq h.symm)]
    exact ⟨fun h => (by cases h), fun h => (by cases h)⟩
  · exact Iff.rfl

theorem watches_watch (s : Store) (m : Node) (site : Site) :
    Watches ⟨s.catalog, s.graph.watch m (.site site)⟩ t n ↔ s.Watches t n := by
  unfold Watches Graph.watch
  rw [Graph.cell_modify]
  split
  · exact Graph.mem_addOnce.trans (by simp)
  · exact Iff.rfl

theorem watches_bind (s : Store) (m d : Node) : (s.bind m d).Watches t n ↔ s.Watches t n := by
  have hlink : Watches ⟨s.catalog, s.graph.link m d⟩ t n ↔ s.Watches t n := by
    unfold Watches
    rw [Graph.watchers_link]
    split
    · exact Graph.mem_addOnce.trans (by simp)
    · exact Iff.rfl
  rw [bind_eq]
  split
  · exact (watches_congr ((recompute_flows _ m).watchers n)).trans hlink
  · exact hlink

theorem watches_unbind (s : Store) (m d : Node) : (s.unbind m d).Watches t n ↔ s.Watches t n := by
  rw [unbind_eq]
  refine (watches_congr ((recompute_flows _ m).watchers n)).trans ?_
  unfold Watches
  rw [Graph.watchers_unlink]
  split
  · simp
  · exact Iff.rfl

theorem Flows.spares (h : s.Flows s') (hk : s.Kept) (hsteady : s.catalog.Steady s'.catalog) :
    s.Spares s' where
  catalog := h.catalog.toGrows
  steady := hsteady
  size := Nat.le_of_eq h.size.symm
  watches n _ := watches_congr (h.watchers n)
  holder t p hp := ⟨h.dependencies _, h.held _ (hk.holder t p hp).2⟩

/-! ## Installing -/

/-- Who watches once a provisional type watches the nodes that bind it. -/
theorem mem_watchers_watchAll (hvalid : ∀ b ∈ observed, b.2.index < g.size) :
    .provisional w ∈ ((watchAll g observed t).cell n).watchers ↔
      (w = t ∧ n ∈ sources observed) ∨ .provisional w ∈ (g.cell n).watchers := by
  unfold watchAll
  induction observed generalizing g with
  | nil => simp [sources]
  | cons b observed ih =>
    have hrest : ∀ b' ∈ observed, b'.2.index < (g.watch b.2 (.provisional t)).size := fun b' hb' => by
      rw [(Graph.Rewatches.watch g b.2 _).size]
      exact hvalid b' (List.mem_cons_of_mem b hb')
    rw [List.foldl_cons, ih hrest, Graph.mem_watchers_watch (hvalid b List.mem_cons_self)]
    have hcons : n ∈ sources (b :: observed) ↔ n = b.2 ∨ n ∈ sources observed := List.mem_cons
    rw [hcons, Watcher.provisional.injEq]
    constructor
    · rintro (⟨hw, hn⟩ | ⟨hn, hw⟩ | h)
      · exact .inl ⟨hw, .inr hn⟩
      · exact .inl ⟨hw, .inl hn⟩
      · exact .inr h
    · rintro (⟨hw, hn | hn⟩ | h)
      · exact .inr (.inl ⟨hn, hw⟩)
      · exact .inl ⟨hw, hn⟩
      · exact .inr (.inr h)

/-- The provisional types after one was installed. -/
theorem shape_installed (hc : s.catalog.instantiate template (bindings s.graph observed) =
      .ok (target, c)) :
    (c.push (.provisional q)).2.shape w = .provisional p ↔
      (w = ⟨c.size⟩ ∧ p = q) ∨ s.catalog.shape w = .provisional p := by
  rw [shape_push]
  split
  · next hw =>
    obtain rfl : w = ⟨c.size⟩ := Ty.eq_of_index hw
    refine ⟨fun h => .inl ⟨rfl, (Shape.provisional.inj h).symm⟩, ?_⟩
    rintro (⟨-, rfl⟩ | hp)
    · rfl
    · -- what was entered before stands before the new entry
      have hlt := lt_size_of_provisional hp
      have hkept := shape_instantiate hc hlt
      rw [hp] at hkept
      exact absurd (lt_size_of_provisional hkept) (Nat.lt_irrefl _)
  · next hw =>
    have hne : w ≠ ⟨c.size⟩ := fun e => hw (congrArg Ty.index e)
    simp only [hne, false_and, false_or]
    refine ⟨instantiate_steady hc w p, fun hp => ?_⟩
    rw [shape_instantiate hc (lt_size_of_provisional hp), hp]

theorem Kept.install (hk : s.Kept) (hholder : s.Vacant holder)
    (hobserved : ∀ b ∈ observed, b.2.index < s.graph.size)
    (h : Store.install template observed holder s = .ok t s') : s'.Kept := by
  obtain ⟨target, c, hc, rfl, rfl⟩ := install_ok h
  have hrw := watchAll_rewatches s.graph observed ⟨c.size⟩
  have hsize : ((watchAll s.graph observed ⟨c.size⟩).retype holder ⟨c.size⟩).size = s.graph.size :=
    (Graph.size_retype _ _ _).trans hrw.size
  have hdeps : ∀ m, ((watchAll s.graph observed ⟨c.size⟩).retype holder ⟨c.size⟩).dependencies m =
      s.graph.dependencies m :=
    fun m => (Graph.dependencies_retype _ _ _ _).trans (hrw.dependencies m)
  have hshape := fun {w : Ty} {p : Provisional} => shape_installed (w := w) (p := p)
    (q := installed s.graph template observed holder target) hc
  have hwatches : ∀ m w, Watches ⟨(c.push (.provisional
        (installed s.graph template observed holder target))).2,
      (watchAll s.graph observed ⟨c.size⟩).retype holder ⟨c.size⟩⟩ w m ↔
        (w = ⟨c.size⟩ ∧ m ∈ sources observed) ∨ s.Watches w m := by
    intro m w
    unfold Watches
    rw [Graph.watchers_retype]
    exact mem_watchers_watchAll hobserved
  have hnew : (installed s.graph template observed holder target).standing.isSuperseded = false :=
    Standing.isSuperseded_of_target? (target?_standing _ _ _)
  refine ⟨fun w q hq => ?_, fun w q hq => ?_, fun w q hq hl => ?_, fun w q u hq hu => ?_,
    fun w q hq hl m hm => (hwatches m w).mpr ?_, fun m w hw => ?_⟩
  · show _ < Graph.size _ ∧ _
    rw [hsize, hdeps]
    rcases hshape.mp hq with ⟨-, rfl⟩ | hq
    · exact ⟨hholder.valid, hholder.unbound⟩
    · exact hk.holder w q hq
  · show ∀ b ∈ q.observed, _ < Graph.size _
    rw [hsize]
    rcases hshape.mp hq with ⟨-, rfl⟩ | hq
    · exact hobserved
    · exact hk.observed w q hq
  · show ((watchAll s.graph observed ⟨c.size⟩).retype holder ⟨c.size⟩).typeAt q.holder = _
    rw [Graph.typeAt_retype, hrw.typeAt, hrw.size]
    rcases hshape.mp hq with ⟨rfl, rfl⟩ | hq
    · exact if_pos ⟨rfl, hholder.valid⟩
    · rw [if_neg fun e => hholder.unheld w q hq e.1]
      exact hk.live w q hq hl
  · rcases hshape.mp hq with ⟨-, rfl⟩ | hq
    · rw [hu] at hnew
      cases hnew
    · obtain ⟨st, hst⟩ := hk.successor w q u hq hu
      exact ⟨st, hshape.mpr (.inr hst)⟩
  · rcases hshape.mp hq with ⟨rfl, rfl⟩ | hq
    · exact .inl ⟨rfl, hm⟩
    · exact .inr (hk.watched w q hq hl m hm)
  · rcases (hwatches m w).mp hw with ⟨rfl, hm⟩ | hw
    · exact ⟨_, hshape.mpr (.inl ⟨rfl, rfl⟩), hnew, hm⟩
    · obtain ⟨q, hq, hl, hm⟩ := hk.watching m w hw
      exact ⟨q, hshape.mpr (.inr hq), hl, hm⟩

/-! ## Reacting -/

/-- Who watches once the nodes that bind a provisional type were handed over. -/
theorem mem_watchers_handOver (hne : t ≠ u) (hvalid : ∀ b ∈ observed, b.2.index < g.size) :
    .provisional w ∈ ((handOver g observed t u).cell n).watchers ↔
      (w = u ∧ n ∈ sources observed) ∨
        (.provisional w ∈ (g.cell n).watchers ∧ ¬ (w = t ∧ n ∈ sources observed)) := by
  unfold handOver
  induction observed generalizing g with
  | nil => simp [sources]
  | cons b observed ih =>
    have hsize : ((g.unwatch b.2 (.provisional t)).watch b.2 (.provisional u)).size = g.size :=
      (Graph.Rewatches.watch _ b.2 _).size.trans (Graph.Rewatches.unwatch g b.2 t).size
    have hb := hvalid b List.mem_cons_self
    have hunwatch : .provisional w ∈ ((g.unwatch b.2 (.provisional t)).cell n).watchers ↔
        .provisional w ∈ (g.cell n).watchers ∧ ¬ (w = t ∧ n = b.2) := by
      unfold Graph.unwatch
      rw [Graph.cell_modify]
      split
      · next h => simp [h.1]
      · next h =>
        have : n ≠ b.2 := fun e => h ⟨e, hb⟩
        simp [this]
    rw [List.foldl_cons, ih fun b' hb' => by rw [hsize]; exact hvalid b' (List.mem_cons_of_mem b hb'),
      Graph.mem_watchers_watch (by rw [(Graph.Rewatches.unwatch g b.2 t).size]; exact hb), hunwatch]
    have hcons : n ∈ sources (b :: observed) ↔ n = b.2 ∨ n ∈ sources observed := List.mem_cons
    rw [hcons, Watcher.provisional.injEq]
    constructor
    · rintro (⟨hw, hn⟩ | ⟨⟨hn, hw⟩ | ⟨hold, hnot⟩, hnot'⟩)
      · exact .inl ⟨hw, .inr hn⟩
      · exact .inl ⟨hw, .inl hn⟩
      · exact .inr ⟨hold, fun ⟨hw, hn⟩ => hn.elim (fun hn => hnot ⟨hw, hn⟩) fun hn => hnot' ⟨hw, hn⟩⟩
    · rintro (⟨hw, hn | hn⟩ | ⟨hold, hnot⟩)
      · exact .inr ⟨.inl ⟨hn, hw⟩, fun h => hne (h.1.symm.trans hw)⟩
      · exact .inl ⟨hw, hn⟩
      · exact .inr ⟨.inr ⟨hold, fun h => hnot ⟨h.1, .inl h.2⟩⟩, fun h => hnot ⟨h.1, .inr h.2⟩⟩

/-- The nodes that were watched by a type that is superseded are watched by its successor. -/
theorem watches_supersede (hk : s.Kept) (hp : s.catalog.shape t = .provisional p) (target w : Ty)
    (n : Node) : (s.supersede t p target).Watches w n ↔
      (w = ⟨s.catalog.size⟩ ∧ n ∈ sources p.observed) ∨
        (s.Watches w n ∧ ¬ (w = t ∧ n ∈ sources p.observed)) := by
  have hnew : t ≠ ⟨s.catalog.size⟩ := fun e =>
    Nat.ne_of_lt (lt_size_of_provisional hp) (congrArg Ty.index e)
  refine (mem_watchers_handOver hnew fun b hb => ?_).trans ?_
  · rw [Graph.size_retype]
    exact hk.observed t p hp b hb
  · rw [Graph.watchers_retype]
    exact Iff.rfl

theorem Kept.supersede (hk : s.Kept) (hp : s.catalog.shape t = .provisional p)
    (hlive : p.standing.isSuperseded = false) (target : Ty) :
    (s.supersede t p target).Kept where
  holder w q hq := by
    rw [size_supersede, dependencies_supersede]
    rcases shape_supersede_cases hp hq with ⟨-, rfl⟩ | ⟨-, rfl⟩ | ⟨-, -, hq⟩
    · exact hk.holder t p hp
    · exact hk.holder t p hp
    · exact hk.holder w q hq
  observed w q hq := by
    rw [size_supersede]
    rcases shape_supersede_cases hp hq with ⟨-, rfl⟩ | ⟨-, rfl⟩ | ⟨-, -, hq⟩
    · exact hk.observed t p hp
    · exact hk.observed t p hp
    · exact hk.observed w q hq
  live w q hq hl := by
    rw [typeAt_supersede]
    rcases shape_supersede_cases hp hq with ⟨-, rfl⟩ | ⟨rfl, rfl⟩ | ⟨hw, -, hq⟩
    · cases hl
    · exact if_pos ⟨rfl, (hk.holder t p hp).1⟩
    · have hother := hk.live w q hq hl
      -- two live types have two holders
      rw [if_neg, hother]
      intro e
      rw [e.1, hk.live t p hp hlive] at hother
      exact hw (Option.some.inj hother).symm
  successor w q u hq hu := by
    rcases shape_supersede_cases hp hq with ⟨-, rfl⟩ | ⟨-, rfl⟩ | ⟨hw, -, hq⟩
    · cases hu
      exact ⟨_, shape_supersede_new hp target⟩
    · have hsucceeding := Standing.isSuperseded_of_target? (target?_standing s.graph p.observed target)
      rw [show standing s.graph p.observed target = .superseded u from hu] at hsucceeding
      cases hsucceeding
    · obtain ⟨st, hst⟩ := hk.successor w q u hq hu
      by_cases hut : u = t
      · subst hut
        obtain rfl := Shape.provisional.inj (hp.symm.trans hst)
        exact ⟨_, shape_supersede_former hp target⟩
      · exact ⟨st, shape_supersede_of_ne hp target hut hst⟩
  watched w q hq hl n hn := by
    rw [watches_supersede hk hp]
    rcases shape_supersede_cases hp hq with ⟨-, rfl⟩ | ⟨rfl, rfl⟩ | ⟨hw, -, hq⟩
    · cases hl
    · exact .inl ⟨rfl, hn⟩
    · exact .inr ⟨hk.watched w q hq hl n hn, fun e => hw e.1⟩
  watching n w hw := by
    rcases (watches_supersede hk hp target w n).mp hw with ⟨rfl, hn⟩ | ⟨hw, hnot⟩
    · exact ⟨_, shape_supersede_new hp target,
        Standing.isSuperseded_of_target? (target?_standing s.graph p.observed target), hn⟩
    · obtain ⟨q, hq, hl, hn⟩ := hk.watching n w hw
      refine ⟨q, shape_supersede_of_ne hp target (fun e => hnot ⟨e, ?_⟩) hq, hl, hn⟩
      subst e
      obtain rfl := Shape.provisional.inj (hp.symm.trans hq)
      exact hn

theorem shape_restand (hp : s.catalog.shape t = .provisional p) (target w : Ty) :
    (s.restand t p target).catalog.shape w =
      if w = t then .provisional { p with standing := standing s.graph p.observed target }
      else s.catalog.shape w := by
  show (s.catalog.setShape t _).shape w = _
  rw [shape_setShape]
  by_cases hw : w = t
  · rw [if_pos ⟨congrArg Ty.index hw, lt_size_of_provisional hp⟩, if_pos hw]
  · rw [if_neg fun e => hw (Ty.eq_of_index e.1), if_neg hw]

theorem Kept.restand (hk : s.Kept) (hp : s.catalog.shape t = .provisional p)
    (hlive : p.standing.isSuperseded = false) (target : Ty) : (s.restand t p target).Kept := by
  have hshape := shape_restand hp target
  have hstands : (standing s.graph p.observed target).isSuperseded = false :=
    Standing.isSuperseded_of_target? (target?_standing _ _ _)
  -- every entry has the place of an old one, which is as live
  have hcases : ∀ w q, (s.restand t p target).catalog.shape w = .provisional q →
      ∃ st, s.catalog.shape w = .provisional { q with standing := st } ∧
        st.isSuperseded = q.standing.isSuperseded ∧ (q.standing.isSuperseded = true →
          st = q.standing) := by
    intro w q hq
    rw [hshape] at hq
    split at hq
    · next hw =>
      obtain rfl := Shape.provisional.inj hq
      refine ⟨p.standing, hw ▸ hp, hlive.trans hstands.symm, fun hl => ?_⟩
      rw [hstands] at hl
      cases hl
    · exact ⟨q.standing, hq, rfl, fun _ => rfl⟩
  refine ⟨fun w q hq => ?_, fun w q hq => ?_, fun w q hq hl => ?_, fun w q u hq hu => ?_,
    fun w q hq hl => ?_, fun m w hw => ?_⟩
  · obtain ⟨st, hst, -⟩ := hcases w q hq
    exact hk.holder w { q with standing := st } hst
  · obtain ⟨st, hst, -⟩ := hcases w q hq
    exact hk.observed w { q with standing := st } hst
  · obtain ⟨st, hst, heq, -⟩ := hcases w q hq
    exact hk.live w { q with standing := st } hst (heq.trans hl)
  · obtain ⟨st, hst, -, hsame⟩ := hcases w q hq
    obtain ⟨st', hst'⟩ := hk.successor w { q with standing := st } u hst ((hsame (by rw [hu]; rfl)).trans hu)
    by_cases hut : u = t
    · subst hut
      obtain rfl := Shape.provisional.inj (hp.symm.trans hst')
      exact ⟨_, (hshape _).trans (if_pos rfl)⟩
    · exact ⟨st', (hshape u).trans ((if_neg hut).trans hst')⟩
  · obtain ⟨st, hst, heq, -⟩ := hcases w q hq
    exact hk.watched w { q with standing := st } hst (heq.trans hl)
  · obtain ⟨q, hq, hl, hm⟩ := hk.watching m w hw
    by_cases hwt : w = t
    · subst hwt
      obtain rfl := Shape.provisional.inj (hp.symm.trans hq)
      exact ⟨_, (hshape _).trans (if_pos rfl), hstands, hm⟩
    · exact ⟨q, (hshape w).trans ((if_neg hwt).trans hq), hl, hm⟩

/-- A specialization that is entered touches no provisional type. -/
theorem spares_instantiate (hs : s.Sound)
    (hc : s.catalog.instantiate template (bindings s.graph observed) = .ok (target, c)) :
    s.Spares ⟨c, s.graph⟩ where
  catalog := (hs.catalog.instantiate hs.bindings_lt hc).1.toGrows
  steady := instantiate_steady hc
  size := Nat.le_refl _
  watches _ _ := Iff.rfl
  holder _ _ _ := ⟨rfl, rfl⟩

theorem Kept.refresh (hk : s.Kept) (hs : s.Sound) {limit : Nat} {v : Unit}
    (h : Store.refresh t limit s = .ok v s') : s'.Kept := by
  obtain ⟨p, hp, ⟨-, rfl⟩ | ⟨former, target, c, hformer, hc, h⟩⟩ := refresh_ok h
  · exact hk
  · have hspares := spares_instantiate hs hc
    have hp₁ := hspares.shape_iff.mpr hp
    have hlive := Standing.isSuperseded_of_target? hformer
    rcases h with ⟨-, rfl⟩ | ⟨-, rfl⟩
    · exact (hk.spare hspares).restand hp₁ hlive target
    · exact (hk.spare hspares).supersede hp₁ hlive target

/-! ## Any work -/

/-- A store whose provisional types are kept, between two rounds of propagation. -/
structure Tended (s : Store) : Prop where
  sound : s.Sound
  balanced : s.Balanced []
  kept : s.Kept

/-- What a step of work can do: it touches no provisional type, or it is about one. -/
theorem Work.cases (h : s.Work s') (ht : s.Tended) :
    (s.Spares s' ∧ ∃ free, s.Advances free s') ∨
    (∃ template t observed holder, s.catalog.Definite template ∧ s.Vacant holder ∧
      (∀ b ∈ observed, b.2.index < s.graph.size) ∧
      Store.install template observed holder s = .ok t s') ∨
    ∃ t limit, Store.refresh t limit s = .ok () s' := by
  obtain ⟨hs, hb, hk⟩ := ht
  have spared : ∀ {free : Node → Prop} {s' : Store}, s.Advances free s' →
      s.catalog.Appends s'.catalog → (∀ n t, s'.Watches t n ↔ s.Watches t n) →
      (∀ t p, s.catalog.shape t = .provisional p → ¬ free p.holder) →
      s.Spares s' ∧ ∃ free, s.Advances free s' := fun ha happends hwatches hfree =>
    ⟨hk.spares_of_advances ha happends.steady hwatches hfree, _, ha⟩
  have untouched := @spared fun _ => False
  cases h with
  | add kind type place htype =>
    exact .inl (untouched (.add hs hb kind place htype) (.refl _)
      (fun _ _ => watches_add s kind type place) fun _ _ _ => id)
  | extend hext hsound happends =>
    exact .inl (untouched (.extend hs hb hext hsound) happends
      (fun _ _ => Iff.rfl) fun _ _ _ => id)
  | watch n site =>
    exact .inl (untouched (.rewatch hs hb (.watch _ n _)) (.refl _)
      (fun _ _ => watches_watch s n site) fun _ _ _ => id)
  | bind hn hd =>
    exact .inl (spared (.bind hs hb _ hd) (bind_appends s _ _) (fun _ _ => watches_bind s _ _)
      hn.unheld)
  | unbind d hn =>
    exact .inl (spared (.unbind hs hb _ d) (unbind_appends s _ d)
      (fun _ _ => watches_unbind s _ d) hn.unheld)
  | install htemplate hholder hobserved h =>
    exact .inr (.inl ⟨_, _, _, _, htemplate, hholder, hobserved, h⟩)
  | refresh h => exact .inr (.inr ⟨_, _, h⟩)

theorem Tended.work (ht : s.Tended) (h : s.Work s') : s'.Tended := by
  rcases h.cases ht with ⟨hspares, free, ha⟩ | ⟨_, _, _, _, htemplate, hholder, hobserved, h⟩ |
    ⟨t, limit, h⟩
  · exact ⟨ha.sound, ha.balanced, ht.kept.spare hspares⟩
  · exact ⟨(ht.sound.install htemplate h).1, ht.balanced.install ht.sound hholder.unbound h,
      ht.kept.install hholder hobserved h⟩
  · obtain ⟨hsound, -, hbalanced⟩ := ht.sound.refresh h
    obtain ⟨p, hp, -⟩ := refresh_ok h
    exact ⟨hsound, hbalanced p [] hp (ht.kept.holder t p hp).2 ht.balanced,
      ht.kept.refresh ht.sound h⟩

theorem Tended.works (ht : s.Tended) (h : s.Works s') : s'.Tended := by
  induction h with
  | refl => exact ht
  | tail _ hwork ih => exact ih.work hwork

/-! ## Standing for what is bound -/

/-- `u` is the specialization of the template of `p` for the types that its nodes have: it is known
by the bindings as they read in an earlier catalog. -/
def Current (s : Store) (p : Provisional) (u : Ty) : Prop :=
  p.standing = standing s.graph p.observed u ∧
    ∃ c : Catalog, c.Grows s.catalog ∧
      (∀ b ∈ bindings s.graph p.observed, b.2.index < c.size) ∧
      ∃ template, s.catalog.templateOf p.template = some template ∧
        s.catalog.specializations.get? (template, c.bindingKey (bindings s.graph p.observed)) =
          some u

/-- Every live provisional type stands for what its nodes bind, unless one of these has changed or
the type is still to react. -/
def Abreast (due : List Ty) (s : Store) : Prop :=
  ∀ t p u, s.catalog.shape t = .provisional p → p.standing.target? = some u →
    s.Current p u ∨ (∃ n ∈ sources p.observed, s.graph.dirtyAt n = true) ∨ t ∈ due

theorem bindings_congr {g' : Graph} (h : ∀ n ∈ sources observed, g'.typeAt n = g.typeAt n) :
    bindings g' observed = bindings g observed :=
  List.filterMap_congr fun b hb => by rw [h b.2 (mem_sources hb)]

theorem standing_congr {g' : Graph} (h : ∀ n ∈ sources observed, g'.typeAt n = g.typeAt n)
    (u : Ty) : standing g' observed u = standing g observed u := by
  have : isComplete g' observed = isComplete g observed := by
    unfold isComplete
    rw [Bool.eq_iff_iff, List.all_eq_true, List.all_eq_true]
    exact forall_congr' fun b => forall_congr' fun hb => by rw [h b.2 (mem_sources hb)]
  unfold standing
  rw [this]

theorem Current.keep (h : s.Current p u) (htemplate : s.catalog.Definite p.template)
    (hext : s.catalog.Extends s'.catalog) (hremembers : s.catalog.Remembers s'.catalog)
    (htypes : ∀ n ∈ sources p.observed, s'.graph.typeAt n = s.graph.typeAt n) :
    s'.Current p u := by
  obtain ⟨hstanding, c, hc, hlt, template, ht, hknown⟩ := h
  refine ⟨hstanding.trans (standing_congr htypes u).symm, c, hc.trans hext.toGrows, ?_, template,
    (hext.templateOf_eq htemplate).trans ht, ?_⟩
  · rw [bindings_congr htypes]
    exact hlt
  · rw [bindings_congr htypes]
    exact hremembers.known _ _ hknown

/-- What was just specialized for some bindings is current. -/
theorem current_of_instantiate (hs : s.Sound) (htemplate : s.catalog.Definite p.template)
    (hc : s.catalog.instantiate p.template (bindings s.graph p.observed) = .ok (target, c))
    (hext : c.Extends s'.catalog) (hremembers : c.Remembers s'.catalog)
    (htypes : ∀ n ∈ sources p.observed, s'.graph.typeAt n = s.graph.typeAt n)
    (hstanding : p.standing = standing s.graph p.observed target) : s'.Current p target := by
  obtain ⟨-, template, ht, hknown⟩ := hs.catalog.remembers_instantiate hc
  obtain ⟨hext', -⟩ := hs.catalog.instantiate hs.bindings_lt hc
  refine ⟨hstanding.trans (standing_congr htypes target).symm, s.catalog,
    (hext'.trans hext).toGrows, ?_, template,
    ((hext'.trans hext).templateOf_eq htemplate).trans ht, ?_⟩
  · rw [bindings_congr htypes]
    exact hs.bindings_lt
  · rw [bindings_congr htypes]
    exact hremembers.known _ _ hknown

/-- A type that was current stays so, or one of its nodes is dirty. -/
theorem Current.keep_or_dirty (h : s.Current p u) (htemplate : s.catalog.Definite p.template)
    (hext : s.catalog.Extends s'.catalog) (hremembers : s.catalog.Remembers s'.catalog)
    (htypes : ∀ n ∈ sources p.observed,
      s'.graph.typeAt n = s.graph.typeAt n ∨ s'.graph.dirtyAt n = true) :
    s'.Current p u ∨ ∃ n ∈ sources p.observed, s'.graph.dirtyAt n = true := by
  by_cases hdirty : ∃ n ∈ sources p.observed, s'.graph.dirtyAt n = true
  · exact .inr hdirty
  · exact .inl (h.keep htemplate hext hremembers fun n hn =>
      (htypes n hn).resolve_right fun hd => hdirty ⟨n, hn, hd⟩)

/-- What becomes of a type that was abreast while nodes change. -/
theorem Abreast.keep {due : List Ty} (h : s.Abreast due) (ht : s.Tended)
    {free : Node → Prop} (ha : s.Advances free s') (hremembers : s.catalog.Remembers s'.catalog)
    (hp : s.catalog.shape t = .provisional p) (hu : p.standing.target? = some u) :
    s'.Current p u ∨ (∃ n ∈ sources p.observed, s'.graph.dirtyAt n = true) ∨ t ∈ due := by
  rcases h t p u hp hu with hcurrent | ⟨n, hn, hd⟩ | hdue
  · refine (hcurrent.keep_or_dirty (ht.sound.definite_template hp) ha.catalog hremembers
      fun n hn => ?_).imp_right .inl
    obtain ⟨b, hb, rfl⟩ := List.mem_map.mp hn
    exact ha.types b.2 (ht.kept.observed t p hp b hb)
  · exact .inr (.inl ⟨n, hn, ha.dirty n hd⟩)
  · exact .inr (.inr hdue)

/-! ## Any work -/

theorem Abreast.install {due : List Ty} (h : s.Abreast due) (ht : s.Tended)
    (htemplate : s.catalog.Definite template) (hholder : s.Vacant holder)
    (hi : Store.install template observed holder s = .ok t s') : s'.Abreast due := by
  have ha := Advances.install ht.sound ht.balanced htemplate hholder.unbound hi
  have hremembers := remembers_install ht.sound hi
  obtain ⟨target, c, hc, rfl, rfl⟩ := install_ok hi
  intro w q u hq hu
  rcases (shape_installed hc).mp hq with ⟨rfl, rfl⟩ | hq
  · obtain rfl : target = u := Option.some.inj ((target?_standing _ _ _).symm.trans hu)
    -- the new type is current, unless its own holder is among the nodes that bind it
    have hcurrent : Current ⟨(c.push (.provisional
          (installed s.graph template observed holder target))).2, s.graph⟩
        (installed s.graph template observed holder target) target :=
      current_of_instantiate ht.sound htemplate hc (.push c fun k u h => by cases h) (.push c _)
        (fun _ _ => rfl) rfl
    refine Or.imp_right .inl (hcurrent.keep_or_dirty ?_ (.refl _) (.refl _) fun n _ => ?_)
    · exact ha.catalog.toGrows.definite htemplate
    · have hrw := watchAll_rewatches s.graph observed ⟨c.size⟩
      exact (Graph.typeAt_retype_eq_or_dirty _ holder n _).imp_left fun e => e.trans (hrw.typeAt n)
  · exact h.keep ht ha hremembers hq hu

/-- A type that reacts catches up. -/
theorem Abreast.refresh {due due' : List Ty} (h : s.Abreast due) (ht : s.Tended) {limit : Nat}
    {v : Unit} (hrefresh : Store.refresh t limit s = .ok v s')
    (hdue : ∀ u ∈ due, u = t ∨ u ∈ due') : s'.Abreast due' := by
  obtain ⟨p, hp, ⟨hnone, rfl⟩ | ⟨former, target, c, hformer, hc, hcases⟩⟩ := refresh_ok hrefresh
  · intro w q u hq hu
    refine (h w q u hq hu).imp_right (.imp_right fun hw => (hdue w hw).resolve_left ?_)
    rintro rfl
    obtain rfl := Shape.provisional.inj (hp.symm.trans hq)
    rw [hnone] at hu
    cases hu
  · obtain ⟨hext, hsound, _, -, hspec⟩ := ht.sound.catalog.instantiate ht.sound.bindings_lt hc
    have hs₁ := ht.sound.extend hext.toGrows hsound
    have hb₁ : Balanced ⟨c, s.graph⟩ [] := ht.balanced.extend hext.toGrows
    have hp₁ : c.shape t = .provisional p := (spares_instantiate ht.sound hc).shape_iff.mpr hp
    have htemplate := ht.sound.definite_template hp
    have hremembers := remembers_refresh ht.sound hrefresh
    rcases hcases with ⟨rfl, rfl⟩ | ⟨-, rfl⟩
    · obtain ⟨hs₂, hext₂⟩ := hs₁.restand hp₁ hformer
      have ha : s.Advances (fun _ => False) (restand ⟨c, s.graph⟩ t p target) :=
        .extend ht.sound ht.balanced (hext.trans hext₂) hs₂.catalog
      intro w q u hq hu
      have hq' := (shape_restand hp₁ target w).symm.trans hq
      split at hq'
      · cases hq'
        obtain rfl : target = u := Option.some.inj ((target?_standing _ _ _).symm.trans hu)
        exact .inl (current_of_instantiate (p := { p with standing := _ }) ht.sound htemplate hc
          hext₂ (remembers_setStanding hp₁ _) (fun _ _ => rfl) rfl)
      · next hw =>
        have hq₀ := (spares_instantiate ht.sound hc).shape_iff.mp hq'
        exact (h.keep ht ha hremembers hq₀ hu).imp_right
          (.imp_right fun hmem => (hdue w hmem).resolve_left hw)
    · have hdeps := (ht.kept.holder t p hp).2
      have ha₁ : s.Advances (· = p.holder) ⟨c, s.graph⟩ :=
        .extend ht.sound ht.balanced hext hsound
      have ha₂ := Advances.supersede hs₁ hb₁ hp₁ hspec.definite hformer hdeps
      have hext₂ := (hs₁.supersede hp₁ hspec.definite hformer).2
      intro w q u hq hu
      have hq' := (shape_superseding hp₁ s.graph target w).symm.trans hq
      split at hq'
      · cases hq'
        cases hu
      · next hw =>
        split at hq'
        · cases hq'
          obtain rfl : target = u := Option.some.inj ((target?_standing _ _ _).symm.trans hu)
          -- the successor is current, unless its own holder is among the nodes that bind it
          have hcurrent : Current ⟨superseding c s.graph t p target, s.graph⟩
              (succeeding s.graph p target) target :=
            current_of_instantiate (p := succeeding s.graph p target) ht.sound htemplate hc hext₂
              (remembers_superseding hp₁ _ _) (fun _ _ => rfl) rfl
          refine Or.imp_right .inl
            (hcurrent.keep_or_dirty ?_ (.refl _) (.refl _) fun n hn => ?_)
          · exact (hext.trans hext₂).toGrows.definite htemplate
          · obtain ⟨b, hb, rfl⟩ := List.mem_map.mp hn
            exact ha₂.types b.2 (ht.kept.observed t p hp b hb)
        · have hq₀ := (spares_instantiate ht.sound hc).shape_iff.mp hq'
          exact (h.keep ht (ha₁.trans ha₂) hremembers hq₀ hu).imp_right
            (.imp_right fun hmem => (hdue w hmem).resolve_left hw)

theorem Abreast.work {due : List Ty} (h : s.Abreast due) (ht : s.Tended) (hwork : s.Work s') :
    s'.Abreast due := by
  have hremembers := hwork.remembers ht.sound
  rcases hwork.cases ht with ⟨hspares, free, ha⟩ | ⟨_, _, _, _, htemplate, hholder, -, hi⟩ |
    ⟨t, limit, hrefresh⟩
  · exact fun t p u hp hu => h.keep ht ha hremembers (hspares.shape_iff.mp hp) hu
  · exact h.install ht htemplate hholder hi
  · exact h.refresh ht hrefresh fun _ hu => .inr hu

theorem Abreast.works {due : List Ty} (h : s.Abreast due) (ht : s.Tended) (hworks : s.Works s') :
    s'.Abreast due := by
  induction hworks with
  | refl => exact h
  | tail hbefore hwork ih => exact ih.work (ht.works hbefore) hwork

/-! ## Rounds of propagation -/

/-- The provisional types that are woken. -/
def wokenTypes (wakes : List Wake) : List Ty :=
  wakes.filterMap fun
    | .site _ => none
    | .provisional t => some t

theorem mem_wokenTypes {wakes : List Wake} : t ∈ wokenTypes wakes ↔ .provisional t ∈ wakes := by
  unfold wokenTypes
  rw [List.mem_filterMap]
  constructor
  · rintro ⟨w, hw, heq⟩
    cases w <;> cases heq
    exact hw
  · exact fun h => ⟨_, h, rfl⟩

theorem propagate_appends {wakes : List Wake} (h : Store.propagate s = .ok wakes s') :
    s.catalog.Appends s'.catalog :=
  drain_keeps (fun t => s.catalog.Appends t.catalog)
    (fun t n hold => hold.trans (recompute_appends t n)) (fun _ _ _ _ _ hold => hold) (.refl _) h

theorem Tended.propagate (ht : s.Tended) {wakes : List Wake}
    (h : Store.propagate s = .ok wakes s') : s'.Tended := by
  have hp := propagate_ok ht.sound.formed ht.balanced h
  exact ⟨ht.sound.propagate h, hp.balanced,
    ht.kept.spare (hp.flows.spares ht.kept (propagate_appends h).steady)⟩

/-- A round of propagation leaves behind only those provisional types that it wakes. -/
theorem Abreast.propagate (h : s.Abreast []) (ht : s.Tended) {wakes : List Wake}
    (hpropagate : Store.propagate s = .ok wakes s') : s'.Abreast (wokenTypes wakes) := by
  have hp := propagate_ok ht.sound.formed ht.balanced hpropagate
  have happends := propagate_appends hpropagate
  intro t p u hq hu
  have hq := (hp.flows.spares ht.kept happends.steady).shape_iff.mp hq
  by_cases hwoken : .provisional t ∈ wakes
  · exact .inr (.inr (mem_wokenTypes.mpr hwoken))
  · -- a type that was not woken watches only nodes that were not dirty and keep their types
    have hlive := Standing.isSuperseded_of_target? hu
    have hunseen : ∀ n ∈ sources p.observed,
        s.graph.dirtyAt n = false ∧ s'.graph.typeAt n = s.graph.typeAt n := fun n hn =>
      hp.unseen n _ (ht.kept.watched t p hq hlive n hn) (.provisional t) rfl hwoken
    rcases h t p u hq hu with hcurrent | ⟨n, hn, hd⟩ | hdue
    · exact .inl (hcurrent.keep (ht.sound.definite_template hq) hp.flows.catalog
        happends.remembers fun n hn => (hunseen n hn).2)
    · rw [(hunseen n hn).1] at hd
      cases hd
    · cases hdue

/-! ## What provisional types end with -/

/-- A provisional type that is current stands for what its template is specialized to by the types
of its nodes, if none of these has been superseded. -/
theorem Current.instantiate (h : s.Current p u)
    (hstands : ∀ n ∈ sources p.observed, ∀ t, s.graph.typeAt n = some t →
      s.catalog.isSuperseded t = false) :
    s.catalog.instantiate p.template (bindings s.graph p.observed) = .ok (u, s.catalog) := by
  obtain ⟨-, c, hc, hlt, template, htemplate, hknown⟩ := h
  refine instantiate_of_known htemplate ?_
  have hkey : s.catalog.bindingKey (bindings s.graph p.observed) =
      c.bindingKey (bindings s.graph p.observed) := by
    unfold bindingKey
    refine congrArg sortBindings (List.map_congr_left fun b hb => ?_)
    obtain ⟨binding, hbinding, heq⟩ := List.mem_filterMap.mp hb
    obtain ⟨t, ht, rfl⟩ := Option.map_eq_some_iff.mp heq
    rw [hc.resolve_eq (hlt _ hb) (hstands _ (mem_sources hbinding) t ht)]
  rw [hkey]
  exact hknown

/-- `u` took the place of `t`. -/
def Succeeds (s : Store) (t u : Ty) : Prop :=
  ∃ p, s.catalog.shape t = .provisional p ∧ p.standing = .superseded u

/-- The last of the types that succeed one another from `t` on. -/
theorem exists_last (hlinked : Linked s.catalog) (hgrounded : s.catalog.Grounded)
    (hp : s.catalog.shape t = .provisional p) :
    ∃ last q, s.catalog.shape last = .provisional q ∧ q.standing.isSuperseded = false ∧
      ReflTransGen s.Succeeds t last ∧ q.template = p.template ∧ q.observed = p.observed ∧
      q.holder = p.holder := by
  -- successors come later in the catalog
  induction hdist : s.catalog.size - t.index using Nat.strong_induction_on generalizing t p with
  | h distance ih =>
    cases hstanding : p.standing with
    | superseded u =>
      obtain ⟨st, hst⟩ := hlinked t p u hp hstanding
      have hlater := hgrounded t p hp
      rw [hstanding] at hlater
      have hlt := lt_size_of_provisional hst
      obtain ⟨last, q, hq, hl, hpath, htemplate, hobserved, hholder⟩ :=
        ih (s.catalog.size - u.index) (by have := hlater.1; omega) hst rfl
      exact ⟨last, q, hq, hl, .head ⟨p, hp, hstanding⟩ hpath, htemplate, hobserved, hholder⟩
    | pending u => exact ⟨t, p, hp, by rw [hstanding]; rfl, .refl, rfl, rfl, rfl⟩
    | settled u => exact ⟨t, p, hp, by rw [hstanding]; rfl, .refl, rfl, rfl, rfl⟩

end FlowTyping.Store
