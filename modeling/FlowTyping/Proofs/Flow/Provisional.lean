import FlowTyping.Flow.Provisional
import FlowTyping.Proofs.Flow.Operations
import FlowTyping.Proofs.Steps

/-
  What happens to provisional types

  A provisional type is installed on its holder, keeps its place with another
  standing, or is superseded by a successor on the same holder. All three keep a
  store sound, and balanced as long as the holder has no dependencies.
-/
namespace FlowTyping.Store

open Catalog Steps

variable {s s' : Store} {due : List Node} {t template target : Ty} {holder : Node} {limit : Nat}
  {observed : List (String × Node)} {c : Catalog} {p : Provisional}

theorem target?_standing (g : Graph) (observed : List (String × Node)) (target : Ty) :
    (standing g observed target).target? = some target := by
  unfold standing
  split <;> rfl

theorem Sound.bindings_lt (hs : s.Sound) :
    ∀ b ∈ bindings s.graph observed, b.2.index < s.catalog.size := by
  intro b hb
  obtain ⟨binding, -, heq⟩ := List.mem_filterMap.mp hb
  obtain ⟨u, hu, rfl⟩ := Option.map_eq_some_iff.mp heq
  exact hs.typed binding.2 u hu

theorem specializationFor_ok {target : Ty}
    (h : specializationFor template observed s = .ok target s') :
    ∃ c, s.catalog.instantiate template (bindings s.graph observed) = .ok (target, c) ∧
      s' = ⟨c, s.graph⟩ := by
  unfold specializationFor at h
  split at h
  · next u c heq => cases h; exact ⟨c, heq, rfl⟩
  · cases h

/-! ## Watching the nodes that bind -/

theorem watchAll_rewatches (g : Graph) (observed : List (String × Node)) (t : Ty) :
    g.Rewatches (watchAll g observed t) := by
  unfold watchAll
  induction observed generalizing g with
  | nil => exact .refl g
  | cons b observed ih => exact (Graph.Rewatches.watch g b.2 _).trans (ih _)

theorem handOver_rewatches (g : Graph) (observed : List (String × Node)) (former successor : Ty) :
    g.Rewatches (handOver g observed former successor) := by
  unfold handOver
  induction observed generalizing g with
  | nil => exact .refl g
  | cons b observed ih =>
    exact ((Graph.Rewatches.unwatch g b.2 former).trans (.watch _ b.2 _)).trans (ih _)

/-! ## Installing -/

/-- The entry of a provisional type that stands for `target`. -/
def installed (g : Graph) (template : Ty) (observed : List (String × Node)) (holder : Node)
    (target : Ty) : Provisional :=
  ⟨template, observed, holder, standing g observed target, 0⟩

theorem install_ok (h : install template observed holder s = .ok t s') :
    ∃ target c, s.catalog.instantiate template (bindings s.graph observed) = .ok (target, c) ∧
      t = ⟨c.size⟩ ∧
      s' = ⟨(c.push (.provisional (installed s.graph template observed holder target))).2,
        (watchAll s.graph observed t).retype holder t⟩ := by
  obtain ⟨target, s₁, h₁, h₂⟩ := bind_ok.mp h
  obtain ⟨c, hc, rfl⟩ := specializationFor_ok h₁
  obtain ⟨rfl, rfl⟩ := modifyGet_ok.mp h₂
  exact ⟨target, c, hc, rfl, rfl⟩

/-- There is a specialization of what is generic for any bindings. -/
theorem exists_instantiate {v : Ty} (h : c.templateOf t = some v) (bindings : List (String × Ty)) :
    ∃ target c', c.instantiate t bindings = .ok (target, c') := by
  unfold Catalog.instantiate
  rw [h]
  dsimp only
  split <;> exact ⟨_, _, rfl⟩

theorem exists_specializationFor {v : Ty} (h : s.catalog.templateOf template = some v)
    (observed : List (String × Node)) :
    ∃ target c, specializationFor template observed s = .ok target ⟨c, s.graph⟩ := by
  obtain ⟨target, c, hc⟩ := exists_instantiate h (bindings s.graph observed)
  refine ⟨target, c, ?_⟩
  unfold specializationFor
  rw [hc]

/-- A provisional type of what is generic can be installed. -/
theorem exists_install {v : Ty} (h : s.catalog.templateOf template = some v)
    (observed : List (String × Node)) (holder : Node) :
    ∃ t s', install template observed holder s = .ok t s' := by
  obtain ⟨target, c, hc⟩ := exists_specializationFor h observed
  exact ⟨_, _, bind_ok.mpr ⟨target, _, hc, modifyGet_ok.mpr ⟨rfl, rfl⟩⟩⟩

/-- An entry for a provisional type may be added that stands for a definite type. -/
theorem sound_push_provisional (hc : c.Sound)
    (htarget : ∃ u, p.standing.target? = some u ∧ c.Definite u) (htemplate : c.Definite p.template) :
    (c.push (.provisional p)).2.Sound :=
  hc.push htarget (fun u hu => by rw [List.mem_singleton.mp hu]; exact htemplate) trivial

/-- What a store becomes when a provisional type is installed. -/
theorem Sound.install (hs : s.Sound) (htemplate : s.catalog.Definite template)
    (h : install template observed holder s = .ok t s') :
    s'.Sound ∧ s.catalog.Extends s'.catalog := by
  obtain ⟨target, c, hc, rfl, rfl⟩ := install_ok h
  obtain ⟨hext, hsound, u, -, hspec⟩ := hs.catalog.instantiate hs.bindings_lt hc
  have hpush := sound_push_provisional
    (p := installed s.graph template observed holder target) hsound
    ⟨target, target?_standing _ _ _, hspec.definite⟩ (hext.toGrows.definite htemplate)
  have hall := hext.trans (.push c
    (s := .provisional (installed s.graph template observed holder target)) fun k u h => by cases h)
  refine ⟨?_, hall⟩
  refine ((hs.extend hall.toGrows hpush).rewatch (watchAll_rewatches _ _ _)).retype holder ?_
  show c.size < (c.push _).2.size
  rw [size_push]
  exact Nat.lt_succ_self _

theorem Balanced.install (hb : s.Balanced due) (hs : s.Sound)
    (hdeps : s.graph.dependencies holder = [])
    (h : install template observed holder s = .ok t s') : s'.Balanced due := by
  obtain ⟨target, c, hc, rfl, rfl⟩ := install_ok h
  obtain ⟨hext, -⟩ := hs.catalog.instantiate hs.bindings_lt hc
  have hrw := watchAll_rewatches s.graph observed ⟨c.size⟩
  refine ((hb.extend (hext.toGrows.trans (.push c _))).rewatch hrw).retype ?_ _
  exact (hrw.dependencies holder).trans hdeps

/-! ## Reacting to changes -/

/-- All that a provisional type can do: nothing if it is superseded, keep its place if it still
stands for the right specialization, and else give it to a successor. -/
theorem refresh_ok {u : Unit} (h : refresh t limit s = .ok u s') :
    ∃ p, s.catalog.shape t = .provisional p ∧
      ((p.standing.target? = none ∧ s' = s) ∨
      ∃ former target c, p.standing.target? = some former ∧
        s.catalog.instantiate p.template (bindings s.graph p.observed) = .ok (target, c) ∧
        ((target = former ∧ s' = restand ⟨c, s.graph⟩ t p target) ∨
          (target ≠ former ∧ s' = supersede ⟨c, s.graph⟩ t p target))) := by
  have h₁ := get_bind_ok.mp h
  generalize Catalog.shape _ t = shape at h₁
  cases shape with
  | provisional p =>
    refine ⟨p, rfl, ?_⟩
    cases hformer : p.standing.target? with
    | none =>
      simp only [hformer] at h₁
      exact .inl ⟨rfl, (pure_ok.mp h₁).2.symm⟩
    | some former =>
      simp only [hformer] at h₁
      obtain ⟨target, _, h₂, h₃⟩ := bind_ok.mp h₁
      obtain ⟨c, hc, rfl⟩ := specializationFor_ok h₂
      refine .inr ⟨former, target, c, rfl, hc, ?_⟩
      split at h₃
      · next heq => exact .inl ⟨heq, (modify_ok.mp h₃).symm⟩
      · next hne =>
        split at h₃
        · obtain ⟨_, _, -, h₄⟩ := bind_ok.mp h₃
          exact (throw_ok.mp h₄).elim
        · exact .inr ⟨hne, (modify_ok.mp h₃).symm⟩
  | _ => exact (throw_ok.mp h₁).elim

theorem allows_of_target {st : Standing} (h : p.standing.target? = some target)
    (hst : st.isSuperseded = true ∨ st.target? = some target) : p.standing.Allows st := by
  cases hp : p.standing <;> simp_all [Standing.Allows, Standing.target?]

/-- A provisional type keeps its place. -/
theorem Sound.restand (hs : s.Sound) (hp : s.catalog.shape t = .provisional p)
    (htarget : p.standing.target? = some target) :
    (s.restand t p target).Sound ∧ s.catalog.Extends (s.restand t p target).catalog := by
  have hallows : p.standing.Allows (standing s.graph p.observed target) :=
    allows_of_target htarget (.inr (target?_standing _ _ _))
  have hext : s.catalog.Extends (s.catalog.setShape t
      (.provisional { p with standing := standing s.graph p.observed target })) :=
    .setShape (by rw [hp]; exact .standing p _ hallows)
  refine ⟨hs.extend hext.toGrows (hs.catalog.setStanding hp hallows fun u hu => ?_), hext⟩
  have := target?_standing s.graph p.observed target
  rw [hu] at this
  cases this

/-- The entry of the successor of a provisional type. -/
def succeeding (g : Graph) (p : Provisional) (target : Ty) : Provisional :=
  { p with standing := standing g p.observed target, generation := p.generation + 1 }

/-- The catalog after a provisional type has been superseded. -/
def superseding (c : Catalog) (g : Graph) (t : Ty) (p : Provisional) (target : Ty) : Catalog :=
  (c.push (.provisional (succeeding g p target))).2.setShape t
    (.provisional { p with standing := .superseded ⟨c.size⟩ })

theorem supersede_eq (s : Store) (t : Ty) (p : Provisional) (target : Ty) :
    s.supersede t p target = ⟨superseding s.catalog s.graph t p target,
      handOver (s.graph.retype p.holder ⟨s.catalog.size⟩) p.observed t ⟨s.catalog.size⟩⟩ := rfl

theorem shape_superseding {c : Catalog} (hp : c.shape t = .provisional p) (g : Graph) (target w : Ty) :
    (superseding c g t p target).shape w =
      if w = t then .provisional { p with standing := .superseded ⟨c.size⟩ }
      else if w = ⟨c.size⟩ then .provisional (succeeding g p target) else c.shape w := by
  have ht := lt_size_of_provisional hp
  unfold superseding
  rw [shape_setShape, size_push, shape_push]
  by_cases hw : w = t
  · rw [if_pos ⟨congrArg Ty.index hw, Nat.lt_succ_of_lt ht⟩, if_pos hw]
  · rw [if_neg fun h => hw (Ty.eq_of_index h.1), if_neg hw]
    by_cases hn : w = ⟨c.size⟩
    · rw [if_pos (congrArg Ty.index hn), if_pos hn]
    · rw [if_neg fun h => hn (Ty.eq_of_index h), if_neg hn]

/-! ### What superseding a type leaves -/

theorem size_supersede (s : Store) (t : Ty) (p : Provisional) (target : Ty) :
    (s.supersede t p target).graph.size = s.graph.size :=
  (handOver_rewatches _ _ _ _).size.trans (Graph.size_retype _ _ _)

theorem kind_supersede (s : Store) (t : Ty) (p : Provisional) (target : Ty) (n : Node) :
    ((s.supersede t p target).graph.cell n).kind = (s.graph.cell n).kind :=
  ((handOver_rewatches _ _ _ _).kind n).trans (Graph.kind_retype _ _ _ _)

theorem dependencies_supersede (s : Store) (t : Ty) (p : Provisional) (target : Ty) (n : Node) :
    (s.supersede t p target).graph.dependencies n = s.graph.dependencies n :=
  ((handOver_rewatches _ _ _ _).dependencies n).trans (Graph.dependencies_retype _ _ _ _)

theorem typeAt_supersede (s : Store) (t : Ty) (p : Provisional) (target : Ty) (n : Node) :
    (s.supersede t p target).graph.typeAt n =
      if n = p.holder ∧ p.holder.index < s.graph.size then some ⟨s.catalog.size⟩
      else s.graph.typeAt n :=
  ((handOver_rewatches _ _ _ _).typeAt n).trans (Graph.typeAt_retype _ _ _ _)

/-- A provisional type is the former one, its successor, or as it was before. -/
theorem shape_supersede_cases (hp : s.catalog.shape t = .provisional p) {w : Ty} {q : Provisional}
    (hq : (s.supersede t p target).catalog.shape w = .provisional q) :
    (w = t ∧ q = { p with standing := .superseded ⟨s.catalog.size⟩ }) ∨
      (w = ⟨s.catalog.size⟩ ∧ q = succeeding s.graph p target) ∨
      (w ≠ t ∧ w ≠ ⟨s.catalog.size⟩ ∧ s.catalog.shape w = .provisional q) := by
  have hq := (shape_superseding hp s.graph target w).symm.trans hq
  split at hq
  · next hw => exact .inl ⟨hw, (Shape.provisional.inj hq).symm⟩
  · next hw =>
    split at hq
    · next hw' => exact .inr (.inl ⟨hw', (Shape.provisional.inj hq).symm⟩)
    · next hw' => exact .inr (.inr ⟨hw, hw', hq⟩)

theorem shape_supersede_former (hp : s.catalog.shape t = .provisional p) (target : Ty) :
    (s.supersede t p target).catalog.shape t =
      .provisional { p with standing := .superseded ⟨s.catalog.size⟩ } :=
  (shape_superseding hp s.graph target t).trans (if_pos rfl)

theorem shape_supersede_new (hp : s.catalog.shape t = .provisional p) (target : Ty) :
    (s.supersede t p target).catalog.shape ⟨s.catalog.size⟩ =
      .provisional (succeeding s.graph p target) := by
  refine (shape_superseding hp s.graph target _).trans ?_
  rw [if_neg, if_pos rfl]
  exact fun e => Nat.ne_of_gt (lt_size_of_provisional hp) (congrArg Ty.index e)

/-- The other provisional types stay as they are. -/
theorem shape_supersede_of_ne (hp : s.catalog.shape t = .provisional p) (target : Ty) {w : Ty}
    {q : Provisional} (hw : w ≠ t) (hq : s.catalog.shape w = .provisional q) :
    (s.supersede t p target).catalog.shape w = .provisional q := by
  refine (shape_superseding hp s.graph target w).trans ?_
  rw [if_neg hw, if_neg, hq]
  exact fun e => Nat.ne_of_lt (lt_size_of_provisional hq) (congrArg Ty.index e)

theorem superseding_extends (hp : c.shape t = .provisional p) (g : Graph) (target : Ty) {former : Ty}
    (hformer : p.standing.target? = some former) : c.Extends (superseding c g t p target) := by
  have hpush : c.Extends (c.push (.provisional (succeeding g p target))).2 :=
    .push c fun k u h => by cases h
  have ht := lt_size_of_provisional hp
  have hold : (c.push (.provisional (succeeding g p target))).2.shape t = .provisional p := by
    rw [shape_push, if_neg (Nat.ne_of_lt ht), hp]
  exact hpush.trans (.setShape (by
    rw [hold]
    exact .standing p _ (allows_of_target hformer (.inl rfl))))

theorem sound_superseding (hc : c.Sound) (hp : c.shape t = .provisional p) (g : Graph)
    (htarget : c.Definite target) {former : Ty} (hformer : p.standing.target? = some former) :
    (superseding c g t p target).Sound := by
  have ht := lt_size_of_provisional hp
  have hpush := sound_push_provisional (p := succeeding g p target) hc
    ⟨target, target?_standing _ _ _, htarget⟩
    (hc.shapes t p.template (by rw [hp]; exact List.mem_singleton_self _))
  refine hpush.setStanding ?_ (allows_of_target hformer (.inl rfl)) fun u hu => ?_
  · rw [shape_push, if_neg (Nat.ne_of_lt ht), hp]
  · cases hu
    refine ⟨ht, ?_⟩
    rw [shape_push, if_pos rfl]
    rfl

/-- A provisional type gives its place to a successor. -/
theorem Sound.supersede (hs : s.Sound) (hp : s.catalog.shape t = .provisional p)
    (htarget : s.catalog.Definite target) {former : Ty}
    (hformer : p.standing.target? = some former) :
    (s.supersede t p target).Sound ∧ s.catalog.Extends (s.supersede t p target).catalog := by
  have hext := superseding_extends hp s.graph target hformer
  rw [supersede_eq]
  refine ⟨?_, hext⟩
  have hsound := hs.extend hext.toGrows (sound_superseding hs.catalog hp s.graph htarget hformer)
  refine (hsound.retype p.holder ?_).rewatch (handOver_rewatches _ _ _ _)
  show s.catalog.size < (superseding s.catalog s.graph t p target).size
  unfold superseding
  rw [size_setShape, size_push]
  exact Nat.lt_succ_self _

theorem Balanced.supersede (hb : s.Balanced due) (hp : s.catalog.shape t = .provisional p)
    {former : Ty} (hformer : p.standing.target? = some former)
    (hdeps : s.graph.dependencies p.holder = []) : (s.supersede t p target).Balanced due := by
  rw [supersede_eq]
  have hext := superseding_extends hp s.graph target hformer
  exact ((hb.extend hext.toGrows).retype hdeps _).rewatch (handOver_rewatches _ _ _ _)

/-- A reaction of a provisional type whose holder has no dependencies. -/
theorem Sound.refresh (hs : s.Sound) {u : Unit} (h : refresh t limit s = .ok u s') :
    s'.Sound ∧ s.catalog.Extends s'.catalog ∧
      ∀ p due, s.catalog.shape t = .provisional p → s.graph.dependencies p.holder = [] →
        s.Balanced due → s'.Balanced due := by
  obtain ⟨p, hp, h | ⟨former, target, c, hformer, hc, h⟩⟩ := refresh_ok h
  · rw [h.2]
    exact ⟨hs, .refl _, fun _ _ _ _ hb => hb⟩
  · obtain ⟨hext, hsound, u, -, hspec⟩ := hs.catalog.instantiate hs.bindings_lt hc
    have hs₁ := hs.extend hext.toGrows hsound
    have hp₁ : c.shape t = .provisional p := by
      rw [shape_instantiate hc (lt_size_of_provisional hp), hp]
    have key : ∀ q, s.catalog.shape t = .provisional q → q = p := by
      intro q hq
      rw [hp] at hq
      cases hq
      rfl
    rcases h with ⟨rfl, rfl⟩ | ⟨-, rfl⟩
    · obtain ⟨hs₂, hext₂⟩ := hs₁.restand hp₁ hformer
      exact ⟨hs₂, hext.trans hext₂, fun _ _ _ _ hb =>
        (hb.extend (hext.trans hext₂).toGrows)⟩
    · obtain ⟨hs₂, hext₂⟩ := hs₁.supersede hp₁ hspec.definite hformer
      refine ⟨hs₂, hext.trans hext₂, fun q due hq hdeps hb => ?_⟩
      rw [key q hq] at hdeps
      exact (hb.extend hext.toGrows).supersede hp₁ hformer hdeps

end FlowTyping.Store
