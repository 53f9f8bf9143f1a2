import FlowTyping.Proofs.Catalog.Selection
import FlowTyping.Proofs.Flow.Advance

/-
  What holds a provisional type

  The node that a provisional type was made for always has a provisional type
  of its line: of the same template and for the same node, and standing for a
  specialization of that template (`Store.Live`). Installing adds a line on a
  node that had none, and refreshing keeps each line going.
-/
namespace FlowTyping

namespace Catalog

theorem Extends.templateOf_eq {c c' : Catalog} (h : c.Extends c') {t : Ty} (ht : c.Definite t) :
    c'.templateOf t = c.templateOf t := by
  have hb := h.becomes ht
  unfold templateOf
  rw [h.resolve_eq ht]
  generalize c.resolvedShape t = a at hb ⊢
  generalize c'.resolvedShape t = b at hb ⊢
  cases hb <;> rfl

end Catalog

namespace Store

open Catalog

variable {s s' : Store} {free : Node → Prop} {p : Provisional} {t template : Ty} {holder : Node}
  {observed : List (String × Node)}

/-- The line of `p` goes on: its holder has a type of the line that stands for a specialization. -/
structure Line (s : Store) (p : Provisional) (t : Ty) (q : Provisional) (u : Ty) : Prop where
  type : s.graph.typeAt p.holder = some t
  shape : s.catalog.shape t = .provisional q
  template : q.template = p.template
  holder : q.holder = p.holder
  target : q.standing.target? = some u
  specializes : ∃ v, s.catalog.templateOf p.template = some v ∧ s.catalog.Specializes u v

def Live (s : Store) (p : Provisional) : Prop := ∃ t q u, s.Line p t q u

/-- All lines go on. -/
def Held (s : Store) : Prop := ∀ t p, s.catalog.shape t = .provisional p → s.Live p

theorem Sound.definite_template (hs : s.Sound) (hp : s.catalog.shape t = .provisional p) :
    s.catalog.Definite p.template :=
  hs.catalog.shapes t p.template (by rw [hp]; exact List.mem_singleton_self _)

/-- A line goes on if its holder keeps its type and that type its target. -/
theorem Live.keep (h : s.Live p) (hs : s.Sound) (hext : s.catalog.Extends s'.catalog)
    (htype : s'.graph.typeAt p.holder = s.graph.typeAt p.holder)
    (hshape : ∀ t q u, s.catalog.shape t = .provisional q → q.standing.target? = some u →
      ∃ st, s'.catalog.shape t = .provisional { q with standing := st } ∧ st.target? = some u) :
    s'.Live p := by
  obtain ⟨t, q, u, h⟩ := h
  obtain ⟨st, hst, hu⟩ := hshape t q u h.shape h.target
  obtain ⟨v, hv, hspec⟩ := h.specializes
  refine ⟨t, _, u, htype.trans h.type, hst, h.template, h.holder, hu, v, ?_,
    hext.toGrows.specializes hspec⟩
  rw [hext.templateOf_eq (h.template ▸ hs.definite_template h.shape), hv]

/-- Lines go on where no provisional type is touched and no holder is bound. -/
theorem Held.advance (h : s.Held) (hs : s.Sound) (ha : s.Advances free s')
    (hsteady : s.catalog.Steady s'.catalog)
    (hkept : ∀ t p, s.catalog.shape t = .provisional p → p.holder.index < s.graph.size ∧
      ¬ free p.holder ∧ s.graph.dependencies p.holder = []) : s'.Held := by
  intro t p hp
  have hp₀ := hsteady t p hp
  obtain ⟨hlt, hfree, hdeps⟩ := hkept t p hp₀
  refine (h t p hp₀).keep hs ha.catalog (ha.held p.holder hlt hfree hdeps) fun t q u hq hu => ?_
  exact ⟨q.standing, (hsteady.provisional_iff ha.catalog.toGrows).mpr hq, hu⟩

/-! ## Installing -/

theorem Advances.install (hs : s.Sound) (hb : s.Balanced []) (htemplate : s.catalog.Definite template)
    (hdeps : s.graph.dependencies holder = [])
    (h : Store.install template observed holder s = .ok t s') : s.Advances (· = holder) s' := by
  obtain ⟨hsound, hext⟩ := hs.install htemplate h
  have hbal := hb.install hs hdeps h
  obtain ⟨target, c, hc, rfl, rfl⟩ := install_ok h
  have hrw := watchAll_rewatches s.graph observed ⟨c.size⟩
  refine ⟨hsound, hbal, hext, ?_, fun m _ => (Graph.kind_retype _ _ _ _).trans (hrw.kind m),
    fun m site hw => ?_, fun m hd => ?_, fun m _ => ?_,
    fun m _ _ => (Graph.dependencies_retype _ _ _ _).trans (hrw.dependencies m),
    fun m _ hm _ => ?_⟩
  · exact Nat.le_of_eq ((Graph.size_retype _ _ _).trans hrw.size).symm
  · show _ ∈ (((watchAll s.graph observed ⟨c.size⟩).retype holder ⟨c.size⟩).cell m).watchers
    rw [Graph.watchers_retype]
    exact hrw.kept m _ hw fun _ => by simp
  · exact (Graph.dirtyAt_retype _ _ _ _).mpr (.inl ((hrw.dirtyAt m).trans hd))
  · rw [← hrw.typeAt m]
    exact Graph.typeAt_retype_eq_or_dirty _ _ _ _
  · show ((watchAll s.graph observed ⟨c.size⟩).retype holder ⟨c.size⟩).typeAt m = _
    rw [Graph.typeAt_retype, if_neg fun h => hm h.1, hrw.typeAt]

/-- What is entered for a new provisional type. -/
theorem install_line (hs : s.Sound) (hholder : holder.index < s.graph.size)
    (htemplate : s.catalog.Definite template)
    (h : install template observed holder s = .ok t s') :
    ∃ p u, p.template = template ∧ p.holder = holder ∧ s'.Line p t p u ∧
      ∀ v q, s'.catalog.shape v = .provisional q → v = t ∨ s.catalog.shape v = .provisional q := by
  obtain ⟨target, c, hc, rfl, rfl⟩ := install_ok h
  obtain ⟨hext, hsound, v, hv, hspec⟩ := hs.catalog.instantiate hs.bindings_lt hc
  have hpush : c.Extends
      (c.push (.provisional (installed s.graph template observed holder target))).2 :=
    .push c fun k u h => by cases h
  have hrw := watchAll_rewatches s.graph observed ⟨c.size⟩
  refine ⟨installed s.graph template observed holder target, target, rfl, rfl, ?_, fun w q hq => ?_⟩
  · refine ⟨?_, ?_, rfl, rfl, target?_standing _ _ _, v, ?_, hpush.toGrows.specializes hspec⟩
    · show ((watchAll s.graph observed ⟨c.size⟩).retype holder ⟨c.size⟩).typeAt holder = _
      rw [Graph.typeAt_retype, if_pos ⟨rfl, by rw [hrw.size]; exact hholder⟩]
    · show (c.push _).2.shape ⟨c.size⟩ = _
      rw [shape_push, if_pos rfl]
    · rw [← hv]
      exact (hext.trans hpush).templateOf_eq htemplate
  · have hq' : (c.push (.provisional
        (installed s.graph template observed holder target))).2.shape w = .provisional q := hq
    rw [shape_push] at hq'
    split at hq'
    · next hw => exact .inl (Ty.eq_of_index hw)
    · exact .inr (instantiate_steady hc w q hq')

theorem Held.install (h : s.Held) (hs : s.Sound) (hb : s.Balanced [])
    (htemplate : s.catalog.Definite template) (hholder : holder.index < s.graph.size)
    (hdeps : s.graph.dependencies holder = [])
    (hkept : ∀ t p, s.catalog.shape t = .provisional p → p.holder.index < s.graph.size ∧
      p.holder ≠ holder ∧ s.graph.dependencies p.holder = [])
    (hi : Store.install template observed holder s = .ok t s') : s'.Held := by
  have ha := Advances.install hs hb htemplate hdeps hi
  obtain ⟨p, u, -, -, hline, hothers⟩ := install_line hs hholder htemplate hi
  intro v q hq
  rcases hothers v q hq with rfl | hold
  · obtain rfl : p = q := Shape.provisional.inj (hline.shape.symm.trans hq)
    exact ⟨v, p, u, hline⟩
  · obtain ⟨hlt, hne, hd⟩ := hkept v q hold
    refine (h v q hold).keep hs ha.catalog (ha.held q.holder hlt hne hd) fun w q' u' hq' hu' => ?_
    obtain ⟨target, c, hc, rfl, rfl⟩ := install_ok hi
    refine ⟨q'.standing, ?_, hu'⟩
    show (c.push _).2.shape w = _
    have hw := lt_size_of_provisional hq'
    have hsize := (hs.catalog.instantiate hs.bindings_lt hc).1.size_le
    rw [shape_push, if_neg (by omega), shape_instantiate hc hw, hq']

theorem dependencies_install (h : Store.install template observed holder s = .ok t s') (n : Node) :
    s'.graph.dependencies n = s.graph.dependencies n := by
  obtain ⟨target, c, hc, rfl, rfl⟩ := install_ok h
  exact (Graph.dependencies_retype _ _ _ _).trans ((watchAll_rewatches _ _ _).dependencies n)

/-! ## Refreshing -/

section Refreshing

variable {target former : Ty} {limit : Nat} {u : Unit}

theorem Advances.supersede (hs : s.Sound) (hb : s.Balanced []) (hp : s.catalog.shape t = .provisional p)
    (htarget : s.catalog.Definite target) (hformer : p.standing.target? = some former)
    (hdeps : s.graph.dependencies p.holder = []) :
    s.Advances (· = p.holder) (s.supersede t p target) := by
  obtain ⟨hsound, hext⟩ := hs.supersede hp htarget hformer
  have hbal : (s.supersede t p target).Balanced [] := hb.supersede hp hformer hdeps
  have hrw := handOver_rewatches (s.graph.retype p.holder ⟨s.catalog.size⟩) p.observed t
    ⟨s.catalog.size⟩
  refine ⟨hsound, hbal, hext, Nat.le_of_eq (size_supersede s t p target).symm,
    fun m _ => kind_supersede s t p target m, fun m site hw => hrw.kept m _ ?_ fun _ => by simp,
    fun m hd => (hrw.dirtyAt m).trans ?_, fun m _ => ?_,
    fun m _ _ => dependencies_supersede s t p target m, fun m _ hm _ => ?_⟩
  · rw [Graph.watchers_retype]
    exact hw
  · exact (Graph.dirtyAt_retype _ _ _ _).mpr (.inl hd)
  · refine (Graph.typeAt_retype_eq_or_dirty s.graph p.holder m ⟨s.catalog.size⟩).imp
      (fun heq => (hrw.typeAt m).trans heq) fun hd => (hrw.dirtyAt m).trans hd
  · rw [typeAt_supersede, if_neg fun h => hm h.1]

/-- Two lines with the same holder are the same line. -/
theorem Held.template_eq (h : s.Held) {w : Ty} {q : Provisional}
    (hp : s.catalog.shape t = .provisional p) (hq : s.catalog.shape w = .provisional q)
    (hsame : q.holder = p.holder) : q.template = p.template := by
  obtain ⟨a, pa, ua, ha⟩ := h w q hq
  obtain ⟨b, pb, ub, hb⟩ := h t p hp
  have htype := ha.type
  rw [hsame] at htype
  obtain rfl : a = b := Option.some.inj (htype.symm.trans hb.type)
  obtain rfl : pa = pb := Shape.provisional.inj (ha.shape.symm.trans hb.shape)
  exact ha.template.symm.trans hb.template

/-- A successor takes the line over, and all other lines go on as they were. -/
theorem Held.supersede (h : s.Held) (hs : s.Sound) (hp : s.catalog.shape t = .provisional p)
    (htarget : s.catalog.Definite target) (hformer : p.standing.target? = some former)
    (hspec : ∃ v, s.catalog.templateOf p.template = some v ∧ s.catalog.Specializes target v)
    (hholder : p.holder.index < s.graph.size) : (s.supersede t p target).Held := by
  obtain ⟨-, hext⟩ := hs.supersede hp htarget hformer
  obtain ⟨v, hv, hspec⟩ := hspec
  -- the line of `p`, whose holder now has the successor
  have hline : ∀ q : Provisional, q.holder = p.holder → q.template = p.template →
      (s.supersede t p target).Live q := by
    intro q hq htemplate
    refine ⟨⟨s.catalog.size⟩, succeeding s.graph p target, target, ?_, ?_, htemplate.symm, hq.symm,
      target?_standing _ _ _, v, ?_, hext.toGrows.specializes hspec⟩
    · rw [hq, typeAt_supersede, if_pos ⟨rfl, hholder⟩]
    · exact shape_supersede_new hp target
    · rw [htemplate]
      exact (hext.templateOf_eq (hs.definite_template hp)).trans hv
  intro w q hq
  rcases shape_supersede_cases hp hq with ⟨-, rfl⟩ | ⟨-, rfl⟩ | ⟨-, -, hq⟩
  · exact hline _ rfl rfl
  · exact hline _ rfl rfl
  · by_cases hsame : q.holder = p.holder
    · exact hline q hsame (h.template_eq hp hq hsame)
    · obtain ⟨a, pa, ua, ha⟩ := h w q hq
      refine ⟨a, pa, ua, ?_, ?_, ha.template, ha.holder, ha.target, ?_⟩
      · rw [typeAt_supersede, if_neg fun e => hsame e.1, ha.type]
      · refine shape_supersede_of_ne hp target (fun hat => hsame ?_) ha.shape
        subst hat
        obtain rfl : pa = p := Shape.provisional.inj (ha.shape.symm.trans hp)
        exact ha.holder.symm
      · obtain ⟨v', hv', hspec'⟩ := ha.specializes
        exact ⟨v', (hext.templateOf_eq (hs.definite_template hq)).trans hv',
          hext.toGrows.specializes hspec'⟩

theorem Held.restand (h : s.Held) (hs : s.Sound) (hp : s.catalog.shape t = .provisional p)
    (htarget : p.standing.target? = some target) : (s.restand t p target).Held := by
  obtain ⟨-, hext⟩ := hs.restand hp htarget
  have ht := lt_size_of_provisional hp
  -- provisional types may settle here, but keep their targets
  have hshape : ∀ w q, s.catalog.shape w = .provisional q → ∀ u, q.standing.target? = some u →
      ∃ st, (s.restand t p target).catalog.shape w = .provisional { q with standing := st } ∧
        st.target? = some u := by
    intro w q hq u hu
    show ∃ st, (s.catalog.setShape t _).shape w = _ ∧ _
    rw [shape_setShape]
    split
    · next hw =>
      obtain rfl : w = t := Ty.eq_of_index hw.1
      obtain rfl : p = q := Shape.provisional.inj (hp.symm.trans hq)
      refine ⟨standing s.graph p.observed target, rfl, ?_⟩
      rw [target?_standing, ← htarget, hu]
    · exact ⟨q.standing, hq, hu⟩
  intro w q hq
  have hq' : (s.catalog.setShape t (.provisional
      { p with standing := standing s.graph p.observed target })).shape w = .provisional q := hq
  rw [shape_setShape] at hq'
  split at hq'
  · cases hq'
    have hlive := (h t p hp).keep hs hext rfl fun w q u hq hu => hshape w q hq u hu
    obtain ⟨a, pa, ua, ha⟩ := hlive
    exact ⟨a, pa, ua, ha.type, ha.shape, ha.template, ha.holder, ha.target, ha.specializes⟩
  · exact (h w q hq').keep hs hext rfl fun w q u hq hu => hshape w q hq u hu

/-- Every provisional type of `s'` is of the line of one of `s`. -/
def Continues (s s' : Store) : Prop :=
  ∀ w q, s'.catalog.shape w = .provisional q → ∃ w' q', s.catalog.shape w' = .provisional q' ∧
    q'.holder = q.holder ∧ q'.template = q.template

theorem Continues.of_steady (h : s.catalog.Steady s'.catalog) : s.Continues s' :=
  fun w q hq => ⟨w, q, h w q hq, rfl, rfl⟩

theorem Continues.trans {s'' : Store} (h₁ : s.Continues s') (h₂ : s'.Continues s'') :
    s.Continues s'' := by
  intro w q hq
  obtain ⟨w', q', hq', hholder, htemplate⟩ := h₂ w q hq
  obtain ⟨w'', q'', hq'', hholder', htemplate'⟩ := h₁ w' q' hq'
  exact ⟨w'', q'', hq'', hholder'.trans hholder, htemplate'.trans htemplate⟩

theorem Continues.restand (hp : s.catalog.shape t = .provisional p) :
    s.Continues (s.restand t p target) := by
  intro w q hq
  have hq' : (s.catalog.setShape t (.provisional
      { p with standing := standing s.graph p.observed target })).shape w = .provisional q := hq
  rw [shape_setShape] at hq'
  split at hq'
  · cases hq'
    exact ⟨t, p, hp, rfl, rfl⟩
  · exact ⟨w, q, hq', rfl, rfl⟩

theorem Continues.supersede (hp : s.catalog.shape t = .provisional p) :
    s.Continues (s.supersede t p target) := by
  intro w q hq
  have hq' := (shape_superseding hp s.graph target w).symm.trans hq
  split at hq'
  · cases hq'
    exact ⟨t, p, hp, rfl, rfl⟩
  · split at hq'
    · cases hq'
      exact ⟨t, p, hp, rfl, rfl⟩
    · exact ⟨w, q, hq', rfl, rfl⟩

/-- A provisional type reacts. -/
theorem Held.refresh (hheld : s.Held) (hs : s.Sound) (hb : s.Balanced [])
    (hvalid : ∀ t p, s.catalog.shape t = .provisional p → p.holder.index < s.graph.size ∧
      s.graph.dependencies p.holder = [])
    (h : Store.refresh t limit s = .ok u s') :
    s'.Held ∧ s.Continues s' ∧ (∀ n, s'.graph.dependencies n = s.graph.dependencies n) ∧
      s.Advances (fun n => ∃ t p, s.catalog.shape t = .provisional p ∧ p.holder = n) s' := by
  obtain ⟨p, hp, h | ⟨former, target, c, hformer, hc, h⟩⟩ := refresh_ok h
  · rw [h.2]
    exact ⟨hheld, fun w q hq => ⟨w, q, hq, rfl, rfl⟩, fun _ => rfl, .refl hs hb⟩
  · obtain ⟨hext, hsound, v, hv, hspec⟩ := hs.catalog.instantiate hs.bindings_lt hc
    have hsteady := instantiate_steady hc
    have ha : s.Advances (fun _ => False) ⟨c, s.graph⟩ := .extend hs hb hext hsound
    have hheld₁ : Held ⟨c, s.graph⟩ := hheld.advance hs ha hsteady
      fun w q hq => ⟨(hvalid w q hq).1, id, (hvalid w q hq).2⟩
    have hp₁ : c.shape t = .provisional p :=
      (hsteady.provisional_iff hext.toGrows).mpr hp
    have hcontinues : s.Continues ⟨c, s.graph⟩ := .of_steady hsteady
    obtain ⟨hholder, hdeps⟩ := hvalid t p hp
    -- the specialization that is found is the former target or another one
    rcases h with ⟨rfl, rfl⟩ | ⟨-, rfl⟩
    · obtain ⟨hs₂, hext₂⟩ := ha.sound.restand hp₁ hformer
      exact ⟨hheld₁.restand ha.sound hp₁ hformer, hcontinues.trans (.restand hp₁), fun _ => rfl,
        .extend hs hb (hext.trans hext₂) hs₂.catalog⟩
    · have hv₁ : c.templateOf p.template = some v :=
        (hext.templateOf_eq (hs.definite_template hp)).trans hv
      have ha₂ := Advances.supersede ha.sound ha.balanced hp₁ hspec.definite hformer hdeps
      refine ⟨hheld₁.supersede ha.sound hp₁ hspec.definite hformer ⟨v, hv₁, hspec⟩ hholder,
        hcontinues.trans (.supersede hp₁), dependencies_supersede _ t p target,
        (ha.weaken fun _ => False.elim).trans (ha₂.weaken fun n hn => ⟨t, p, hp, hn.symm⟩)⟩

end Refreshing

end Store

end FlowTyping
