import Mathlib.Data.Finset.Card
import FlowTyping.Proofs.Flow.Edits

/-
  How many types succeed one another on a node

  A type that has been superseded stays in the catalog, so the number of these
  is how often a node has got a successor of its type (`Catalog.superseded`). The
  live type of the node has that number as its generation, which a successor may
  not have if it is above the limit (`Store.Tallied`). Edits and rounds of
  propagation supersede nothing, and what refreshing does is counted.
-/
namespace FlowTyping

open Steps

namespace Catalog

variable {c c' : Catalog} {t : Ty} {p : Provisional} {holder : Node}

/-- Whether `t` is a provisional type of `holder` whose place another one has taken. -/
def isFormer (c : Catalog) (holder : Node) (t : Ty) : Bool :=
  match c.shape t with
  | .provisional p => p.holder == holder && p.standing.isSuperseded
  | _ => false

/-- The types of `holder` that have been superseded, by their indices. -/
def superseded (c : Catalog) (holder : Node) : Finset Nat :=
  {i ∈ Finset.range c.size | c.isFormer holder ⟨i⟩ = true}

theorem mem_superseded {i : Nat} : i ∈ c.superseded holder ↔ ∃ p,
    c.shape ⟨i⟩ = .provisional p ∧ p.holder = holder ∧ p.standing.isSuperseded = true := by
  unfold superseded isFormer
  rw [Finset.mem_filter, Finset.mem_range]
  constructor
  · rintro ⟨-, hformer⟩
    split at hformer
    · next p hp =>
      obtain ⟨hholder, hsuperseded⟩ := Bool.and_eq_true_iff.mp hformer
      exact ⟨p, hp, beq_iff_eq.mp hholder, hsuperseded⟩
    · cases hformer
  · rintro ⟨p, hp, rfl, hsuperseded⟩
    refine ⟨lt_size_of_provisional hp, ?_⟩
    rw [hp]
    simp [hsuperseded]

theorem superseded_congr (h : ∀ t p, p.standing.isSuperseded = true →
    (c'.shape t = .provisional p ↔ c.shape t = .provisional p)) (holder : Node) :
    c'.superseded holder = c.superseded holder := by
  ext i
  rw [mem_superseded, mem_superseded]
  refine exists_congr fun p => ⟨fun ⟨hp, hholder, hs⟩ => ?_, fun ⟨hp, hholder, hs⟩ => ?_⟩
  · exact ⟨(h _ p hs).mp hp, hholder, hs⟩
  · exact ⟨(h _ p hs).mpr hp, hholder, hs⟩

theorem Founds.superseded (h : c.Founds c') (holder : Node) :
    c'.superseded holder = c.superseded holder := by
  refine superseded_congr (fun t p hs => ⟨fun hp => ?_, h.kept t p⟩) holder
  rcases h.new t p hp with hp | ⟨-, hlive⟩
  · exact hp
  · rw [hs] at hlive
    cases hlive

/-- A catalog without provisional types has superseded none. -/
theorem superseded_of_none (h : ∀ t p, c.shape t ≠ .provisional p) (holder : Node) :
    c.superseded holder = ∅ := by
  refine Finset.eq_empty_of_forall_notMem fun i hi => ?_
  obtain ⟨p, hp, -⟩ := mem_superseded.mp hi
  exact h _ p hp

end Catalog

namespace Store

open Catalog

variable {s s' : Store} {t w : Ty} {p q : Provisional} {c : Catalog} {target former : Ty}
  {holder : Node} {limit : Nat}

/-- The generation of a live type says how many types have been superseded on its node, and is
within the limit. -/
def Tallied (limit : Nat) (s : Store) : Prop :=
  ∀ t p, s.catalog.shape t = .provisional p → p.standing.isSuperseded = false →
    (s.catalog.superseded p.holder).card = p.generation ∧ p.generation ≤ limit

/-- A node on which types have been superseded has a live one. -/
theorem Held.live_of_superseded (h : s.Held) {i : Nat} (hi : i ∈ s.catalog.superseded holder) :
    ∃ t p, s.catalog.shape t = .provisional p ∧ p.standing.isSuperseded = false ∧
      p.holder = holder := by
  obtain ⟨p, hp, rfl, -⟩ := mem_superseded.mp hi
  obtain ⟨t, q, u, hline⟩ := h _ p hp
  exact ⟨t, q, hline.shape, Standing.isSuperseded_of_target? hline.target, hline.holder⟩

/-- Two live types have two holders. -/
theorem Kept.holder_ne (hk : s.Kept) (hp : s.catalog.shape t = .provisional p)
    (hlive : p.standing.isSuperseded = false) (hq : s.catalog.shape w = .provisional q)
    (hlive' : q.standing.isSuperseded = false) (hne : w ≠ t) : q.holder ≠ p.holder := by
  intro hsame
  have htype := hk.live w q hq hlive'
  rw [hsame, hk.live t p hp hlive] at htype
  exact hne (Option.some.inj htype).symm

/-- Within the limit, no more types are superseded on a node than the limit says. -/
theorem Tallied.card_le (h : s.Tallied limit) (hheld : s.Held) (holder : Node) :
    (s.catalog.superseded holder).card ≤ limit := by
  rcases Finset.eq_empty_or_nonempty (s.catalog.superseded holder) with hnone | ⟨i, hi⟩
  · rw [hnone]
    exact Nat.zero_le limit
  · obtain ⟨t, p, hp, hlive, rfl⟩ := hheld.live_of_superseded hi
    obtain ⟨hcard, hle⟩ := h t p hp hlive
    exact hcard ▸ hle

/-- A type that is new is the only live one of its node, on which none has been superseded. -/
theorem Tallied.founds (h : s.Tallied limit) (hheld : s.Held) (hk' : s'.Kept)
    (hf : s.catalog.Founds s'.catalog) : s'.Tallied limit := by
  intro t p hp hlive
  rw [hf.superseded]
  rcases hf.new t p hp with hold | ⟨hgeneration, -⟩
  · exact h t p hold hlive
  · rw [hgeneration]
    refine ⟨?_, Nat.zero_le limit⟩
    rcases Finset.eq_empty_or_nonempty (s.catalog.superseded p.holder) with hnone | ⟨i, hi⟩
    · rw [hnone, Finset.card_empty]
    · -- there was a live type before, which it has to be
      obtain ⟨w, q, hq, hlive', hholder⟩ := hheld.live_of_superseded hi
      have hq' := hf.kept w q hq
      by_cases hwt : w = t
      · subst hwt
        obtain rfl := Shape.provisional.inj (hp.symm.trans hq')
        rw [(h w p hq hlive).1, hgeneration]
      · exact absurd hholder (hk'.holder_ne hp hlive hq' hlive' hwt)

/-! ## Reacting -/

theorem shape_supersede (hp : s.catalog.shape t = .provisional p) (target w : Ty) :
    (s.supersede t p target).catalog.shape w =
      if w = t then .provisional { p with standing := .superseded ⟨s.catalog.size⟩ }
      else if w = ⟨s.catalog.size⟩ then .provisional (succeeding s.graph p target)
      else s.catalog.shape w :=
  shape_superseding hp s.graph target w

/-- What a successor adds to what has been superseded. -/
theorem superseded_supersede (hp : s.catalog.shape t = .provisional p) (target : Ty)
    (holder : Node) : (s.supersede t p target).catalog.superseded holder =
      if holder = p.holder then insert t.index (s.catalog.superseded holder)
      else s.catalog.superseded holder := by
  have hshape := shape_supersede hp target
  have hnew : (succeeding s.graph p target).standing.isSuperseded = false :=
    Standing.isSuperseded_of_target? (target?_standing _ _ _)
  have hne : ∀ w q, s.catalog.shape w = .provisional q → w ≠ ⟨s.catalog.size⟩ := fun w q hq e =>
    Nat.ne_of_lt (lt_size_of_provisional hq) (congrArg Ty.index e)
  -- what is superseded afterwards is the type itself, or was superseded before
  have hmem : ∀ i, i ∈ (s.supersede t p target).catalog.superseded holder ↔
      (i = t.index ∧ holder = p.holder) ∨ (i ≠ t.index ∧ i ∈ s.catalog.superseded holder) := by
    intro i
    rw [mem_superseded, mem_superseded]
    by_cases hit : (⟨i⟩ : Ty) = t
    · subst hit
      simp only [hshape, if_true, ne_eq, not_true_eq_false, false_and, or_false, true_and]
      exact ⟨fun ⟨q, hq, hholder, _⟩ => by rw [← hholder, ← Shape.provisional.inj hq],
        fun hholder => ⟨_, rfl, hholder.symm, rfl⟩⟩
    · have hindex : i ≠ t.index := fun e => hit (Ty.eq_of_index e)
      simp only [hshape, if_neg hit, ne_eq, hindex, not_false_eq_true, false_and, true_and,
        false_or]
      refine exists_congr fun q => and_congr_left fun ⟨_, hs⟩ => ?_
      split
      · next hi =>
        refine ⟨fun hq => ?_, fun hq => absurd hi (hne _ q hq)⟩
        rw [← Shape.provisional.inj hq, hnew] at hs
        cases hs
      · exact Iff.rfl
  ext i
  rw [hmem i]
  split
  · next hholder =>
    rw [Finset.mem_insert]
    by_cases hi : i = t.index
    · simp [hi, hholder]
    · simp [hi]
  · next hholder =>
    simp only [hholder, and_false, false_or, and_iff_right_iff_imp]
    rintro hi rfl
    obtain ⟨q, hq, hqholder, -⟩ := mem_superseded.mp hi
    obtain rfl := Shape.provisional.inj (hp.symm.trans hq)
    exact hholder hqholder.symm

theorem Tallied.supersede (h : s.Tallied limit) (hk : s.Kept)
    (hp : s.catalog.shape t = .provisional p) (hlive : p.standing.isSuperseded = false)
    (hle : p.generation + 1 ≤ limit) (target : Ty) : (s.supersede t p target).Tallied limit := by
  have hshape := shape_supersede hp target
  have hnot : t.index ∉ s.catalog.superseded p.holder := fun ht => by
    obtain ⟨q, hq, -, hs⟩ := mem_superseded.mp ht
    obtain rfl := Shape.provisional.inj (hp.symm.trans hq)
    rw [hlive] at hs
    cases hs
  intro w q hq hliveq
  have hq' := (hshape w).symm.trans hq
  rw [superseded_supersede hp]
  split at hq'
  · -- the former type is live no more
    rw [← Shape.provisional.inj hq'] at hliveq
    cases hliveq
  · next hwt =>
    split at hq'
    · obtain rfl := Shape.provisional.inj hq'
      have hsame : (succeeding s.graph p target).holder = p.holder := rfl
      rw [if_pos hsame, hsame, Finset.card_insert_of_notMem hnot]
      exact ⟨congrArg (· + 1) (h t p hp hlive).1, hle⟩
    · rw [if_neg (hk.holder_ne hp hlive hq' hliveq hwt)]
      exact h w q hq' hliveq

theorem Tallied.restand (h : s.Tallied limit) (hp : s.catalog.shape t = .provisional p)
    (hlive : p.standing.isSuperseded = false) (target : Ty) :
    (s.restand t p target).Tallied limit := by
  have hshape := shape_restand hp target
  have hstands : (standing s.graph p.observed target).isSuperseded = false :=
    Standing.isSuperseded_of_target? (target?_standing _ _ _)
  -- the type is live before and after
  have hsame : ∀ holder, (s.restand t p target).catalog.superseded holder =
      s.catalog.superseded holder := by
    refine superseded_congr fun w q hs => ?_
    rw [hshape]
    split
    · next hwt =>
      subst hwt
      refine ⟨fun hq => ?_, fun hq => ?_⟩
      · rw [← Shape.provisional.inj hq, hstands] at hs
        cases hs
      · rw [← Shape.provisional.inj (hp.symm.trans hq), hlive] at hs
        cases hs
    · exact Iff.rfl
  intro w q hq hliveq
  rw [hsame]
  rw [hshape] at hq
  split at hq
  · obtain rfl := Shape.provisional.inj hq
    exact h t p hp hlive
  · exact h w q hq hliveq

/-- A type that reacts keeps the count, with the limit that it reacts under. -/
theorem Tallied.refresh (h : s.Tallied limit) (hs : s.Sound) (hk : s.Kept) {u : Unit}
    (hrefresh : Store.refresh t limit s = .ok u s') : s'.Tallied limit := by
  obtain ⟨p, hp, ⟨-, rfl⟩ | ⟨former, target, c, hformer, hc, -⟩⟩ := refresh_ok hrefresh
  · exact h
  · have hlive := Standing.isSuperseded_of_target? hformer
    have hk₁ := hk.spare (spares_instantiate hs hc)
    have hf := Founds.of_gains (.instantiate hc)
    have hp₁ : c.shape t = .provisional p := hf.kept t p hp
    have h₁ : Tallied limit ⟨c, s.graph⟩ := fun w q hq hlive => by
      show (c.superseded q.holder).card = _ ∧ _
      rw [hf.superseded]
      exact h w q (((Gains.instantiate hc).provisional_iff q).mp hq) hlive
    rw [refresh_founded hp hformer hc limit] at hrefresh
    split at hrefresh
    · cases hrefresh
      exact h₁.restand hp₁ hlive target
    · split at hrefresh
      · cases hrefresh
      · next hle =>
        cases hrefresh
        exact h₁.supersede hk₁ hp₁ hlive (Nat.not_lt.mp hle) target

end Store

end FlowTyping
