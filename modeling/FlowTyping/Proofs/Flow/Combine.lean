import FlowTyping.Flow.Store
import FlowTyping.Proofs.Catalog.Soundness

/-
  The type that a node takes from its inputs

  `Store.combine` keeps a catalog sound and lets it grow. `Store.Combined`
  says that a type was combined from some inputs, in the catalog of that time.
  Two things follow for a later catalog. If none of the inputs has been
  superseded, combining them again gives the same type (`Combined.exact`). And
  each input that is not superseded has all of its members in the type
  (`Combined.covers`), whatever became of the others.
-/
namespace FlowTyping.Store

open Catalog

variable {c c' d : Catalog} {ts : List Ty} {kind : CellKind}

/-- What `combine` makes of its inputs before it looks at the kind. -/
def joined (c : Catalog) : List Ty → Option Ty × Catalog
  | [] => (none, c)
  | [t] => (some t, c)
  | ts => c.merge ts

theorem combine_eq_joined (c : Catalog) (kind : CellKind) (ts : List Ty) :
    combine c kind ts =
      match (joined c ts).1, kind with
      | none, _ => (none, (joined c ts).2)
      | some t, .plain => (some t, (joined c ts).2)
      | some t, .pointer => ((joined c ts).2.pointerFor t).map some id := by
  rcases ts with _ | ⟨t, _ | ⟨u, rest⟩⟩
  · cases kind <;> rfl
  · cases kind <;> rfl
  · show combine c kind (t :: u :: rest) = _
    unfold combine joined
    cases kind <;> rcases c.merge (t :: u :: rest) with ⟨_ | merged, c'⟩ <;> rfl

/-- A plain node takes what is joined as it is. -/
theorem combine_plain (c : Catalog) (ts : List Ty) : combine c .plain ts = joined c ts := by
  rw [combine_eq_joined]
  cases hj : (joined c ts).1 <;> simp [← hj]

/-! ## Joining -/

theorem joined_extends (c : Catalog) (ts : List Ty) : c.Extends (joined c ts).2 := by
  unfold joined
  split
  · exact .refl c
  · exact .refl c
  · exact merge_extends c _

theorem joined_steady (c : Catalog) (ts : List Ty) : c.Steady (joined c ts).2 := by
  unfold joined
  split
  · exact .refl c
  · exact .refl c
  · exact merge_steady c _

theorem joined_canonical (hc : c.Canonical) (hts : ∀ t ∈ ts, t.index < c.size) :
    (joined c ts).2.Canonical := by
  unfold joined
  split
  · exact hc
  · exact hc
  · exact hc.merge hts

theorem joined_sound (hc : c.Sound) (hts : ∀ t ∈ ts, t.index < c.size) :
    (joined c ts).2.Sound := by
  unfold joined
  split
  · exact hc
  · exact hc
  · exact hc.merge hts

/-- What is joined is the one input that there is, or a definite type. -/
theorem joined_cases (hc : c.Canonical) (hts : ∀ t ∈ ts, t.index < c.size) {t : Ty}
    (h : (joined c ts).1 = some t) :
    (ts = [t] ∧ (joined c ts).2 = c) ∨
      ((joined c ts).2.Definite t ∧ (joined c ts).2.members t = c.live ts) := by
  rcases ts with _ | ⟨u, _ | ⟨v, ts⟩⟩
  · cases h
  · cases h
    exact .inl ⟨rfl, rfl⟩
  · exact .inr (hc.merge_members hts h)

/-- Definite types are joined to a definite type that has the members of all of them. -/
theorem joined_of_definite (hc : c.Canonical) (hts : ∀ t ∈ ts, c.Definite t) {t : Ty}
    (h : (joined c ts).1 = some t) :
    (joined c ts).2.Definite t ∧
      ∀ m, m ∈ (joined c ts).2.members t ↔ ∃ u ∈ ts, m ∈ c.members u := by
  rcases joined_cases hc (fun t ht => (hts t ht).1) h with ⟨rfl, heq⟩ | ⟨hd, hm⟩
  · rw [heq]
    exact ⟨hts t (List.mem_singleton_self t), fun m => by simp⟩
  · refine ⟨hd, fun m => ?_⟩
    rw [hm, mem_live]
    refine exists_congr fun u => and_congr_right fun hu => ?_
    simp [isSuperseded_of_definite (hts u hu)]

theorem joined_lt_size (hc : c.Canonical) (hts : ∀ t ∈ ts, t.index < c.size) {t : Ty}
    (h : (joined c ts).1 = some t) : t.index < (joined c ts).2.size := by
  rcases joined_cases hc hts h with ⟨rfl, heq⟩ | ⟨hd, -⟩
  · rw [heq]
    exact hts t (List.mem_singleton_self t)
  · exact hd.1

theorem joined_eq_none_iff (hc : c.Canonical) (hts : ∀ t ∈ ts, t.index < c.size) :
    (joined c ts).1 = none ↔ ts = [] ∨ (2 ≤ ts.length ∧ ∀ t ∈ ts, c.isSuperseded t = true) := by
  rcases ts with _ | ⟨u, _ | ⟨v, ts⟩⟩
  · simp [joined]
  · simp [joined]
  · have : (joined c (u :: v :: ts)).1 = none ↔ c.live (u :: v :: ts) = [] := merge_eq_none_iff
    rw [this, hc.live_eq_nil_iff hts]
    simp

theorem joined_again (hc : c.Canonical) (hts : ∀ t ∈ ts, t.index < c.size)
    (hg : (joined c ts).2.Grows d) (hl : ∀ t ∈ ts, d.isSuperseded t = false) :
    joined d ts = ((joined c ts).1, d) := by
  rcases ts with _ | ⟨u, _ | ⟨v, ts⟩⟩
  · rfl
  · rfl
  · exact hc.merge_again hts hg hl

/-! ## Combining -/

theorem combine_extends (c : Catalog) (kind : CellKind) (ts : List Ty) :
    c.Extends (combine c kind ts).2 := by
  rw [combine_eq_joined]
  split
  · exact joined_extends c ts
  · exact joined_extends c ts
  · exact (joined_extends c ts).trans (pointerFor_extends _ _)

theorem combine_steady (c : Catalog) (kind : CellKind) (ts : List Ty) :
    c.Steady (combine c kind ts).2 := by
  rw [combine_eq_joined]
  split
  · exact joined_steady c ts
  · exact joined_steady c ts
  · exact (joined_steady c ts).trans (intern_steady (p := (·.isPointerFor _)) rfl)

theorem combine_canonical (hc : c.Canonical) (hts : ∀ t ∈ ts, t.index < c.size) (kind : CellKind) :
    (combine c kind ts).2.Canonical := by
  have hj := joined_canonical hc hts
  rw [combine_eq_joined]
  split
  · exact hj
  · exact hj
  · exact hj.pointerFor _

theorem combine_sound (hc : c.Sound) (hts : ∀ t ∈ ts, t.index < c.size) (kind : CellKind) :
    (combine c kind ts).2.Sound := by
  have hj := joined_sound hc hts
  rw [combine_eq_joined]
  split
  · exact hj
  · exact hj
  · next u hu => exact hj.pointerFor (joined_lt_size hc.canonical hts hu)

theorem combine_lt_size (hc : c.Canonical) (hts : ∀ t ∈ ts, t.index < c.size) {t : Ty}
    (h : (combine c kind ts).1 = some t) : t.index < (combine c kind ts).2.size := by
  rw [combine_eq_joined] at h ⊢
  split at h
  · cases h
  · next u hu =>
    obtain rfl : u = t := by simpa using h
    exact joined_lt_size hc hts hu
  · next u hu =>
    have hd := definite_pointerFor (joined c ts).2 u
    obtain rfl : ((joined c ts).2.pointerFor u).1 = t := by simpa using h
    exact hd.1

/-- Definite inputs combine to a definite type. -/
theorem combine_definite (hc : c.Canonical) (hts : ∀ t ∈ ts, c.Definite t) {t : Ty}
    (h : (combine c kind ts).1 = some t) : (combine c kind ts).2.Definite t := by
  have hb : ∀ t ∈ ts, t.index < c.size := fun t ht => (hts t ht).1
  rw [combine_eq_joined] at h ⊢
  split at h
  · cases h
  · next u hu =>
    obtain rfl : u = t := by simpa using h
    rcases joined_cases hc hb hu with ⟨rfl, heq⟩ | ⟨hd, -⟩
    · show (joined c [u]).2.Definite u
      rw [heq]
      exact hts u (List.mem_singleton_self u)
    · exact hd
  · next u hu =>
    have hd := definite_pointerFor (joined c ts).2 u
    obtain rfl : ((joined c ts).2.pointerFor u).1 = t := by simpa using h
    exact hd

theorem combine_eq_none_iff :
    (combine c kind ts).1 = none ↔ (joined c ts).1 = none := by
  rw [combine_eq_joined]
  split
  · next h => simp [h]
  · next h => simp [h]
  · next h => simp [h]

/-- A node of some kind has type `t` where its inputs are joined to `u`: `u` itself, or the pointer
type for it, which is there already. -/
def Forms (c : Catalog) : CellKind → Ty → Ty → Prop
  | .plain, u, t => t = u
  | .pointer, u, t => c.pointerFor u = (t, c)

theorem Forms.unique {u t t' : Ty} (h : Forms c kind u t) (h' : Forms c kind u t') : t = t' := by
  cases kind with
  | plain => exact (show t = u from h).trans (show t' = u from h').symm
  | pointer => exact congrArg Prod.fst ((show c.pointerFor u = (t, c) from h).symm.trans h')

/-- What was joined can be joined and pointed to again in a later catalog, which already has it. -/
theorem combine_again (hc : c.Canonical) (hts : ∀ t ∈ ts, t.index < c.size)
    (hg : (combine c kind ts).2.Grows d) (hl : ∀ t ∈ ts, d.isSuperseded t = false) {t : Ty}
    (ht : (combine c kind ts).1 = some t) :
    ∃ u, joined d ts = (some u, d) ∧ Forms d kind u t := by
  rw [combine_eq_joined] at hg ht
  have hjd : (joined c ts).2.Grows d := by
    split at hg
    · exact hg
    · exact hg
    · exact (pointerFor_extends _ _).toGrows.trans hg
  have hagain := joined_again hc hts hjd hl
  cases hj : (joined c ts).1 with
  | none => rw [hj] at ht; cases ht
  | some u =>
    rw [hj] at hg ht hagain
    refine ⟨u, hagain, ?_⟩
    cases kind with
    | plain => cases ht; rfl
    | pointer =>
      have hu := joined_lt_size hc hts hj
      -- only a single input can be joined to a provisional type
      have hlive : d.isSuperseded u = false := by
        rcases joined_cases hc hts hj with ⟨rfl, -⟩ | ⟨hd, -⟩
        · exact hl u (List.mem_singleton_self u)
        · exact isSuperseded_of_definite (hjd.definite hd)
      cases ht
      exact pointerFor_again hg (hjd.resolve_eq hu hlive)

/-! ## Types that were combined -/

/-- Unless there are no inputs, `type` is what was combined from them in some catalog that has only
grown since; where nothing was left of them it can be anything. -/
def Combined (c : Catalog) (kind : CellKind) (ts : List Ty) (type : Option Ty) : Prop :=
  ts = [] ∨ ∃ c₀ : Catalog, c₀.Canonical ∧ (∀ t ∈ ts, t.index < c₀.size) ∧
    (combine c₀ kind ts).2.Grows c ∧ ∀ t, (combine c₀ kind ts).1 = some t → type = some t

namespace Combined

variable {type : Option Ty}

theorem grow (h : Combined c kind ts type) (hg : c.Grows c') : Combined c' kind ts type := by
  rcases h with rfl | ⟨c₀, hc₀, hts, hg₀, htype⟩
  · exact .inl rfl
  · exact .inr ⟨c₀, hc₀, hts, hg₀.trans hg, htype⟩

theorem of_combine (hc : c.Canonical) (hts : ∀ t ∈ ts, t.index < c.size)
    (h : ∀ t, (combine c kind ts).1 = some t → type = some t) :
    Combined (combine c kind ts).2 kind ts type :=
  .inr ⟨c, hc, hts, .refl _, h⟩

/-- Inputs none of which is superseded still combine to the type. -/
theorem exact (h : Combined c kind ts type) (hne : ts ≠ [])
    (hl : ∀ t ∈ ts, c.isSuperseded t = false) :
    ∃ t, type = some t ∧ ∃ u, joined c ts = (some u, c) ∧ Forms c kind u t := by
  rcases h with rfl | ⟨c₀, hc₀, hts, hg, htype⟩
  · exact absurd rfl hne
  · have hsome : (combine c₀ kind ts).1 ≠ none := by
      rw [Ne, combine_eq_none_iff, joined_eq_none_iff hc₀ hts]
      rintro (rfl | ⟨-, hsup⟩)
      · exact hne rfl
      · obtain ⟨t, ht⟩ := List.exists_mem_of_ne_nil _ hne
        have hlive := ((combine_extends c₀ kind ts).toGrows.trans hg).not_isSuperseded (hl t ht)
        rw [hsup t ht] at hlive
        cases hlive
    obtain ⟨t, ht⟩ := Option.ne_none_iff_exists'.mp hsome
    exact ⟨t, htype t ht, combine_again hc₀ hts hg hl ht⟩

/-- What definite inputs were combined to is formed from a type with the members of all of them. -/
theorem joins {type : Option Ty} (h : Combined c kind ts type) (hc : c.Canonical) (hne : ts ≠ [])
    (hdefinite : ∀ t ∈ ts, c.Definite t) :
    ∃ u t, type = some t ∧ Forms c kind u t ∧ c.Definite u ∧
      ∀ m, m ∈ c.members u ↔ ∃ v ∈ ts, m ∈ c.members v := by
  obtain ⟨t, htype, u, hjoined, hforms⟩ :=
    h.exact hne fun t ht => isSuperseded_of_definite (hdefinite t ht)
  have hu := joined_of_definite hc hdefinite (congrArg Prod.fst hjoined)
  rw [hjoined] at hu
  exact ⟨u, t, htype, hforms, hu⟩

/-- Definite inputs with the same members are combined to the same type. -/
theorem unique {type type' : Option Ty} {us : List Ty} (h : Combined c kind ts type)
    (h' : Combined c kind us type') (hc : c.Canonical) (hne : ts ≠ []) (hne' : us ≠ [])
    (hts : ∀ t ∈ ts, c.Definite t) (hus : ∀ t ∈ us, c.Definite t)
    (hsame : ∀ m, (∃ v ∈ ts, m ∈ c.members v) ↔ ∃ v ∈ us, m ∈ c.members v) : type = type' := by
  obtain ⟨u, t, rfl, hforms, hu, hmembers⟩ := h.joins hc hne hts
  obtain ⟨u', t', rfl, hforms', hu', hmembers'⟩ := h'.joins hc hne' hus
  have hmem : ∀ m, m ∈ c.members u ↔ m ∈ c.members u' := fun m =>
    (hmembers m).trans ((hsame m).trans (hmembers' m).symm)
  obtain rfl : u = u' := hc.eq_of_members_eq hu hu'
    (Ty.eq_of_increasing (hc.increasing_members hu.1) (hc.increasing_members hu'.1) hmem)
  exact congrArg some (hforms.unique hforms')

/-- An input that is not superseded is the type of a plain node, or has all of its members in it. -/
theorem covers (h : Combined c .plain ts type) {q : Ty} (hq : q ∈ ts)
    (hl : c.isSuperseded q = false) :
    ∃ t, type = some t ∧ (t = q ∨ (c.Definite t ∧ ∀ m ∈ c.members q, m ∈ c.members t)) := by
  rcases h with rfl | ⟨c₀, hc₀, hts, hg, htype⟩
  · cases hq
  · rw [combine_plain] at hg htype
    have hg₀ := (joined_extends c₀ ts).toGrows.trans hg
    have hl₀ := hg₀.not_isSuperseded hl
    -- something was combined, as `q` is not superseded now and so was not then
    have hsome : (joined c₀ ts).1 ≠ none := by
      rw [Ne, joined_eq_none_iff hc₀ hts]
      rintro (rfl | ⟨-, hsup⟩)
      · cases hq
      · rw [hsup q hq] at hl₀
        cases hl₀
    obtain ⟨t, ht⟩ := Option.ne_none_iff_exists'.mp hsome
    refine ⟨t, htype t ht, ?_⟩
    rcases joined_cases hc₀ hts ht with ⟨rfl, -⟩ | ⟨hd, hm⟩
    · exact .inl (List.mem_singleton.mp hq).symm
    · refine .inr ⟨hg.definite hd, fun m hmq => ?_⟩
      rw [hg.members_of_definite_eq hd, hm]
      rw [hg₀.members_eq hc₀.grounded (hts q hq) hl] at hmq
      exact mem_live.mpr ⟨q, hq, hl₀, hmq⟩

end Combined

end FlowTyping.Store
