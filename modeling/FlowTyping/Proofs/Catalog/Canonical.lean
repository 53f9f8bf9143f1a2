import FlowTyping.Catalog.Specialization
import FlowTyping.Catalog.Union
import FlowTyping.Proofs.Catalog.Growth

/-
  Canonical unions and interned types

  In a canonical catalog a union has at least two members, in increasing order
  and none of them a union or provisional, and no list of members is entered
  twice. Merging, pointer types and specializations keep a catalog canonical and
  only let it grow.

  A union or pointer type is looked up by its parts before it is entered, so
  looking it up again in a later catalog gives the same type and changes nothing
  (`union_again`, `pointerFor_again`).
-/
namespace FlowTyping

theorem Ty.eq_of_index {t u : Ty} (h : t.index = u.index) : t = u := by
  cases t; cases u; simp_all

/-! ## Sorting types -/

namespace Ty

theorem mem_insert (t u : Ty) (ts : List Ty) : u ∈ Ty.insert t ts ↔ u = t ∨ u ∈ ts := by
  induction ts with
  | nil => simp [Ty.insert]
  | cons head rest ih =>
    unfold Ty.insert
    split
    · simp
    · split
      · next h => subst h; simp
      · simp only [List.mem_cons, ih]
        constructor
        · rintro (h | h | h) <;> simp [h]
        · rintro (h | h | h) <;> simp [h]

theorem mem_increasing (u : Ty) (ts : List Ty) : u ∈ increasing ts ↔ u ∈ ts := by
  induction ts with
  | nil => simp [increasing]
  | cons t ts ih =>
    have : increasing (t :: ts) = Ty.insert t (increasing ts) := rfl
    rw [this, mem_insert, ih, List.mem_cons]

theorem pairwise_insert (t : Ty) {ts : List Ty} (h : ts.Pairwise (·.index < ·.index)) :
    (Ty.insert t ts).Pairwise (·.index < ·.index) := by
  induction ts with
  | nil => simp [Ty.insert]
  | cons head rest ih =>
    rw [List.pairwise_cons] at h
    unfold Ty.insert
    split
    · next hlt =>
      refine List.pairwise_cons.mpr ⟨fun u hu => ?_, List.pairwise_cons.mpr h⟩
      rcases List.mem_cons.mp hu with rfl | hu
      · exact hlt
      · exact Nat.lt_trans hlt (h.1 u hu)
    · split
      · exact List.pairwise_cons.mpr h
      · next hge hne =>
        refine List.pairwise_cons.mpr ⟨fun u hu => ?_, ih h.2⟩
        rcases (mem_insert t u rest).mp hu with rfl | hu
        · have : u.index ≠ head.index := fun e => hne (eq_of_index e)
          omega
        · exact h.1 u hu

theorem pairwise_increasing (ts : List Ty) : (increasing ts).Pairwise (·.index < ·.index) := by
  induction ts with
  | nil => exact List.Pairwise.nil
  | cons t ts ih => exact pairwise_insert t ih

theorem nodup_of_increasing {ts : List Ty} (h : ts.Pairwise (·.index < ·.index)) : ts.Nodup :=
  h.imp fun hlt e => absurd (e ▸ hlt) (Nat.lt_irrefl _)

/-- A list in increasing order is determined by what is in it. -/
theorem eq_of_increasing {ts us : List Ty} (h : ts.Pairwise (·.index < ·.index))
    (h' : us.Pairwise (·.index < ·.index)) (hmem : ∀ t, t ∈ ts ↔ t ∈ us) : ts = us := by
  have hperm : ts.Perm us :=
    (List.perm_ext_iff_of_nodup (nodup_of_increasing h) (nodup_of_increasing h')).mpr hmem
  exact hperm.eq_of_pairwise (fun a b _ _ hab hba => absurd hba (Nat.lt_asymm hab)) h h'

end Ty

namespace Catalog

variable {c c' : Catalog}

/-! ## Canonical catalogs -/

/-- Unions are flat, increasing, of two or more members and entered once, and provisional types lead
to other types. -/
structure Canonical (c : Catalog) : Prop where
  members : ∀ t ms, t.index < c.size → c.shape t = .union ms →
    2 ≤ ms.length ∧ ms.Pairwise (·.index < ·.index) ∧ ∀ u ∈ ms, c.Single u
  once : ∀ t u ms, t.index < c.size → u.index < c.size → c.shape t = .union ms →
    c.shape u = .union ms → t = u
  grounded : c.Grounded

theorem Grounded.of_shapes_eq (hc : c.Grounded) (h : c'.shapes = c.shapes) : c'.Grounded := by
  have hs : c'.shape = c.shape := funext (shape_of_shapes_eq h)
  unfold Grounded Definite at *
  rw [hs, size_of_shapes_eq h]
  exact hc

namespace Canonical

/-- The class tables and methods have no part in it. -/
theorem of_shapes_eq (hc : c.Canonical) (h : c'.shapes = c.shapes) : c'.Canonical := by
  have hs : c'.shape = c.shape := funext (shape_of_shapes_eq h)
  have hz : c'.size = c.size := size_of_shapes_eq h
  refine ⟨?_, ?_, hc.grounded.of_shapes_eq h⟩
  · unfold Single Definite
    rw [hs, hz]
    exact hc.members
  · rw [hs, hz]
    exact hc.once

/-- The members of a type are types that can be members of a union. -/
theorem single_of_mem_members (hc : c.Canonical) {t u : Ty} (ht : t.index < c.size)
    (hu : u ∈ c.members t) : c.Single u := by
  have hd := hc.grounded.resolve_definite ht
  unfold Catalog.members resolvedShape at hu
  split at hu
  · next ms hms => exact (hc.members _ ms hd.1 hms).2.2 u hu
  · next hn =>
    rw [List.mem_singleton] at hu
    subst hu
    refine ⟨hd, ?_⟩
    cases hs : c.shape (c.resolve t) <;> simp_all [Shape.isUnion]

theorem members_ne_nil (hc : c.Canonical) {t : Ty} (ht : t.index < c.size) : c.members t ≠ [] := by
  have hd := hc.grounded.resolve_definite ht
  unfold Catalog.members resolvedShape
  split
  · next ms hms =>
    have := (hc.members _ ms hd.1 hms).1
    intro h
    simp [h] at this
  · simp

/-- Members stand in increasing order. -/
theorem increasing_members (hc : c.Canonical) {t : Ty} (ht : t.index < c.size) :
    (c.members t).Pairwise (·.index < ·.index) := by
  have hd := hc.grounded.resolve_definite ht
  unfold Catalog.members resolvedShape
  split
  · next ms hms => exact (hc.members _ ms hd.1 hms).2.1
  · exact List.pairwise_singleton _ _

theorem nodup_members (hc : c.Canonical) {t : Ty} (ht : t.index < c.size) : (c.members t).Nodup :=
  Ty.nodup_of_increasing (hc.increasing_members ht)

/-- A definite type is determined by its members. -/
theorem eq_of_members_eq (hc : c.Canonical) {t u : Ty} (ht : c.Definite t) (hu : c.Definite u)
    (h : c.members t = c.members u) : t = u := by
  have cases_of : ∀ {v : Ty}, c.Definite v →
      c.members v = [v] ∨ ∃ ms, c.shape v = .union ms ∧ c.members v = ms := by
    intro v hv
    cases hs : c.shape v with
    | union ms => exact .inr ⟨ms, rfl, members_of_union hs⟩
    | _ => exact .inl (members_of_single ⟨hv, by rw [hs]; rfl⟩)
  -- only a union has two or more members
  have apart : ∀ {v w : Ty}, c.Definite v → c.shape v ≠ .union [w] := by
    intro v w hv hs
    have := (hc.members v [w] hv.1 hs).1
    simp at this
  rcases cases_of ht with hone | ⟨ms, hms, hmany⟩
  · rcases cases_of hu with hone' | ⟨ms', hms', hmany'⟩
    · rw [hone, hone'] at h
      exact List.singleton_inj.mp h
    · rw [hone, hmany'] at h
      exact absurd (h ▸ hms') (apart hu)
  · rcases cases_of hu with hone' | ⟨ms', hms', hmany'⟩
    · rw [hmany, hone'] at h
      exact absurd (h ▸ hms) (apart ht)
    · rw [hmany, hmany'] at h
      exact hc.once t u ms ht.1 hu.1 hms (h ▸ hms')

end Canonical

/-- The entries that may be added: a union that is new and fit to be one, and a provisional type
with a definite target. -/
def Admits (c : Catalog) : Shape → Prop
  | .union ms => 2 ≤ ms.length ∧ ms.Pairwise (·.index < ·.index) ∧ (∀ u ∈ ms, c.Single u) ∧
      ∀ t : Ty, t.index < c.size → c.shape t ≠ .union ms
  | .provisional p => ∃ u, p.standing.target? = some u ∧ c.Definite u
  | _ => True

/-- What provisional types lead to stays as the catalog grows. -/
theorem Grounded.leads (hg : c.Grows c') (hc : c.Grounded) {t : Ty} {p : Provisional}
    (h : c.shape t = .provisional p) :
    match p.standing with
    | .pending u | .settled u => c'.Definite u
    | .superseded u => t.index < u.index ∧ (c'.shape u).isProvisional = true := by
  have hl := hc t p h
  cases hs : p.standing with
  | pending u => rw [hs] at hl; exact hg.definite hl
  | settled u => rw [hs] at hl; exact hg.definite hl
  | superseded u =>
    rw [hs] at hl
    obtain ⟨q, hq⟩ := Shape.isProvisional_iff.mp hl.2
    have hb := hg.shape u (lt_size_of_provisional hq)
    exact ⟨hl.1, by rw [hb.isProvisional_eq]; exact hl.2⟩

namespace Canonical

theorem push (hc : c.Canonical) {s : Shape} (hs : c.Admits s) : (c.push s).2.Canonical := by
  have hg := Grows.push c s
  have entries : ∀ t s', t.index < (c.push s).2.size → (c.push s).2.shape t = s' →
      (t.index = c.size ∧ s' = s) ∨ (t.index < c.size ∧ c.shape t = s') := by
    intro t s' ht h
    rw [shape_push] at h
    rw [size_push] at ht
    split at h
    · next heq => exact .inl ⟨heq, h.symm⟩
    · exact .inr ⟨by omega, h⟩
  refine ⟨fun t ms ht hms => ?_, fun t u ms ht hu hms hms' => ?_, fun t p hp => ?_⟩
  · rcases entries t _ ht hms with ⟨-, rfl⟩ | ⟨ht, hms⟩
    · exact ⟨hs.1, hs.2.1, fun u hu => hg.single (hs.2.2.1 u hu)⟩
    · obtain ⟨h₁, h₂, h₃⟩ := hc.members t ms ht hms
      exact ⟨h₁, h₂, fun u hu => hg.single (h₃ u hu)⟩
  · -- of two equal unions at most one is new, and what is admitted has no equal
    rcases entries t _ ht hms with ⟨htn, rfl⟩ | ⟨hto, htold⟩
    · rcases entries u _ hu hms' with ⟨hun, -⟩ | ⟨huo, huold⟩
      · exact Ty.eq_of_index (by omega)
      · exact absurd huold (hs.2.2.2 u huo)
    · rcases entries u _ hu hms' with ⟨-, rfl⟩ | ⟨huo, huold⟩
      · exact absurd htold (hs.2.2.2 t hto)
      · exact hc.once t u ms hto huo htold huold
  · rcases entries t _ (lt_size_of_provisional hp) hp with ⟨-, rfl⟩ | ⟨-, hp⟩
    · obtain ⟨u, hu, hd⟩ := hs
      cases hst : p.standing <;> simp_all [Standing.target?, hg.definite hd]
    · exact hc.grounded.leads hg hp

/-- An entry may change as entries may, if what supersedes it is a later provisional type. -/
theorem setShape (hc : c.Canonical) {t : Ty} {s : Shape} (hb : (c.shape t).Becomes s)
    (hlater : ∀ p u, s = .provisional p → p.standing = .superseded u →
      t.index < u.index ∧ (c.shape u).isProvisional = true) : (c.setShape t s).Canonical := by
  have hg := Grows.setShape hb
  -- nothing becomes a union that was none
  have unions : ∀ u ms, (c.setShape t s).shape u = .union ms → c.shape u = .union ms := by
    intro u ms h
    rw [shape_setShape] at h
    split at h
    · next hu =>
      subst h
      rw [Ty.eq_of_index hu.1]
      exact hb.union_of
    · exact h
  refine ⟨fun u ms hu hms => ?_, fun u v ms hu hv hms hms' => ?_, fun u p hp => ?_⟩
  · rw [size_setShape] at hu
    obtain ⟨h₁, h₂, h₃⟩ := hc.members u ms hu (unions u ms hms)
    exact ⟨h₁, h₂, fun v hv => hg.single (h₃ v hv)⟩
  · rw [size_setShape] at hu hv
    exact hc.once u v ms hu hv (unions u ms hms) (unions v ms hms')
  · rw [shape_setShape] at hp
    split at hp
    · next hu =>
      rw [Ty.eq_of_index hu.1]
      subst hp
      generalize hq : c.shape t = q at hb
      cases hb with
      | same => exact hc.grounded.leads hg hq
      | standing p st ha =>
        cases st with
        | superseded u =>
          obtain ⟨hlt, hpu⟩ := hlater _ u rfl rfl
          obtain ⟨r, hr⟩ := Shape.isProvisional_iff.mp hpu
          exact ⟨hlt, by rw [(hg.shape u (lt_size_of_provisional hr)).isProvisional_eq]; exact hpu⟩
        | pending u =>
          refine hg.definite (hc.grounded.target hq ?_)
          cases hps : p.standing <;>
            simp_all [Standing.Allows, Standing.target?, Standing.isSuperseded]
        | settled u =>
          refine hg.definite (hc.grounded.target hq ?_)
          cases hps : p.standing <;>
            simp_all [Standing.Allows, Standing.target?, Standing.isSuperseded]
    · exact hc.grounded.leads hg hp

end Canonical

end Catalog

end FlowTyping
