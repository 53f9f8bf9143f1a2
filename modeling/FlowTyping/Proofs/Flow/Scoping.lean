import FlowTyping.Proofs.Flow.Equality
import FlowTyping.Proofs.Flow.Kinship
import FlowTyping.Proofs.Visit

/-
  The search for a path of names

  A path of names denotes what its names lead to one by one, from namespace to
  nested type (`Denotes`). It is searched from a type depth first: in the type
  itself, then in its parents and then in its namespace, each type once, and for
  a metaclass in the type it belongs to (`Tour`). Parents and namespaces may go
  in circles.

  What is found is what the path denotes from the first type on this tour from
  which it denotes anything. The tour comes to all types that parents and
  namespaces lead to, so nothing is found exactly if the path denotes nothing
  from any of these (`find_complete`).
-/
namespace FlowTyping

namespace Catalog

variable {c : Catalog} {t u v start : Ty} {path : List String} {seen stack order : List Ty}

/-! ## What is searched -/

/-- A search that comes to a type looks at what that stands for, or for a metaclass at the type it
belongs to. -/
inductive LooksAt (c : Catalog) : Ty → Ty → Prop
  | own {t : Ty} (ht : c.isMeta t = false) : LooksAt c t (c.resolve t)
  | subject {k : ClassHandle} {t u v : Ty} (ht : c.resolvedShape t = .metaclass k u)
      (hu : LooksAt c u v) : LooksAt c t v

/-- What a search goes to from a type: its parents, then its namespace. -/
def leadsTo (c : Catalog) (t : Ty) : List Ty :=
  c.parents t ++ ((c.tableOf t).bind (·.container)).toList

/-- A search that has been at the types of `seen` and is to come to those of `stack` looks at the
types of `order`. It passes over a type that it has been at. Any other one it marks, and goes on
with what that leads to and then with the rest, where it passes over all that it has come to by
then. -/
inductive Tour (c : Catalog) : List Ty → List Ty → List Ty → Prop
  | done (seen : List Ty) : Tour c seen [] []
  | skip {seen rest order : List Ty} {t u : Ty} (ht : c.LooksAt t u) (hu : u ∈ seen)
      (hrest : Tour c seen rest order) : Tour c seen (t :: rest) order
  | enter {seen rest below after : List Ty} {t u : Ty} (ht : c.LooksAt t u) (hu : u ∉ seen)
      (hbelow : Tour c (u :: seen) (c.leadsTo u) below)
      (hafter : Tour c (below.reverse ++ u :: seen) rest after) :
      Tour c seen (t :: rest) (u :: below ++ after)

/-- The types that a search from `start` can come to look at. -/
inductive Led (c : Catalog) (start : Ty) : Ty → Prop
  | start {t : Ty} (ht : c.LooksAt start t) : Led c start t
  | step {t u v : Ty} (ht : Led c start t) (hu : u ∈ c.leadsTo t) (hv : c.LooksAt u v) :
      Led c start v

/-- From a type a path of names denotes what its names lead to, one nested type after the other. -/
inductive Denotes (c : Catalog) : Ty → List String → Ty → Prop
  | here (t : Ty) : Denotes c t [] t
  | nested {t u v : Ty} {name : String} {rest : List String} (hu : c.nestedType t name = some u)
      (hv : Denotes c u rest v) : Denotes c t (name :: rest) v

theorem descend_eq_some_iff : c.descend path t = some u ↔ c.Denotes t path u := by
  induction path generalizing t with
  | nil =>
    refine ⟨fun h => ?_, fun h => ?_⟩
    · obtain rfl := Option.some.inj h
      exact .here t
    · cases h
      rfl
  | cons name rest ih =>
    have hunfold : c.descend (name :: rest) t = (c.nestedType t name).bind (c.descend rest) := by
      rw [descend, ← nestedType]
      cases c.nestedType t name <;> rfl
    rw [hunfold, Option.bind_eq_some_iff]
    constructor
    · rintro ⟨v, hv, hrest⟩
      exact .nested hv (ih.mp hrest)
    · intro h
      cases h with
      | nested hu hv => exact ⟨_, hu, ih.mpr hv⟩

theorem descend_eq_none_iff : c.descend path t = none ↔ ∀ u, ¬ c.Denotes t path u := by
  rw [Option.eq_none_iff_forall_ne_some]
  exact forall_congr' fun u => not_congr descend_eq_some_iff

/-! ## Where the search looks -/

section Search

variable (hc : c.Kindred) (hgrounded : c.Grounded)

include hc hgrounded

/-- What a metaclass belongs to is no metaclass, so the search looks at one type. -/
theorem looksAt_iff : c.LooksAt t u ↔ u = c.searched t := by
  have hown : ∀ t, c.isMeta t = false → c.searched t = c.resolve t := by
    intro t ht
    have hsubject : c.subject t = c.resolve t := by
      unfold isMeta at ht
      unfold subject
      cases hs : c.resolvedShape t with
      | metaclass => rw [hs] at ht; cases ht
      | _ => rfl
    rw [searched, hsubject]
    exact hgrounded.resolve_idem t
  have hmeta : ∀ t k v, c.resolvedShape t = .metaclass k v →
      c.searched t = c.resolve v ∧ c.isMeta v = false := by
    intro t k v ht
    have horiginal := (hc.subject (c.resolve t) k v ht).2
    have hresolve : c.resolve v = v := by
      refine resolveWithin_of_not_provisional ?_ _
      cases hs : c.shape v with
      | provisional => rw [hs] at horiginal; cases horiginal
      | _ => rfl
    refine ⟨by rw [searched, subject, ht], ?_⟩
    unfold isMeta resolvedShape
    rw [hresolve]
    cases hs : c.shape v with
    | metaclass => rw [hs] at horiginal; cases horiginal
    | _ => rfl
  constructor
  · intro h
    cases h with
    | own ht => exact (hown t ht).symm
    | @subject k _ v _ ht hv =>
      obtain ⟨hsearched, hother⟩ := hmeta t k v ht
      cases hv with
      | own _ => exact hsearched.symm
      | subject hv _ =>
        unfold isMeta at hother
        rw [hv] at hother
        cases hother
  · rintro rfl
    cases ht : c.isMeta t with
    | false => exact hown t ht ▸ .own ht
    | true =>
      unfold isMeta at ht
      cases hs : c.resolvedShape t with
      | metaclass k v =>
        obtain ⟨hsearched, hother⟩ := hmeta t k v hs
        exact hsearched ▸ .subject hs (.own hother)
      | _ => rw [hs] at ht; cases ht

theorem lt_searched (ht : t.index < c.size) : (c.searched t).index < c.size := by
  have hsubject : (c.subject t).index < c.size := by
    have hresolve := (hgrounded.resolve_definite ht).1
    unfold subject
    split
    · next k v hs =>
      have hnext := (hc.subject (c.resolve t) k v hs).1
      rw [hnext] at hresolve
      exact Nat.lt_of_succ_lt hresolve
    · exact hresolve
  exact (hgrounded.resolve_definite hsubject).1

theorem outward_entered (h : u ∈ c.outward t) : u ∈ c.entered := by
  obtain ⟨v, hv, rfl⟩ := List.mem_map.mp h
  refine mem_entered.mpr (lt_searched hc hgrounded ?_)
  rcases List.mem_append.mp hv with hv | hv
  · exact hc.lt_of_parents hv
  · exact hc.lt_of_container (Option.mem_toList.mp hv)

/-- A tour is a depth-first search over what the types on its way lead to. -/
theorem tour_iff_visit : c.Tour seen stack order ↔
    Visit c.outward seen (stack.map c.searched) order := by
  constructor
  · intro h
    induction h with
    | done => exact .nil _
    | @skip seen rest order t u ht hu _ ih =>
      rw [List.map_cons, ← (looksAt_iff hc hgrounded).mp ht]
      exact .skip hu ih
    | @enter seen rest below after t u ht hu _ _ ihbelow ihafter =>
      rw [List.map_cons, ← (looksAt_iff hc hgrounded).mp ht]
      exact .enter hu ihbelow ihafter
  · intro h
    generalize hstack : stack.map c.searched = searched at h
    induction h generalizing stack with
    | nil =>
      rw [List.map_eq_nil_iff.mp hstack]
      exact .done _
    | skip ha _ ih =>
      obtain ⟨t, rest, rfl, rfl, hrest⟩ := List.map_eq_cons_iff.mp hstack
      exact .skip ((looksAt_iff hc hgrounded).mpr rfl) ha (ih hrest)
    | enter ha _ _ ihbelow ihafter =>
      obtain ⟨t, rest, rfl, rfl, hrest⟩ := List.map_eq_cons_iff.mp hstack
      exact .enter ((looksAt_iff hc hgrounded).mpr rfl) ha (ihbelow rfl) (ihafter hrest)

theorem led_iff_reaches : c.Led start t ↔ Reaches c.outward (c.searched start) t := by
  constructor
  · intro h
    induction h with
    | start ht =>
      rw [(looksAt_iff hc hgrounded).mp ht]
      exact .refl
    | step _ hu hv ih =>
      rw [(looksAt_iff hc hgrounded).mp hv]
      exact ih.tail (List.mem_map_of_mem hu)
  · intro h
    induction h with
    | refl => exact .start ((looksAt_iff hc hgrounded).mpr rfl)
    | tail _ hu ih =>
      obtain ⟨v, hv, rfl⟩ := List.mem_map.mp hu
      exact ih.step hv ((looksAt_iff hc hgrounded).mpr rfl)

/-- The types whose namespaces are looked at, in the order in which they are. -/
theorem exists_tour (start : Ty) : ∃ order, (∀ other, c.Tour [] [start] other ↔ other = order) ∧
    order.Nodup ∧ (∀ t, t ∈ order ↔ c.Led start t) ∧
      ∀ path, c.find path start = order.findSome? (c.descend path) := by
  have hclosed : ∀ t ∈ c.searched start :: c.entered, ∀ u ∈ c.outward t,
      u ∈ c.searched start :: c.entered :=
    fun _ _ _ hu => List.mem_cons_of_mem _ (outward_entered hc hgrounded hu)
  have hbound : (c.searched start :: c.entered).length ≤ c.size + 1 := by
    rw [List.length_cons, length_entered]
  have hvisit : Visit c.outward [] [c.searched start]
      (preorder c.outward (c.size + 1) [] [c.searched start]) :=
    visit_preorder hclosed [] _ (fun t ht => List.mem_singleton.mp ht ▸ List.mem_cons_self)
      (Nat.le_trans (List.length_filter_le _ _) hbound)
  refine ⟨_, fun other => ⟨fun h => ?_, fun h => ?_⟩, hvisit.nodup.1,
    fun t => ⟨fun h => ?_, fun h => ?_⟩, fun path => rfl⟩
  · exact ((tour_iff_visit hc hgrounded).mp h).unique hvisit
  · exact (tour_iff_visit hc hgrounded).mpr (h ▸ hvisit)
  · obtain ⟨first, hfirst, hreach⟩ := reaches_of_mem_preorder h
    rw [List.mem_singleton.mp hfirst] at hreach
    exact (led_iff_reaches hc hgrounded).mpr hreach
  · exact mem_preorder_of_reaches hclosed List.mem_cons_self hbound
      ((led_iff_reaches hc hgrounded).mp h)

end Search

end Catalog

namespace Store

open Catalog

/-- From each type there is exactly one tour, and it comes to all types that parents and namespaces
lead to, once to each. A path of names is found from the first of these types, in the order of the
tour, from which the path denotes a type, and that type is what is found. If the path denotes nothing
from any of them, nothing is found. -/
theorem find_complete {s : Store} (hs : s.Moved) (path : List String) (start : Ty) :
    let c := s.catalog
    ∃ order, (∀ other, c.Tour [] [start] other ↔ other = order) ∧
      order.Nodup ∧ (∀ t, t ∈ order ↔ c.Led start t) ∧
      (∀ u, c.find path start = some u ↔ ∃ before t after, order = before ++ t :: after ∧
        c.Denotes t path u ∧ ∀ v ∈ before, ∀ w, ¬ c.Denotes v path w) ∧
      (c.find path start = none ↔ ∀ t, c.Led start t → ∀ u, ¬ c.Denotes t path u) := by
  obtain ⟨order, hunique, hnodup, hmem, hfind⟩ :=
    exists_tour hs.kindred hs.started.orderly.catalog.canonical.grounded start
  refine ⟨order, hunique, hnodup, hmem, fun u => ?_, ?_⟩
  · simp only [hfind, List.findSome?_eq_some_iff, descend_eq_some_iff, descend_eq_none_iff]
  · rw [hfind, List.findSome?_eq_none_iff]
    exact forall_congr' fun t => by rw [hmem, descend_eq_none_iff]

/-- A module in another one, which includes it and has a name in it. -/
def entwined : Catalog :=
  seeded.performAll [.mixin "Outer" (some .main), .mixin "Inner" (some ⟨36⟩),
    .name ⟨38⟩ "Back" ⟨36⟩, .inclusion ⟨36⟩ ⟨38⟩]

/-- `Outer` leads to `Inner` by its parents, and `Inner` to `Outer` by its namespace. From the
metaclass of `Outer`, `Back` is found in `Inner`, and no type has another name. -/
theorem find_complete_entwined : Moved ⟨entwined, .empty 0⟩ ∧
    (∃ before t after, entwined.Tour [] [⟨37⟩] (before ++ t :: after) ∧
      entwined.Denotes t ["Back"] ⟨36⟩ ∧ ∀ v ∈ before, ∀ w, ¬ entwined.Denotes v ["Back"] w) ∧
    ∀ t, entwined.Led ⟨38⟩ t → ∀ u, ¬ entwined.Denotes t ["Missing"] u := by
  have hcomputed : seeded.KnowsAll [.mixin "Outer" (some .main), .mixin "Inner" (some ⟨36⟩),
      .name ⟨38⟩ "Back" ⟨36⟩, .inclusion ⟨36⟩ ⟨38⟩] ∧
      entwined.find ["Back"] ⟨37⟩ = some ⟨36⟩ ∧ entwined.find ["Missing"] ⟨38⟩ = none := by
    decide +kernel
  obtain ⟨hknown, hback, hmissing⟩ := hcomputed
  have hmoved : Moved ⟨entwined, .empty 0⟩ := (Moved.start 0).requests hknown
  have hfound := find_complete hmoved ["Back"] ⟨37⟩
  have hnone := find_complete hmoved ["Missing"] ⟨38⟩
  dsimp only at hfound hnone
  generalize entwined = c at *
  obtain ⟨order, hunique, -, -, hfirst, -⟩ := hfound
  obtain ⟨-, -, -, -, -, hiff⟩ := hnone
  obtain ⟨before, t, after, horder, hdenotes, hbefore⟩ := (hfirst ⟨36⟩).mp hback
  exact ⟨hmoved, ⟨before, t, after, (hunique _).mpr horder.symm, hdenotes, hbefore⟩,
    hiff.mp hmissing⟩

end Store

end FlowTyping
