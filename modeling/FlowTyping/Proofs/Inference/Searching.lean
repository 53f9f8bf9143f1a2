import FlowTyping.Proofs.Catalog.Delegation
import FlowTyping.Proofs.Forest
import FlowTyping.Proofs.Inference.Interchange

/-
  The order of search

  A call on a type looks through the class tables of the type and of all that it
  goes back to, depth first. The search marks the types it has been at and keeps
  within a bound. In a catalog in which no type is among its own ancestors that
  makes no difference (`select_eq_found`): the tables might as well be looked
  through in the plain order, as often as there are ways to them.

  What the call selects is then told by the tables in this order
  (`selects_first_best`).
-/
namespace FlowTyping

open Relation

namespace Catalog

variable {c : Catalog} {q : Query} {owner t : Ty} {order : List Ty}

/-- What a type goes back to on a search. -/
def ascents (c : Catalog) (t : Ty) : List Ty := (c.parents t).map c.resolve

/-- The types whose tables tell of a call on a type, in depth-first preorder: the type itself alone
for `new` on a metaclass, and otherwise also all that it goes back to. -/
def Searches (c : Catalog) (owner : Ty) (q : Query) (order : List Ty) : Prop :=
  if q.name = "new" ∧ c.isMeta q.receiver then order = [c.resolve owner]
  else Walk c.ascents [c.resolve owner] order

theorem Searches.own (h : c.Searches owner q order) : ∃ above, order = c.resolve owner :: above := by
  unfold Searches at h
  split at h
  · exact ⟨[], h⟩
  · obtain ⟨above, -, habove⟩ := h.of_singleton
    exact ⟨above, habove⟩

/-- A way back to a type by search is a way back to it, or to another one that stands for it. -/
theorem Grounded.exists_ancestor (hc : c.Grounded) {u : Ty}
    (h : TransGen (fun t p => p ∈ c.ascents t) t u) :
    ∃ p, TransGen (fun t p => p ∈ c.parents t) t p ∧ c.resolve p = u := by
  induction h with
  | single hu =>
    obtain ⟨p, hp, rfl⟩ := List.mem_map.mp hu
    exact ⟨p, .single hp, rfl⟩
  | tail _ hu ih =>
    obtain ⟨p, hp, rfl⟩ := ih
    obtain ⟨v, hv, rfl⟩ := List.mem_map.mp hu
    have hsame : c.parents (c.resolve p) = c.parents p := Coincide.parents (hc.resolve_idem p)
    rw [hsame] at hv
    exact ⟨v, hp.tail hv, rfl⟩

/-- If no type is among its own ancestors, no search comes back to where it was. -/
theorem Acyclic.ascents (hacyclic : c.Acyclic) (hc : c.Grounded) (t : Ty) :
    ¬ TransGen (fun t p => p ∈ c.ascents t) t t := by
  intro hback
  obtain ⟨p, hp, hresolve⟩ := hc.exists_ancestor hback
  -- what the type goes back to first, the last type on the way goes back to as well
  have hsame : c.parents p = c.parents t :=
    Coincide.parents (hresolve ▸ (hc.resolve_idem p).symm)
  obtain ⟨u, hu, hrest⟩ := TransGen.head'_iff.mp hp
  exact hacyclic p (TransGen.head' (hsame ▸ hu) hrest)

section Search

variable (hc : c.Grounded) (hacyclic : c.Acyclic)
  (hascents : ∀ t, ∀ u ∈ c.ascents t, u ∈ c.entered)

include hc hacyclic hascents

theorem wellFounded_ascents : WellFounded fun u t => u ∈ c.ascents t :=
  wellFounded_of_acyclic hascents (hacyclic.ascents hc)

/-- There is such an order. -/
theorem exists_searches (owner : Ty) (q : Query) : ∃ order, c.Searches owner q order := by
  unfold Searches
  split
  · exact ⟨_, rfl⟩
  · exact exists_walk (wellFounded_ascents hc hacyclic hascents) _

/-- The marks and the bound of the search make no difference. -/
theorem select_eq_found (h : c.Searches owner q order) : c.select owner q = c.found q order := by
  show c.found q (c.searchOrder owner q) = c.found q order
  unfold Searches at h
  unfold searchOrder
  split at h
  · next hnew => rw [if_pos hnew, h]
  · next hnew =>
    rw [if_neg hnew]
    have hclosed : ∀ t ∈ c.resolve owner :: c.entered, ∀ u ∈ c.ascents t,
        u ∈ c.resolve owner :: c.entered := fun t _ u hu => List.mem_cons_of_mem _ (hascents t u hu)
    have hbound : (c.resolve owner :: c.entered).length ≤ c.size + 1 := by
      rw [List.length_cons, length_entered]
    have hroots : ∀ t ∈ [c.resolve owner], t ∈ c.resolve owner :: c.entered := fun t ht =>
      List.mem_singleton.mp ht ▸ List.mem_cons_self
    have hwalk := h.result_eq hclosed hbound (c.found_append q) (c.found_again q)
      (wellFounded_ascents hc hacyclic hascents) hroots
    rwa [List.flatMap_singleton] at hwalk

end Search

end Catalog

open Catalog

namespace Run

variable {r : Run} {options : Options}

theorem Moves.contained (h : (start .seeded options).Moves r) : r.Contained :=
  (h.proceeds (contained_start (contained_seeded 0 0) options)).contained

theorem Moves.ascents_entered (h : (start .seeded options).Moves r) (t : Ty) :
    ∀ u ∈ r.catalog.ascents t, u ∈ r.catalog.entered := by
  intro u hu
  obtain ⟨p, hp, rfl⟩ := List.mem_map.mp hu
  have hcatalog := h.contained.catalog
  exact mem_entered.mpr (hcatalog.lt_resolve (hcatalog.lt_of_parents (Nat.le_refl _) hp))

end Run

/-- What requests about entered types lead to, a run can start with. -/
theorem Catalog.Reached.moves {allowed : Catalog → Request → Prop} {c : Catalog}
    (hknows : ∀ c r, allowed c r → c.Knows r) (h : c.Reached allowed) (options : Options) :
    (Run.start .seeded options).Moves (Run.start c options) := by
  have hdevelops : seeded.Develops c := by
    induction h with
    | start => exact .refl (contained_seeded 0 0)
    | step _ r hr ih => exact ih.trans (ih.contained.develops r (hknows _ r hr))
  exact (proceeds_start hdevelops options).moves

/-- At each point of a run at which no type is among its own ancestors, a call selects what is best
in the first table that has a best definition for it. The tables are those of the owner and of all
that it goes back to, in depth-first preorder, and that of the owner alone for `new` on a metaclass.
If no table has a best definition the first one that knows the name tells why, and if there is no
such table either the call is undefined. -/
theorem selects_first_best (options : Options) (r : Run)
    (hmoves : (Run.start .seeded options).Moves r) (hacyclic : r.catalog.Acyclic) (owner : Ty)
    (q : Query) :
    (∃ order, r.catalog.Searches owner q order) ∧
    ∀ order, r.catalog.Searches owner q order →
      (∀ m, r.catalog.select owner q = .ok m ↔ r.catalog.FirstBest q m order) ∧
      (r.catalog.select owner q = .error .undefined ↔
        ∀ t ∈ order, r.catalog.overloadsOf t q.name = none) ∧
      (∀ miss, r.catalog.select owner q = .error miss → miss ≠ .undefined →
        (∀ t ∈ order, ∀ m, ¬ r.catalog.Best q t m) ∧ r.catalog.FirstReports q miss order) ∧
      ∀ miss, r.catalog.select owner q = .error miss →
        r.catalog.overloadsOf (r.catalog.resolve owner) q.name ≠ none →
          r.catalog.Reports q (r.catalog.resolve owner) miss := by
  have hascents := hmoves.ascents_entered
  refine ⟨exists_searches hmoves.grounded hacyclic hascents owner q, fun order horder => ?_⟩
  rw [select_eq_found hmoves.grounded hacyclic hascents horder]
  refine ⟨fun m => found_eq_ok_iff, found_eq_undefined_iff, fun miss => firstReports_of_found,
    fun miss hmiss hknown => ?_⟩
  obtain ⟨above, rfl⟩ := horder.own
  have hdefined : miss ≠ .undefined := by
    rintro rfl
    exact hknown (found_eq_undefined_iff.mp hmiss _ List.mem_cons_self)
  exact (firstReports_of_found hmiss hdefined).2.own hknown

/-- Where the definitions of the owner are tied, the best definition of the next table is
selected. -/
theorem selects_first_best_overruled :
    (Run.start .seeded ⟨100, 5, 8, 5⟩).Moves (Run.start overruled ⟨100, 5, 8, 5⟩) ∧
    overruled.Acyclic ∧ ∃ order, overruled.Searches ⟨38⟩ ⟨"join", [.int, .int], false, ⟨38⟩⟩ order ∧
      overruled.FirstBest ⟨"join", [.int, .int], false, ⟨38⟩⟩ ⟨218⟩ order := by
  have hmoves := reached_overruled.moves (fun _ _ h => h.2.1) ⟨100, 5, 8, 5⟩
  have hacyclic := reached_overruled.layered.acyclic
  obtain ⟨-, -, -, -, -, -, hselect⟩ := computed_joins
  refine ⟨hmoves, hacyclic, ?_⟩
  generalize overruled = c at hmoves hacyclic hselect ⊢
  obtain ⟨⟨order, horder⟩, htells⟩ := selects_first_best ⟨100, 5, 8, 5⟩ _ hmoves hacyclic ⟨38⟩
    ⟨"join", [.int, .int], false, ⟨38⟩⟩
  exact ⟨order, horder, ((htells order horder).1 _).mp hselect⟩

end FlowTyping
