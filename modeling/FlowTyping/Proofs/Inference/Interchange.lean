import FlowTyping.Proofs.Catalog.Interchange
import FlowTyping.Proofs.Flow.Equality
import FlowTyping.Proofs.Inference.Handles

/-
  Provisional types are transparent

  What a type stands for stands for itself as long as provisional types lead to
  other types, so a type and what it stands for coincide (`interchangeable`).

  That holds in each store that operations on entered types lead to from the
  built-in types. The steps of a run change its store by such operations alone
  (`Run.Acts.moved`), so it holds at each point of a check
  (`provisionals_transparent`).
-/
namespace FlowTyping

open Catalog

namespace Catalog.Grounded

variable {c : Catalog} {p : Ty}

theorem interchangeable (hc : c.Grounded) (p : Ty) : c.Interchangeable p (c.resolve p) :=
  Coincide.interchangeable (hc.resolve_idem p).symm

theorem resolve_ne_of_superseded (hc : c.Grounded) (hp : p.index < c.size)
    (hsuperseded : c.isSuperseded p = true) : c.resolve p ≠ p := by
  intro hsame
  have hdefinite := hc.resolve_definite hp
  rw [hsame] at hdefinite
  cases hsuperseded.symm.trans (isSuperseded_of_definite hdefinite)

end Catalog.Grounded

namespace Store

variable {s : Store}

theorem Moved.observe (h : s.Moved) (ns : List Node) (site : Site) :
    Moved ⟨s.catalog, s.graph.observe ns site⟩ := by
  refine List.foldlRecOn ns _ (motive := fun g : Graph => Moved ⟨s.catalog, g⟩) h ?_
  exact fun g hg n _ => hg.step (.watch n (.site site))

end Store

namespace Run

variable {r r' : Run} {options : Options}

theorem Acts.moved (h : r.store.Moved) (hact : r.Acts r') : r'.store.Moved := by
  cases hact with
  | store act hhandles => exact h.step (Store.Act.move hhandles)
  | enter e _ =>
    cases e with
    | call call => exact h.observe _ _
    | _ => exact h
  | retarget site targets _ => exact h

theorem Moves.moved (h : (start .seeded options).Moves r) : r.store.Moved := by
  induction h with
  | refl => exact .start _
  | tail _ hact ih => exact hact.moved ih

theorem Moves.grounded (h : (start .seeded options).Moves r) : r.catalog.Grounded := h.moved.grounded

end Run

/-- A provisional type, live or superseded, is told from what it stands for by no operation: not in
a store that operations on entered types lead to, and at no point of a run, be it a check that
succeeds or one that fails. -/
theorem provisionals_transparent (options : Options) :
    (∀ s : Store, s.Moved → ∀ p, s.catalog.Interchangeable p (s.catalog.resolve p)) ∧
    (∀ r, (Run.start .seeded options).Moves r →
      ∀ p, r.catalog.Interchangeable p (r.catalog.resolve p)) ∧
    ∀ program, (Run.start .seeded options).Moves (ending program options) :=
  ⟨fun _ hs => hs.grounded.interchangeable, fun _ hr => hr.grounded.interchangeable,
    fun program => moves_ending program options⟩

/-- A check with a superseded type, which is another one than what it stands for and yet is
displayed, merged with and called as that one. -/
theorem provisionals_transparent_relisted : ∃ r p, (Run.start .seeded ⟨100, 5, 8, 5⟩).Moves r ∧
    r.catalog.isSuperseded p = true ∧ r.catalog.resolve p ≠ p ∧
      r.catalog.Interchangeable p (r.catalog.resolve p) := by
  obtain ⟨i, hi, hsuperseded⟩ := List.any_eq_true.mp relisted_supersedes
  obtain ⟨-, hruns, hchecks⟩ := provisionals_transparent ⟨100, 5, 8, 5⟩
  have hmoves := hchecks relisted
  have hne := hmoves.grounded.resolve_ne_of_superseded (p := ⟨i⟩) (List.mem_range.mp hi) hsuperseded
  exact ⟨_, ⟨i⟩, hmoves, hsuperseded, hne, hruns _ hmoves ⟨i⟩⟩

end FlowTyping
