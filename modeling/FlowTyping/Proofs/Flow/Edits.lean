import FlowTyping.Proofs.Flow.Handover

/-
  What typing may do to a store

  Whatever an expression types, it only adds nodes, binds and unbinds them, lets
  calls watch them, enters constants and copies of generic types, and gives
  nodes provisional types (`Store.Edit`). Nothing is asked of a store for that,
  and an edit may fail. No edit takes a node off the queue, so the budget stays
  (`Edits.budget`). Provisional types stay as they are, and a new one is the
  first of its line (`Edits.founds`).
-/
namespace FlowTyping

open Steps

namespace Catalog

variable {c c' d : Catalog} {p : Provisional}

/-- The provisional types stay as they are, and the new ones have succeeded none. -/
structure Founds (c c' : Catalog) : Prop where
  kept : ∀ t p, c.shape t = .provisional p → c'.shape t = .provisional p
  new : ∀ t p, c'.shape t = .provisional p → c.shape t = .provisional p ∨
    (p.generation = 0 ∧ p.standing.isSuperseded = false)

namespace Founds

theorem refl (c : Catalog) : c.Founds c := ⟨fun _ _ h => h, fun _ _ h => .inl h⟩

theorem trans (h₁ : c.Founds c') (h₂ : c'.Founds d) : c.Founds d where
  kept t p hp := h₂.kept t p (h₁.kept t p hp)
  new t p hp := by
    rcases h₂.new t p hp with hp | hp
    · exact h₁.new t p hp
    · exact .inr hp

theorem of_appends (h : c.Appends c') : c.Founds c' where
  kept t _ hp := (h.shape t (lt_size_of_provisional hp)).trans hp
  new t p hp := .inl (h.steady t p hp)

/-- A specialization is no provisional type. -/
theorem of_gains (h : c.Gains c') : c.Founds c' where
  kept _ p := (h.provisional_iff p).mpr
  new _ p hp := .inl ((h.provisional_iff p).mp hp)

/-- A provisional type that has succeeded none may be added. -/
theorem push (hgeneration : p.generation = 0) (hlive : p.standing.isSuperseded = false) :
    c.Founds (c.push (.provisional p)).2 where
  kept t q hq := by rw [shape_push, if_neg (Nat.ne_of_lt (lt_size_of_provisional hq)), hq]
  new t q hq := by
    rw [shape_push] at hq
    split at hq
    · obtain rfl := Shape.provisional.inj hq
      exact .inr ⟨hgeneration, hlive⟩
    · exact .inl hq

end Founds

end Catalog

namespace Store

open Catalog

variable {s s' : Store}

/-- One edit of a store. -/
inductive Edit (s : Store) : Store → Prop
  | add (kind : CellKind) (type : Option Ty) (place : Place) :
      Edit s ⟨s.catalog, (s.graph.add kind type place).2⟩
  | bind (n d : Node) : Edit s (s.bind n d)
  | unbind (n d : Node) : Edit s (s.unbind n d)
  | watch (n : Node) (site : Site) : Edit s ⟨s.catalog, s.graph.watch n (.site site)⟩
  | constant (name : String) (value : Expr) (container : Ty) :
      Edit s ⟨(s.catalog.newConstant name value container).2, s.graph⟩
  | copy (t : Ty) : Edit s ⟨(s.catalog.specialize t []).2, s.graph⟩
  | install (template : Ty) (observed : List (String × Node)) (holder : Node) :
      Edit s (left (install template observed holder s))

def Edits : Store → Store → Prop := Relation.ReflTransGen Edit

/-! ## The budget -/

theorem budget_bind (s : Store) (n d : Node) : (s.bind n d).graph.budget = s.graph.budget := by
  rw [bind_eq]
  split
  · exact (budget_recompute ⟨s.catalog, s.graph.link n d⟩ n).1
  · rfl

theorem budget_watchAll (g : Graph) (observed : List (String × Node)) (t : Ty) :
    (watchAll g observed t).budget = g.budget := by
  unfold watchAll
  induction observed generalizing g with
  | nil => rfl
  | cons b observed ih => exact ih _

theorem Edit.budget (h : s.Edit s') : s'.graph.budget = s.graph.budget := by
  cases h with
  | add | watch | constant | copy => rfl
  | bind n d => exact budget_bind s n d
  | unbind n d => exact (budget_recompute ⟨s.catalog, s.graph.unlink n d⟩ n).1
  | install template observed holder =>
    rcases graph_install s template observed holder with heq | ⟨t, heq⟩
    · rw [heq]
    · rw [heq]
      exact (budget_retype _ _ _).1.trans (budget_watchAll _ _ _)

theorem Edits.budget (h : s.Edits s') : s'.graph.budget = s.graph.budget := by
  induction h with
  | refl => rfl
  | tail _ hedit ih => exact hedit.budget.trans ih

/-! ## Provisional types -/

theorem founds_install (s : Store) (template : Ty) (observed : List (String × Node))
    (holder : Node) :
    s.catalog.Founds (left (install template observed holder s)).catalog := by
  unfold install
  rw [Steps.bind_eq]
  rcases specializationFor_cases s template observed with ⟨target, c, hc, heq⟩ | ⟨e, heq⟩
  · have hlive := Standing.isSuperseded_of_target? (target?_standing s.graph observed target)
    rw [heq]
    exact (Founds.of_gains (.instantiate hc)).trans (.push rfl hlive)
  · rw [heq]
    exact .refl _

theorem Edit.founds (h : s.Edit s') : s.catalog.Founds s'.catalog := by
  cases h with
  | add | watch => exact .refl _
  | bind n d => exact .of_appends (bind_appends s n d)
  | unbind n d => exact .of_appends (unbind_appends s n d)
  | constant name value container => exact .of_appends (.newConstant _ name value container)
  | copy t => exact .of_appends (.specialize _ t [])
  | install template observed holder => exact founds_install s template observed holder

theorem Edits.founds (h : s.Edits s') : s.catalog.Founds s'.catalog := by
  induction h with
  | refl => exact .refl _
  | tail _ hedit ih => exact ih.trans hedit.founds

/-- A round of propagation, also one that fails, leaves provisional types alone. -/
theorem founds_propagate (s : Store) : s.catalog.Founds (left (propagate s)).catalog :=
  left_drain (fun r => s.catalog.Founds r.catalog)
    (fun r n hr => hr.trans (.of_appends (recompute_appends r n))) (fun _ _ _ _ hr => hr)
    (fun _ _ hr => hr) _ _ (.refl _)

end Store

end FlowTyping
