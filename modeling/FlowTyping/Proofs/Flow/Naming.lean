import FlowTyping.Proofs.Catalog.Indexing
import FlowTyping.Proofs.Flow.Propagation
import FlowTyping.Proofs.Flow.Provisional

/-
  Names while a program is typed

  Of all that happens to a catalog while a program is typed, only the declaration
  of a constant that has none yet enters a name. So a name goes on to mean what
  it means (`Catalog.KeepsNames`).
-/
namespace FlowTyping

namespace Catalog

variable {c c' d : Catalog} {t scope target : Ty} {name : String}

/-- Names go on to mean what they mean. -/
abbrev KeepsNames (c c' : Catalog) : Prop := c.Displaces [] c'

/-! ## Operations that leave class tables alone -/

theorem classes_intern (c : Catalog) (p : Shape → Bool) (s : Shape) :
    (c.intern p s).2.classes = c.classes := by
  unfold intern
  split <;> rfl

theorem classes_merge (c : Catalog) (ts : List Ty) : (c.merge ts).2.classes = c.classes := by
  unfold merge
  split
  · rfl
  · rfl
  · rw [union_eq_intern]
    exact classes_intern c _ _

theorem classes_pointerFor (c : Catalog) (t : Ty) : (c.pointerFor t).2.classes = c.classes := by
  rw [pointerFor_eq_intern]
  exact classes_intern c _ _

theorem classes_specialize (c : Catalog) (t : Ty) (bindings : List (String × Ty)) :
    (c.specialize t bindings).2.classes = c.classes := by
  unfold specialize
  split <;> rfl

theorem classes_instantiate {bindings : List (String × Ty)}
    (h : c.instantiate t bindings = .ok (target, c')) : c'.classes = c.classes := by
  unfold instantiate at h
  split at h
  · cases h
  · next template _ =>
    dsimp only at h
    split at h
    · cases h
      rfl
    · cases h
      exact classes_specialize c template _

/-- A name that is free in a namespace may be entered there. -/
theorem Displaces.newConstant_of_free (hfree : c.nestedType scope name = none) (value : Expr) :
    c.KeepsNames (c.newConstant name value scope).2 := by
  have hdisplaces := Displaces.newConstant c scope name value
  rwa [hfree] at hdisplaces

end Catalog

namespace Store

open Catalog

theorem classes_joined (c : Catalog) (ts : List Ty) : (joined c ts).2.classes = c.classes := by
  unfold joined
  split
  · rfl
  · rfl
  · exact classes_merge c _

theorem classes_combine (c : Catalog) (kind : CellKind) (ts : List Ty) :
    (combine c kind ts).2.classes = c.classes := by
  rw [combine_eq_joined]
  split
  · exact classes_joined c ts
  · exact classes_joined c ts
  · exact (classes_pointerFor _ _).trans (classes_joined c ts)

theorem classes_recompute (s : Store) (n : Node) :
    (s.recompute n).catalog.classes = s.catalog.classes := by
  rw [catalog_recompute]
  exact classes_combine _ _ _

theorem classes_bind (s : Store) (n d : Node) :
    (s.bind n d).catalog.classes = s.catalog.classes := by
  rw [bind_eq]
  split
  · exact classes_recompute ⟨s.catalog, s.graph.link n d⟩ n
  · rfl

theorem classes_unbind (s : Store) (n d : Node) :
    (s.unbind n d).catalog.classes = s.catalog.classes :=
  classes_recompute ⟨s.catalog, s.graph.unlink n d⟩ n

theorem classes_install (s : Store) (template : Ty) (observed : List (String × Node))
    (holder : Node) :
    (Steps.left (install template observed holder s)).catalog.classes = s.catalog.classes := by
  unfold install
  rw [Steps.bind_eq]
  unfold specializationFor
  cases hc : s.catalog.instantiate template (bindings s.graph observed) with
  | error e => rfl
  | ok entered =>
    have hclasses : entered.2.classes = s.catalog.classes := classes_instantiate hc
    exact hclasses

theorem classes_drain (budget : Nat) (s : Store) (wakes : List Wake) :
    (Steps.left (drain budget s wakes)).catalog.classes = s.catalog.classes := by
  induction budget generalizing s wakes with
  | zero =>
    unfold drain
    split <;> rfl
  | succ budget ih =>
    unfold drain
    split
    · rfl
    · next n rest _ =>
      refine (ih _ _).trans ?_
      exact notify_keeps (fun t => t.catalog.classes = s.catalog.classes)
        (fun t n ht => (classes_recompute t n).trans ht) _ _ rfl

theorem classes_refresh (t : Ty) (limit : Nat) (s : Store) :
    (Steps.left (refresh t limit s)).catalog.classes = s.catalog.classes := by
  rw [show refresh t limit s = _ from Steps.get_bind_eq]
  cases s.catalog.shape t with
  | provisional p =>
    dsimp only
    cases p.standing.target? with
    | none => rfl
    | some former =>
      dsimp only
      rw [Steps.bind_eq]
      unfold specializationFor
      cases hc : s.catalog.instantiate p.template (bindings s.graph p.observed) with
      | error e => rfl
      | ok entered =>
        have hclasses : entered.2.classes = s.catalog.classes := classes_instantiate hc
        dsimp only
        split
        · exact hclasses
        · split
          · exact hclasses
          · exact hclasses
  | _ => rfl

end Store

end FlowTyping
