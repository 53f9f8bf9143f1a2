import FlowTyping.Proofs.Flow.Limits
import FlowTyping.Proofs.Flow.Naming
import FlowTyping.Proofs.Flow.Session

/-
  What operations on a store leave alone

  Definitions come from the declarations of a program, and so do constants, apart
  from those that are met first when the expressions are typed. No operation on
  a store adds either, or changes a class table (`Catalog.Preserves`), also when
  it fails. An operation that fails reports a fault (`install_fails`,
  `propagate_fails`, `refresh_fails`).
-/
namespace FlowTyping

open Steps

/-- Whether a shape is that of a constant. -/
def Shape.isConstant : Shape → Bool
  | .constant _ _ _ => true
  | _ => false

namespace Catalog

variable {c c' d : Catalog} {t : Ty}

/-- The class tables and the definitions stay, and no constant is added. -/
structure Preserves (c c' : Catalog) : Prop where
  classes : c'.classes = c.classes
  methods : c'.methods = c.methods
  constants : ∀ t name container value, c'.shape t = .constant name container value →
    c.shape t = .constant name container value

namespace Preserves

theorem refl (c : Catalog) : c.Preserves c := ⟨rfl, rfl, fun _ _ _ _ h => h⟩

theorem trans (h : c.Preserves c') (h' : c'.Preserves d) : c.Preserves d :=
  ⟨h'.classes.trans h.classes, h'.methods.trans h.methods,
    fun t name container value hd => h.constants t name container value
      (h'.constants t name container value hd)⟩

theorem push (c : Catalog) {s : Shape} (hs : s.isConstant = false) :
    c.Preserves (c.push s).2 := by
  refine ⟨rfl, rfl, fun t name container value h => ?_⟩
  rw [shape_push] at h
  split at h
  · rw [h] at hs
    cases hs
  · exact h

theorem setShape (c : Catalog) (t : Ty) {s : Shape} (hs : s.isConstant = false) :
    c.Preserves (c.setShape t s) := by
  refine ⟨rfl, rfl, fun u name container value h => ?_⟩
  rw [shape_setShape] at h
  split at h
  · rw [h] at hs
    cases hs
  · exact h

theorem intern (c : Catalog) (p : Shape → Bool) {s : Shape} (hs : s.isConstant = false) :
    c.Preserves (c.intern p s).2 := by
  unfold Catalog.intern
  split
  · exact .refl c
  · exact .push c hs

theorem merge (c : Catalog) (ts : List Ty) : c.Preserves (c.merge ts).2 := by
  unfold Catalog.merge
  split
  · exact .refl c
  · exact .refl c
  · rw [union_eq_intern]
    exact .intern c _ rfl

theorem pointerFor (c : Catalog) (t : Ty) : c.Preserves (c.pointerFor t).2 := by
  rw [pointerFor_eq_intern]
  exact .intern c _ rfl

theorem specialize (c : Catalog) (t : Ty) (bindings : List (String × Ty)) :
    c.Preserves (c.specialize t bindings).2 := by
  unfold Catalog.specialize
  split
  · exact .push c rfl
  · exact .refl c

theorem instantiate {bindings : List (String × Ty)} {target : Ty}
    (h : c.instantiate t bindings = .ok (target, c')) : c.Preserves c' := by
  unfold Catalog.instantiate at h
  split at h
  · cases h
  · next template _ =>
    dsimp only at h
    split at h
    · cases h
      exact .refl c
    · cases h
      -- the table of specializations has no part in it
      exact (specialize c template _).trans ⟨rfl, rfl, fun _ _ _ _ h => h⟩

end Preserves

end Catalog

namespace Store

open Catalog

variable {s s' : Store} {e : TypingError}

theorem preserves_combine (c : Catalog) (kind : CellKind) (ts : List Ty) :
    c.Preserves (combine c kind ts).2 := by
  have hjoined : c.Preserves (joined c ts).2 := by
    unfold joined
    split
    · exact .refl c
    · exact .refl c
    · exact .merge c _
  rw [combine_eq_joined]
  split
  · exact hjoined
  · exact hjoined
  · exact hjoined.trans (.pointerFor _ _)

theorem preserves_recompute (s : Store) (n : Node) : s.catalog.Preserves (s.recompute n).catalog := by
  rw [catalog_recompute]
  exact preserves_combine _ _ _

theorem preserves_bind (s : Store) (n d : Node) : s.catalog.Preserves (s.bind n d).catalog := by
  rw [bind_eq]
  split
  · exact preserves_recompute ⟨s.catalog, s.graph.link n d⟩ n
  · exact .refl _

theorem preserves_unbind (s : Store) (n d : Node) : s.catalog.Preserves (s.unbind n d).catalog :=
  preserves_recompute ⟨s.catalog, s.graph.unlink n d⟩ n

theorem preserves_install (s : Store) (template : Ty) (observed : List (String × Node))
    (holder : Node) : s.catalog.Preserves (left (install template observed holder s)).catalog := by
  unfold install
  rw [Steps.bind_eq]
  rcases specializationFor_cases s template observed with ⟨target, c, hc, heq⟩ | ⟨e, heq⟩
  · rw [heq]
    exact (Preserves.instantiate hc).trans (.push _ rfl)
  · rw [heq]
    exact .refl _

theorem preserves_propagate (s : Store) : s.catalog.Preserves (left (propagate s)).catalog :=
  left_drain (fun t => s.catalog.Preserves t.catalog)
    (fun t n ht => ht.trans (preserves_recompute t n)) (fun _ _ _ _ ht => ht) (fun _ _ ht => ht)
    _ _ (.refl _)

theorem preserves_refresh (t : Ty) (limit : Nat) (s : Store) :
    s.catalog.Preserves (left (refresh t limit s)).catalog := by
  rw [show refresh t limit s = _ from get_bind_eq]
  cases s.catalog.shape t with
  | provisional p =>
    dsimp only
    cases p.standing.target? with
    | none => exact .refl _
    | some former =>
      dsimp only
      rw [Steps.bind_eq]
      rcases specializationFor_cases s p.template p.observed with ⟨target, c, hc, heq⟩ | ⟨e, heq⟩
      · have hfound := Preserves.instantiate hc
        rw [heq]
        dsimp only
        split
        · exact hfound.trans (.setShape _ _ rfl)
        · split
          · exact hfound
          · exact (hfound.trans (.push _ rfl)).trans (.setShape _ _ rfl)
      · rw [heq]
        exact .refl _
  | _ => exact .refl _

/-! ## Operations that fail -/

theorem fault_of_instantiate {c : Catalog} {t : Ty} {bindings : List (String × Ty)}
    (h : c.instantiate t bindings = .error e) : ∃ f, e = .fault f := by
  unfold Catalog.instantiate at h
  split at h
  · cases h
    exact ⟨_, rfl⟩
  · dsimp only at h
    split at h <;> cases h

theorem specializationFor_fails {template : Ty} {observed : List (String × Node)}
    (h : specializationFor template observed s = .error e s') : ∃ f, e = .fault f := by
  unfold specializationFor at h
  split at h
  · cases h
  · next hfail =>
    cases h
    exact fault_of_instantiate hfail

theorem install_fails {template : Ty} {observed : List (String × Node)} {holder : Node}
    (h : install template observed holder s = .error e s') : ∃ f, e = .fault f := by
  rcases bind_error.mp h with h | ⟨_, _, -, h⟩
  · exact specializationFor_fails h
  · cases h

theorem propagate_fails (h : propagate s = .error e s') : ∃ f, e = .fault f :=
  ⟨_, propagate_error h⟩

theorem refresh_fails {t : Ty} {limit : Nat} (h : refresh t limit s = .error e s') :
    ∃ f, e = .fault f := by
  rw [show refresh t limit s = _ from get_bind_eq] at h
  cases hshape : s.catalog.shape t with
  | provisional p =>
    rw [hshape] at h
    dsimp only at h
    cases hformer : p.standing.target? with
    | none => rw [hformer] at h; cases h
    | some former =>
      rw [hformer] at h
      rcases bind_error.mp h with h | ⟨target, s₁, -, h⟩
      · exact specializationFor_fails h
      · split at h
        · cases h
        · split at h
          · cases h
            exact ⟨_, rfl⟩
          · cases h
  | _ =>
    rw [hshape] at h
    cases h
    exact ⟨_, rfl⟩

end Store

end FlowTyping
