import Mathlib.Order.Defs.PartialOrder
import FlowTyping.Handle

/-
  Arenas

  What a handle names stands in the arena of its kind, at the position that the
  handle gives. Where a state stores handles, these hold if they are below the
  lengths of their arenas (`Arenas.Stores`). Arenas only grow, and a handle that
  holds goes on to hold (`Arenas.Stores.mono`).
-/
namespace FlowTyping

/-- A handle of any kind. -/
inductive Handle where
  | type (type : Ty)
  | cls (cls : ClassHandle)
  | method (method : MethodHandle)
  | node (node : Node)
  | site (site : Site)
  deriving DecidableEq, Repr

/-- The lengths of the arenas. -/
structure Arenas where
  types : Nat
  classes : Nat
  methods : Nat
  nodes : Nat
  sites : Nat
  deriving DecidableEq, Repr

namespace Arenas

/-- A handle is below the length of its arena. -/
def Holds (a : Arenas) : Handle → Prop
  | .type t => t.index < a.types
  | .cls k => k.index < a.classes
  | .method m => m.index < a.methods
  | .node n => n.index < a.nodes
  | .site s => s.index < a.sites

instance (a : Arenas) : DecidablePred a.Holds
  | .type t => inferInstanceAs (Decidable (t.index < a.types))
  | .cls k => inferInstanceAs (Decidable (k.index < a.classes))
  | .method m => inferInstanceAs (Decidable (m.index < a.methods))
  | .node n => inferInstanceAs (Decidable (n.index < a.nodes))
  | .site s => inferInstanceAs (Decidable (s.index < a.sites))

/-- Every arena is at least as long in `b` as in `a`. -/
structure AtMost (a b : Arenas) : Prop where
  types : a.types ≤ b.types
  classes : a.classes ≤ b.classes
  methods : a.methods ≤ b.methods
  nodes : a.nodes ≤ b.nodes
  sites : a.sites ≤ b.sites

instance : Preorder Arenas where
  le := AtMost
  le_refl _ := ⟨Nat.le_refl _, Nat.le_refl _, Nat.le_refl _, Nat.le_refl _, Nat.le_refl _⟩
  le_trans _ _ _ h h' := ⟨Nat.le_trans h.types h'.types, Nat.le_trans h.classes h'.classes,
    Nat.le_trans h.methods h'.methods, Nat.le_trans h.nodes h'.nodes,
    Nat.le_trans h.sites h'.sites⟩

/-- All of some handles are below the lengths of their arenas. -/
def Stores (a : Arenas) (hs : List Handle) : Prop := ∀ h ∈ hs, a.Holds h

instance (a : Arenas) (hs : List Handle) : Decidable (a.Stores hs) :=
  inferInstanceAs (Decidable (∀ h ∈ hs, a.Holds h))

variable {α : Type} {a b : Arenas} {h : Handle} {hs hs' : List Handle}

@[simp] theorem holds_type {t : Ty} : a.Holds (.type t) ↔ t.index < a.types := Iff.rfl

@[simp] theorem holds_cls {k : ClassHandle} : a.Holds (.cls k) ↔ k.index < a.classes := Iff.rfl

@[simp] theorem holds_method {m : MethodHandle} : a.Holds (.method m) ↔ m.index < a.methods := Iff.rfl

@[simp] theorem holds_node {n : Node} : a.Holds (.node n) ↔ n.index < a.nodes := Iff.rfl

@[simp] theorem holds_site {s : Site} : a.Holds (.site s) ↔ s.index < a.sites := Iff.rfl

@[simp] theorem stores_nil : a.Stores [] := by simp [Stores]

@[simp] theorem stores_cons : a.Stores (h :: hs) ↔ a.Holds h ∧ a.Stores hs := List.forall_mem_cons

@[simp] theorem stores_append : a.Stores (hs ++ hs') ↔ a.Stores hs ∧ a.Stores hs' :=
  List.forall_mem_append

@[simp] theorem stores_map {f : α → Handle} {xs : List α} :
    a.Stores (xs.map f) ↔ ∀ x ∈ xs, a.Holds (f x) := List.forall_mem_map

@[simp] theorem stores_flatMap {f : α → List Handle} {xs : List α} :
    a.Stores (xs.flatMap f) ↔ ∀ x ∈ xs, a.Stores (f x) := List.forall_mem_flatMap

theorem Holds.mono (hle : a ≤ b) (hh : a.Holds h) : b.Holds h := by
  cases h with
  | type t => exact Nat.lt_of_lt_of_le hh hle.types
  | cls k => exact Nat.lt_of_lt_of_le hh hle.classes
  | method m => exact Nat.lt_of_lt_of_le hh hle.methods
  | node n => exact Nat.lt_of_lt_of_le hh hle.nodes
  | site s => exact Nat.lt_of_lt_of_le hh hle.sites

/-- Handles that hold go on to hold. -/
theorem Stores.mono (hle : a ≤ b) (hh : a.Stores hs) : b.Stores hs :=
  fun h hmem => (hh h hmem).mono hle

end Arenas

/-! ## Entries of an arena -/

section
variable {α : Type} {xs : Array α} {p : α → Prop}

theorem forall_mem_setIfInBounds {y : α} (i : Nat) (h : ∀ x ∈ xs, p x) (hy : p y) :
    ∀ x ∈ xs.setIfInBounds i y, p x := by
  intro x hx
  rcases Array.mem_or_eq_of_mem_setIfInBounds hx with hx | rfl
  · exact h x hx
  · exact hy

theorem forall_mem_modify {f : α → α} (i : Nat) (h : ∀ x ∈ xs, p x) (hf : ∀ x, p x → p (f x)) :
    ∀ x ∈ xs.modify i f, p x := by
  intro x hx
  obtain ⟨j, hj⟩ := Array.mem_iff_getElem?.mp hx
  rw [Array.getElem?_modify] at hj
  split at hj
  · obtain ⟨y, hy, rfl⟩ := Option.map_eq_some_iff.mp hj
    exact hf y (h y (Array.mem_of_getElem? hy))
  · exact h x (Array.mem_of_getElem? hj)

end

end FlowTyping
