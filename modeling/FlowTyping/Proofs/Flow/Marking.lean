import FlowTyping.Proofs.Flow.Succession

/-
  Work leaves dirty what it changes

  Between two rounds of propagation a node that gets another type is dirty from
  then on (`Work.marks`). So a node that has had another type than the one that
  it ends with is dirty in the end, also if work went to and fro
  (`Alters.dirty`).
-/
namespace FlowTyping

open Catalog

namespace Graph

/-- The nodes of `g` that have another type in `g'` are dirty there, and so are those that were
dirty. -/
structure Marks (g g' : Graph) : Prop where
  size : g.size ≤ g'.size
  dirty : ∀ n, g.dirtyAt n = true → g'.dirtyAt n = true
  types : ∀ n, n.index < g.size → g'.typeAt n = g.typeAt n ∨ g'.dirtyAt n = true

namespace Marks

variable {g g' g'' : Graph}

theorem of_eq (hsize : g'.size = g.size) (hdirty : ∀ n, g'.dirtyAt n = g.dirtyAt n)
    (htype : ∀ n, g'.typeAt n = g.typeAt n) : g.Marks g' :=
  ⟨Nat.le_of_eq hsize.symm, fun n h => (hdirty n).trans h, fun n _ => .inl (htype n)⟩

theorem refl (g : Graph) : g.Marks g := of_eq rfl (fun _ => rfl) fun _ => rfl

theorem trans (h₁ : g.Marks g') (h₂ : g'.Marks g'') : g.Marks g'' where
  size := Nat.le_trans h₁.size h₂.size
  dirty n h := h₂.dirty n (h₁.dirty n h)
  types n hn := by
    rcases h₁.types n hn with heq | hd
    · rw [← heq]
      exact h₂.types n (Nat.lt_of_lt_of_le hn h₁.size)
    · exact .inr (h₂.dirty n hd)

theorem rewatch (h : g.Rewatches g') : g.Marks g' := of_eq h.size h.dirtyAt h.typeAt

theorem retype (g : Graph) (n : Node) (t : Ty) : g.Marks (g.retype n t) where
  size := Nat.le_of_eq (size_retype g n t).symm
  dirty m h := (dirtyAt_retype g n m t).mpr (.inl h)
  types m _ := typeAt_retype_eq_or_dirty g n m t

theorem add (g : Graph) (kind : CellKind) (type : Option Ty) (place : Place) :
    g.Marks (g.add kind type place).2 := by
  have hcell : ∀ n : Node, n.index < g.size → (g.add kind type place).2.cell n = g.cell n :=
    fun n hn => (cell_add g kind type place n).trans (if_neg (Nat.ne_of_lt hn))
  refine ⟨Nat.le_of_lt (size_lt_size_add g kind type place), fun n hd => ?_, fun n hn => .inl ?_⟩
  · unfold dirtyAt
    rw [hcell n (lt_size_of_dirty hd)]
    exact hd
  · exact congrArg Cell.type (hcell n hn)

end Marks

end Graph

namespace Store

variable {s s' : Store} {n d : Node} {t : Ty}

theorem marks_recompute (s : Store) (n : Node) : s.graph.Marks (s.recompute n).graph := by
  rcases recompute_cases s n with ⟨t, -, heq⟩ | ⟨-, heq⟩
  · rw [heq]
    exact .retype s.graph n t
  · rw [heq]
    exact .refl s.graph

theorem marks_bind (s : Store) (n d : Node) : s.graph.Marks (s.bind n d).graph := by
  have hlink : s.graph.Marks (s.graph.link n d) :=
    .of_eq (Graph.size_link _ _ _) (Graph.dirtyAt_link _ _ _) (Graph.typeAt_link _ _ _)
  rw [bind_eq]
  split
  · exact hlink.trans (marks_recompute ⟨s.catalog, s.graph.link n d⟩ n)
  · exact hlink

theorem marks_unbind (s : Store) (n d : Node) : s.graph.Marks (s.unbind n d).graph := by
  have hunlink : s.graph.Marks (s.graph.unlink n d) :=
    .of_eq (Graph.size_unlink _ _ _) (Graph.dirtyAt_unlink _ _ _) (Graph.typeAt_unlink _ _ _)
  exact hunlink.trans (marks_recompute ⟨s.catalog, s.graph.unlink n d⟩ n)

theorem marks_install {template : Ty} {observed : List (String × Node)} {holder : Node}
    (h : install template observed holder s = .ok t s') : s.graph.Marks s'.graph := by
  obtain ⟨target, c, -, rfl, rfl⟩ := install_ok h
  exact (Graph.Marks.rewatch (watchAll_rewatches s.graph observed ⟨c.size⟩)).trans
    (.retype _ holder _)

theorem marks_refresh {limit : Nat} {u : Unit} (h : refresh t limit s = .ok u s') :
    s.graph.Marks s'.graph := by
  obtain ⟨p, -, ⟨-, rfl⟩ | ⟨former, target, c, -, -, ⟨-, rfl⟩ | ⟨-, rfl⟩⟩⟩ := refresh_ok h
  · exact .refl _
  · exact .refl s.graph
  · exact (Graph.Marks.retype s.graph p.holder ⟨c.size⟩).trans
      (.rewatch (handOver_rewatches _ _ _ _))

/-! ## Any work -/

theorem Work.marks (h : s.Work s') : s.graph.Marks s'.graph := by
  cases h with
  | add kind type place _ => exact .add s.graph kind type place
  | extend _ _ _ => exact .refl s.graph
  | watch n site => exact .rewatch (.watch s.graph n _)
  | bind _ _ => exact marks_bind s _ _
  | unbind d _ => exact marks_unbind s _ d
  | install _ _ _ h => exact marks_install h
  | refresh h => exact marks_refresh h

theorem Works.marks (h : s.Works s') : s.graph.Marks s'.graph := by
  induction h with
  | refl => exact .refl _
  | tail _ hwork ih => exact ih.trans hwork.marks

/-- On the way from `s` to `s'` the node has a type other than the one that it comes to have. -/
def Alters (s s' : Store) (n : Node) : Prop :=
  ∃ q : Store, s.Works q ∧ q.Works s' ∧ n.index < q.graph.size ∧
    q.graph.typeAt n ≠ s'.graph.typeAt n

theorem Alters.dirty (h : s.Alters s' n) : s'.graph.dirtyAt n = true := by
  obtain ⟨q, -, hworks, hn, hne⟩ := h
  exact (hworks.marks.types n hn).resolve_left hne.symm

/-! ## Who watched before -/

/-- A provisional type that watches a node has watched it before, if it was there. -/
theorem Kept.watches_of_shape (hk : s.Kept) (hk' : s'.Kept)
    (hext : s.catalog.Extends s'.catalog) {p : Provisional}
    (hp : s.catalog.shape t = .provisional p) (hw : s'.Watches t n) : s.Watches t n := by
  obtain ⟨q, hq, hlive, hn⟩ := hk'.watching n t hw
  have hbecomes := hext.shape t (lt_size_of_provisional hp)
  rw [hp, hq] at hbecomes
  cases hbecomes with
  | same => exact hk.watched t p hp hlive n hn
  | standing _ st hallows =>
    refine hk.watched t p hp ?_ n hn
    -- what is superseded stays so
    cases hstanding : p.standing with
    | superseded u =>
      rw [hstanding] at hallows
      cases (show st = .superseded u from hallows)
      cases hlive
    | pending u => rfl
    | settled u => rfl

end Store

end FlowTyping
