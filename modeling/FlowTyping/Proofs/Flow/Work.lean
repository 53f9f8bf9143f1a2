import Mathlib.Logic.Relation
import FlowTyping.Proofs.Catalog.Appending
import FlowTyping.Proofs.Flow.Holding

/-
  Work in single steps

  All that a run does to its store between two rounds of propagation is done in
  steps of a few kinds (`Store.Work`). None of them binds the holder of a
  provisional type, or a pointer node that is bound already. A property that
  each step keeps is kept by any work (`Store.Works`).
-/
namespace FlowTyping.Store

open Catalog

/-- A node that may be bound: it holds no provisional type, and if it is the node of a pointer, it
is not bound yet. -/
structure Loose (s : Store) (n : Node) : Prop where
  unheld : ∀ t p, s.catalog.shape t = .provisional p → p.holder ≠ n
  unbound : (s.graph.cell n).kind = .plain ∨ s.graph.dependencies n = []

/-- A node that may come to hold a provisional type. -/
structure Vacant (s : Store) (n : Node) : Prop where
  valid : n.index < s.graph.size
  unheld : ∀ t p, s.catalog.shape t = .provisional p → p.holder ≠ n
  unbound : s.graph.dependencies n = []

/-- One step of work between two rounds of propagation. -/
inductive Work (s : Store) : Store → Prop
  | add (kind : CellKind) (type : Option Ty) (place : Place)
      (htype : ∀ t, type = some t → t.index < s.catalog.size) :
      Work s ⟨s.catalog, (s.graph.add kind type place).2⟩
  | extend {c : Catalog} (hext : s.catalog.Extends c) (hsound : c.Sound)
      (happends : s.catalog.Appends c) : Work s ⟨c, s.graph⟩
  | watch (n : Node) (site : Site) : Work s ⟨s.catalog, s.graph.watch n (.site site)⟩
  | bind {n d : Node} (hn : s.Loose n) (hd : d.index < s.graph.size) : Work s (s.bind n d)
  | unbind {n : Node} (d : Node) (hn : s.Loose n) : Work s (s.unbind n d)
  | install {template t : Ty} {observed : List (String × Node)} {holder : Node} {s' : Store}
      (htemplate : s.catalog.Definite template) (hholder : s.Vacant holder)
      (hobserved : ∀ b ∈ observed, b.2.index < s.graph.size)
      (h : install template observed holder s = .ok t s') : Work s s'
  | refresh {t : Ty} {limit : Nat} {s' : Store} (h : refresh t limit s = .ok () s') : Work s s'

/-- Any work between two rounds of propagation. -/
def Works : Store → Store → Prop := Relation.ReflTransGen Work

variable {s s' : Store} {c : Catalog} {n d : Node}

theorem Work.sound (h : s.Work s') (hs : s.Sound) : s'.Sound := by
  cases h with
  | add kind _ place htype => exact hs.add kind place htype
  | extend hext hsound _ => exact hs.extend hext.toGrows hsound
  | watch n site => exact hs.rewatch (.watch _ n _)
  | bind _ hd => exact hs.bind _ hd
  | unbind d _ => exact hs.unbind _ d
  | install htemplate _ _ h => exact (hs.install htemplate h).1
  | refresh h => exact (hs.refresh h).1

/-! ## What the catalog remembers -/

theorem joined_appends (c : Catalog) (ts : List Ty) : c.Appends (joined c ts).2 := by
  unfold joined
  split
  · exact .refl c
  · exact .refl c
  · exact .merge c _

theorem combine_appends (c : Catalog) (kind : CellKind) (ts : List Ty) :
    c.Appends (combine c kind ts).2 := by
  rw [combine_eq_joined]
  split
  · exact joined_appends c ts
  · exact joined_appends c ts
  · exact (joined_appends c ts).trans (.pointerFor _ _)

theorem recompute_appends (s : Store) (n : Node) : s.catalog.Appends (s.recompute n).catalog := by
  rw [catalog_recompute]
  exact combine_appends _ _ _

theorem bind_appends (s : Store) (n d : Node) : s.catalog.Appends (s.bind n d).catalog := by
  rw [bind_eq]
  split
  · exact recompute_appends ⟨s.catalog, s.graph.link n d⟩ n
  · exact .refl _

theorem unbind_appends (s : Store) (n d : Node) : s.catalog.Appends (s.unbind n d).catalog :=
  recompute_appends ⟨s.catalog, s.graph.unlink n d⟩ n

section Provisional

variable {t template target : Ty} {observed : List (String × Node)} {holder : Node} {limit : Nat}
  {p : Provisional} {u : Unit}

theorem remembers_install (hs : s.Sound) (h : install template observed holder s = .ok t s') :
    s.catalog.Remembers s'.catalog := by
  obtain ⟨target, c, hc, rfl, rfl⟩ := install_ok h
  exact (hs.catalog.remembers_instantiate hc).1.trans (.push c _)

/-- The entry of a provisional type may change. -/
theorem remembers_setStanding (hp : c.shape t = .provisional p) (st : Standing) :
    c.Remembers (c.setShape t (.provisional { p with standing := st })) :=
  .setShape fun o ho => by
    rw [hp] at ho
    cases ho

theorem remembers_superseding (hp : c.shape t = .provisional p) (g : Graph) (target : Ty) :
    c.Remembers (superseding c g t p target) := by
  have ht := lt_size_of_provisional hp
  refine (Remembers.push c (.provisional (succeeding g p target))).trans
    (remembers_setStanding (p := p) ?_ _)
  rw [shape_push, if_neg (Nat.ne_of_lt ht), hp]

theorem remembers_refresh (hs : s.Sound) (h : refresh t limit s = .ok u s') :
    s.catalog.Remembers s'.catalog := by
  obtain ⟨p, hp, ⟨-, rfl⟩ | ⟨former, target, c, -, hc, h⟩⟩ := refresh_ok h
  · exact .refl _
  · have hinstantiate := (hs.catalog.remembers_instantiate hc).1
    have hp₁ : c.shape t = .provisional p := by
      rw [shape_instantiate hc (lt_size_of_provisional hp), hp]
    rcases h with ⟨-, rfl⟩ | ⟨-, rfl⟩
    · exact hinstantiate.trans (remembers_setStanding hp₁ _)
    · rw [supersede_eq]
      exact hinstantiate.trans (remembers_superseding hp₁ _ _)

end Provisional

theorem Work.remembers (h : s.Work s') (hs : s.Sound) : s.catalog.Remembers s'.catalog := by
  cases h with
  | add | watch => exact .refl _
  | extend _ _ happends => exact happends.remembers
  | bind _ _ => exact (bind_appends s _ _).remembers
  | unbind _ _ => exact (unbind_appends s _ _).remembers
  | install _ _ _ h => exact remembers_install hs h
  | refresh h => exact remembers_refresh hs h

theorem Works.sound (h : s.Works s') (hs : s.Sound) : s'.Sound := by
  induction h with
  | refl => exact hs
  | tail _ hwork ih => exact hwork.sound ih

theorem Works.remembers (h : s.Works s') (hs : s.Sound) : s.catalog.Remembers s'.catalog := by
  induction h with
  | refl => exact .refl _
  | tail hworks hwork ih => exact ih.trans (hwork.remembers (Works.sound hworks hs))

end FlowTyping.Store
