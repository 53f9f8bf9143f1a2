import Mathlib.Data.List.Forall2
import FlowTyping.Proofs.Catalog.Renumbering
import FlowTyping.Proofs.Flow.Advance
import FlowTyping.Proofs.Flow.Chain
import FlowTyping.Proofs.Flow.Naming
import FlowTyping.Proofs.Parallel

/-
  Stores with other nodes

  Nothing that happens in a store depends on which number a node has. Two stores
  are paired if the nodes of one correspond to nodes of the other, with the same
  contents up to this correspondence, and if their catalogs have one outline and
  the same definitions. What is done to paired stores leaves paired stores.

  The second store may be ahead by one node, the spare: a node with type `Nil`
  that nothing depends on or watches yet, and that the first one does not have.
-/
namespace FlowTyping

open Catalog Steps

/-- Nodes of one graph, each with the node of another one that has its part, perhaps a node that
only the other one has so far, and how many call sites both have. -/
structure Pairing where
  pairs : Node → Node → Prop
  spare : Option Node
  sites : Nat

/-- Later pairings keep all pairs. -/
instance : Preorder Pairing where
  le w v := (∀ n m, w.pairs n m → v.pairs n m) ∧ w.sites ≤ v.sites
  le_refl w := ⟨fun _ _ h => h, Nat.le_refl w.sites⟩
  le_trans _ _ _ h₁ h₂ := ⟨fun n m h => h₂.1 n m (h₁.1 n m h), Nat.le_trans h₁.2 h₂.2⟩

variable {w v : Pairing} {n m d e : Node}

/-- One more pair. -/
def Pairing.add (w : Pairing) (n m : Node) (spare : Option Node) : Pairing :=
  ⟨fun a b => w.pairs a b ∨ a = n ∧ b = m, spare, w.sites⟩

theorem Pairing.le_add (w : Pairing) (n m : Node) (spare : Option Node) : w ≤ w.add n m spare :=
  ⟨fun _ _ h => .inl h, Nat.le_refl w.sites⟩

/-- One more call site. -/
def Pairing.addSite (w : Pairing) : Pairing := { w with sites := w.sites + 1 }

theorem Pairing.le_addSite (w : Pairing) : w ≤ w.addSite := ⟨fun _ _ h => h, Nat.le_succ w.sites⟩

theorem Pairing.mono (hw : w ≤ v) (h : w.pairs n m) : v.pairs n m := hw.1 n m h

theorem Pairing.mono_all (hw : w ≤ v) {ns ms : List Node} (h : List.Forall₂ w.pairs ns ms) :
    List.Forall₂ v.pairs ns ms := h.imp hw.1

/-! ## Lists of items that correspond -/

section

variable {α : Type} [DecidableEq α] {R : α → α → Prop} {a b : α} {as bs : List α}

theorem forall₂_contains (hR : Relator.BiUnique R) (hab : R a b) (h : List.Forall₂ R as bs) :
    as.contains a = bs.contains b := by
  rw [Bool.eq_iff_iff, List.contains_iff_mem, List.contains_iff_mem]
  exact List.rel_mem hR hab h

theorem forall₂_addOnce (hR : Relator.BiUnique R) (hab : R a b) (h : List.Forall₂ R as bs) :
    List.Forall₂ R (Graph.addOnce a as) (Graph.addOnce b bs) := by
  unfold Graph.addOnce
  rw [forall₂_contains hR hab h]
  split
  · exact h
  · exact List.rel_append h (.cons hab .nil)

theorem forall₂_remove (hR : Relator.BiUnique R) (hab : R a b) (h : List.Forall₂ R as bs) :
    List.Forall₂ R (as.filter (· != a)) (bs.filter (· != b)) := by
  refine List.rel_filter (fun x y hxy => ?_) h
  show (x != a) = true ↔ (y != b) = true
  rw [bne_iff_ne, bne_iff_ne]
  exact not_congr (Relator.rel_eq hR hxy hab)

end

/-! ## Cells and graphs -/

/-- Watchers that correspond. -/
inductive Watcher.Paired (w : Pairing) : Watcher → Watcher → Prop
  | node {n m : Node} (h : w.pairs n m) : Watcher.Paired w (.node n) (.node m)
  | site (s : Site) (h : s.index < w.sites) : Watcher.Paired w (.site s) (.site s)
  | provisional (t : Ty) : Watcher.Paired w (.provisional t) (.provisional t)

/-- Nodes with the same contents. -/
structure Cell.Paired (w : Pairing) (a b : Cell) : Prop where
  kind : b.kind = a.kind
  type : b.type = a.type
  dependencies : List.Forall₂ w.pairs a.dependencies b.dependencies
  watchers : List.Forall₂ (Watcher.Paired w) a.watchers b.watchers
  dirty : b.dirty = a.dirty
  place : b.place = a.place

theorem Watcher.Paired.mono {a b : Watcher} (h : a.Paired w b) (hw : w ≤ v) : a.Paired v b := by
  cases h with
  | node h => exact .node (hw.1 _ _ h)
  | site s h => exact .site s (Nat.lt_of_lt_of_le h hw.2)
  | provisional t => exact .provisional t

theorem Watcher.Paired.biUnique (hw : Relator.BiUnique w.pairs) :
    Relator.BiUnique (Watcher.Paired w) := by
  refine ⟨fun a b c hac hbc => ?_, fun a b c hab hac => ?_⟩
  · cases hac with
    | node h =>
      cases hbc with
      | node h' => rw [hw.1 h h']
    | site => cases hbc; rfl
    | provisional => cases hbc; rfl
  · cases hab with
    | node h =>
      cases hac with
      | node h' => rw [hw.2 h h']
    | site => cases hac; rfl
    | provisional => cases hac; rfl

theorem Cell.Paired.mono {a b : Cell} (h : a.Paired w b) (hw : w ≤ v) : a.Paired v b :=
  ⟨h.kind, h.type, h.dependencies.imp hw.1, h.watchers.imp fun _ _ h => h.mono hw, h.dirty, h.place⟩

/-- The contents of a node that has type `Nil` from the start. -/
def Cell.ofNil : Cell := ⟨.plain, some .nil, [], [], false, .synthesized⟩

namespace Graph

/-- Graphs with the same contents at nodes that correspond. -/
structure Paired (w : Pairing) (g g' : Graph) : Prop where
  one : Relator.BiUnique w.pairs
  bounded : ∀ n m, w.pairs n m → n.index < g.size ∧ m.index < g'.size
  cell : ∀ n m, w.pairs n m → (g.cell n).Paired w (g'.cell m)
  queue : List.Forall₂ w.pairs g.queue g'.queue
  budget : g'.budget = g.budget
  limit : g'.limit = g.limit
  spare : ∀ m, w.spare = some m →
    m.index < g'.size ∧ (∀ n, ¬ w.pairs n m) ∧ g'.cell m = .ofNil

namespace Paired

variable {g g' : Graph}

theorem typeAt (h : g.Paired w g') (hn : w.pairs n m) : g'.typeAt m = g.typeAt n :=
  (h.cell n m hn).type

theorem dirtyAt (h : g.Paired w g') (hn : w.pairs n m) : g'.dirtyAt m = g.dirtyAt n :=
  (h.cell n m hn).dirty

theorem filterMap_typeAt (h : g.Paired w g') {ns ms : List Node}
    (hns : List.Forall₂ w.pairs ns ms) :
    ms.filterMap g'.typeAt = ns.filterMap g.typeAt := by
  induction hns with
  | nil => rfl
  | cons hn _ ih => rw [List.filterMap_cons, List.filterMap_cons, h.typeAt hn, ih]

theorem inputs (h : g.Paired w g') (hn : w.pairs n m) : g'.inputs m = g.inputs n :=
  h.filterMap_typeAt (h.cell n m hn).dependencies

/-- The same change of the contents of nodes that correspond. -/
theorem modify (h : g.Paired w g') (hn : w.pairs n m) {f f' : Cell → Cell}
    (hf : ∀ a b, a.Paired w b → (f a).Paired w (f' b)) :
    (g.modify n f).Paired w (g'.modify m f') where
  one := h.one
  bounded := by
    rw [size_modify, size_modify]
    exact h.bounded
  cell a b hab := by
    have hsame : a = n ↔ b = m := Relator.rel_eq h.one hab hn
    have hlt := h.bounded n m hn
    rw [cell_modify, cell_modify]
    simp only [hsame, hlt.1, hlt.2, and_true]
    split
    · exact hf _ _ (h.cell a b hab)
    · exact h.cell a b hab
  queue := h.queue
  budget := h.budget
  limit := h.limit
  spare k hk := by
    obtain ⟨hlt, hfree, hcell⟩ := h.spare k hk
    refine ⟨by rw [size_modify]; exact hlt, hfree, ?_⟩
    rw [cell_modify, if_neg, hcell]
    rintro ⟨rfl, -⟩
    exact hfree n hn

/-- The queue and the budget have no part in the correspondence of nodes. -/
theorem requeue (h : g.Paired w g') {queue queue' : List Node}
    (hqueue : List.Forall₂ w.pairs queue queue') {budget budget' : Nat}
    (hbudget : budget' = budget) :
    Paired w { g with queue := queue, budget := budget }
      { g' with queue := queue', budget := budget' } :=
  ⟨h.one, h.bounded, h.cell, hqueue, hbudget, h.limit, h.spare⟩

theorem watch (h : g.Paired w g') (hn : w.pairs n m) {a b : Watcher} (hab : a.Paired w b) :
    (g.watch n a).Paired w (g'.watch m b) :=
  h.modify hn fun _ _ hc => ⟨hc.kind, hc.type, hc.dependencies,
    forall₂_addOnce (Watcher.Paired.biUnique h.one) hab hc.watchers, hc.dirty, hc.place⟩

theorem unwatch (h : g.Paired w g') (hn : w.pairs n m) {a b : Watcher} (hab : a.Paired w b) :
    (g.unwatch n a).Paired w (g'.unwatch m b) :=
  h.modify hn fun _ _ hc => ⟨hc.kind, hc.type, hc.dependencies,
    forall₂_remove (Watcher.Paired.biUnique h.one) hab hc.watchers, hc.dirty, hc.place⟩

theorem overwriteType (h : g.Paired w g') (hn : w.pairs n m) (t : Ty) :
    (g.overwriteType n t).Paired w (g'.overwriteType m t) :=
  h.modify hn fun _ _ hc => ⟨hc.kind, rfl, hc.dependencies, hc.watchers, hc.dirty, hc.place⟩

theorem retype (h : g.Paired w g') (hn : w.pairs n m) (t : Ty) :
    (g.retype n t).Paired w (g'.retype m t) := by
  unfold Graph.retype
  rw [h.typeAt hn, h.dirtyAt hn]
  split
  · exact h
  · split
    · exact h.overwriteType hn t
    · have hchanged : (g.modify n fun cell => { cell with type := some t, dirty := true }).Paired w
          (g'.modify m fun cell => { cell with type := some t, dirty := true }) :=
        h.modify hn fun _ _ hc => ⟨hc.kind, rfl, hc.dependencies, hc.watchers, rfl, hc.place⟩
      exact hchanged.requeue (List.rel_append hchanged.queue (.cons hn .nil)) hchanged.budget

theorem link (h : g.Paired w g') (hn : w.pairs n m) (hd : w.pairs d e) :
    (g.link n d).Paired w (g'.link m e) := by
  unfold Graph.link
  refine Paired.watch (h.modify hn fun _ _ hc => ?_) hd (.node hn)
  exact ⟨hc.kind, hc.type, forall₂_addOnce h.one hd hc.dependencies, hc.watchers, hc.dirty,
    hc.place⟩

theorem unlink (h : g.Paired w g') (hn : w.pairs n m) (hd : w.pairs d e) :
    (g.unlink n d).Paired w (g'.unlink m e) := by
  unfold Graph.unlink
  refine Paired.unwatch (h.modify hn fun _ _ hc => ?_) hd (.node hn)
  exact ⟨hc.kind, hc.type, forall₂_remove h.one hd hc.dependencies, hc.watchers, hc.dirty,
    hc.place⟩

/-! ### New nodes -/

theorem addLeft (h : g.Paired w g') (kind : CellKind) (type : Option Ty) (place : Place) :
    (g.add kind type place).2.Paired w g' where
  one := h.one
  bounded n m hn := ⟨Nat.lt_trans (h.bounded n m hn).1 (size_lt_size_add g kind type place),
    (h.bounded n m hn).2⟩
  cell n m hn := by
    rw [cell_add, if_neg (Nat.ne_of_lt (h.bounded n m hn).1)]
    exact h.cell n m hn
  queue := h.queue
  budget := h.budget
  limit := h.limit
  spare := h.spare

theorem addRight (h : g.Paired w g') (kind : CellKind) (type : Option Ty) (place : Place) :
    g.Paired w (g'.add kind type place).2 where
  one := h.one
  bounded n m hn := ⟨(h.bounded n m hn).1,
    Nat.lt_trans (h.bounded n m hn).2 (size_lt_size_add g' kind type place)⟩
  cell n m hn := by
    rw [cell_add, if_neg (Nat.ne_of_lt (h.bounded n m hn).2)]
    exact h.cell n m hn
  queue := h.queue
  budget := h.budget
  limit := h.limit
  spare k hk := by
    obtain ⟨hlt, hfree, hcell⟩ := h.spare k hk
    refine ⟨Nat.lt_trans hlt (size_lt_size_add g' kind type place), hfree, ?_⟩
    rw [cell_add, if_neg (Nat.ne_of_lt hlt), hcell]

/-- Two nodes that are in no pair, with the same contents, can become one. -/
theorem pair (h : g.Paired w g') (hn : n.index < g.size) (hm : m.index < g'.size)
    (hleft : ∀ b, ¬ w.pairs n b) (hright : ∀ a, ¬ w.pairs a m) {spare : Option Node}
    (hspare : ∀ k, spare = some k → w.spare = some k ∧ k ≠ m)
    (hcell : (g.cell n).Paired w (g'.cell m)) : g.Paired (w.add n m spare) g' where
  one := by
    refine ⟨fun a b c hac hbc => ?_, fun a b c hab hac => ?_⟩
    · rcases hac with hac | ⟨rfl, rfl⟩
      · rcases hbc with hbc | ⟨rfl, rfl⟩
        · exact h.one.1 hac hbc
        · exact absurd hac (hright a)
      · rcases hbc with hbc | ⟨rfl, -⟩
        · exact absurd hbc (hright b)
        · rfl
    · rcases hab with hab | ⟨rfl, rfl⟩
      · rcases hac with hac | ⟨rfl, rfl⟩
        · exact h.one.2 hab hac
        · exact absurd hab (hleft b)
      · rcases hac with hac | ⟨-, rfl⟩
        · exact absurd hac (hleft c)
        · rfl
  bounded a b hab := by
    rcases hab with hab | ⟨rfl, rfl⟩
    · exact h.bounded a b hab
    · exact ⟨hn, hm⟩
  cell a b hab := by
    rcases hab with hab | ⟨rfl, rfl⟩
    · exact (h.cell a b hab).mono (w.le_add n m spare)
    · exact hcell.mono (w.le_add a b spare)
  queue := Pairing.mono_all (w.le_add n m spare) h.queue
  budget := h.budget
  limit := h.limit
  spare k hk := by
    obtain ⟨hk, hne⟩ := hspare k hk
    obtain ⟨hlt, hfree, hcell⟩ := h.spare k hk
    refine ⟨hlt, fun a ha => ?_, hcell⟩
    rcases ha with ha | ⟨-, rfl⟩
    · exact hfree a ha
    · exact hne rfl

/-- The same node is added on both sides. -/
theorem add (h : g.Paired w g') (kind : CellKind) (type : Option Ty) (place : Place) :
    (g.add kind type place).2.Paired (w.add ⟨g.size⟩ ⟨g'.size⟩ w.spare)
      (g'.add kind type place).2 := by
  refine ((h.addLeft kind type place).addRight kind type place).pair (n := ⟨g.size⟩)
    (m := ⟨g'.size⟩) (size_lt_size_add g kind type place) (size_lt_size_add g' kind type place)
    (fun b hb => Nat.lt_irrefl _ (h.bounded _ b hb).1)
    (fun a ha => Nat.lt_irrefl _ (h.bounded a _ ha).2) (fun k hk => ⟨hk, ?_⟩) ?_
  · rintro rfl
    exact Nat.lt_irrefl _ (h.spare _ hk).1
  · rw [cell_add_new, cell_add_new]
    exact ⟨rfl, rfl, .nil, .nil, rfl, rfl⟩

/-- The first graph gets the node that the second one had to spare. -/
theorem addSpare (h : g.Paired w g') (hm : w.spare = some m) :
    (g.add .plain (some .nil) .synthesized).2.Paired (w.add ⟨g.size⟩ m none) g' := by
  obtain ⟨hlt, hfree, hcell⟩ := h.spare m hm
  refine (h.addLeft .plain (some .nil) .synthesized).pair (n := ⟨g.size⟩)
    (size_lt_size_add g _ _ _) hlt (fun b hb => Nat.lt_irrefl _ (h.bounded _ b hb).1) hfree
    (fun k hk => by cases hk) ?_
  rw [cell_add_new, hcell]
  exact ⟨rfl, rfl, .nil, .nil, rfl, rfl⟩

/-- Only the second graph gets a node with type `Nil`. -/
theorem spend (h : g.Paired w g') :
    g.Paired { w with spare := some ⟨g'.size⟩ } (g'.add .plain (some .nil) .synthesized).2 :=
  have hadded := h.addRight .plain (some .nil) .synthesized
  { one := hadded.one
    bounded := hadded.bounded
    cell := fun a b hab => (hadded.cell a b hab).mono ⟨fun _ _ h => h, Nat.le_refl w.sites⟩
    queue := hadded.queue
    budget := hadded.budget
    limit := hadded.limit
    spare := fun k hk => by
      cases hk
      exact ⟨size_lt_size_add g' _ _ _, fun a ha => Nat.lt_irrefl _ (h.bounded a _ ha).2,
        cell_add_new g' _ _ _⟩ }

theorem addSite (h : g.Paired w g') : g.Paired w.addSite g' where
  one := h.one
  bounded := h.bounded
  cell a b hab := (h.cell a b hab).mono w.le_addSite
  queue := h.queue
  budget := h.budget
  limit := h.limit
  spare := h.spare

end Paired

end Graph

/-! ## Catalogs -/

/-- Provisional types over nodes that correspond. -/
structure Provisional.Paired (w : Pairing) (p q : Provisional) : Prop where
  template : q.template = p.template
  observed : List.Forall₂ (fun a b => b.1 = a.1 ∧ w.pairs a.2 b.2) p.observed q.observed
  holder : w.pairs p.holder q.holder
  standing : q.standing = p.standing
  generation : q.generation = p.generation

theorem Provisional.Paired.mono {p q : Provisional} (h : p.Paired w q) (hw : w ≤ v) :
    p.Paired v q :=
  ⟨h.template, h.observed.imp fun _ _ h => ⟨h.1, hw.1 _ _ h.2⟩, hw.1 _ _ h.holder, h.standing,
    h.generation⟩

namespace Catalog

variable {c c' d d' : Catalog} {σ : Renumbering} {t : Ty}

/-- All that a catalog knows of methods. -/
def definitionPart (c : Catalog) : Array Method × Array MethodTable :=
  (c.methods, c.classes.map (·.methods))

theorem overloadsAt_congr (h : d.definitionPart = c.definitionPart) (k : ClassHandle) :
    (d.classTable k).methods = (c.classTable k).methods := by
  have hclasses : d.classes.map (·.methods) = c.classes.map (·.methods) := congrArg Prod.snd h
  have hget : ∀ c : Catalog, (c.classTable k).methods =
      ((c.classes.map (·.methods))[k.index]?).getD (default : ClassTable).methods := fun c => by
    unfold classTable
    rw [Array.getElem?_map]
    cases c.classes[k.index]? <;> rfl
  rw [hget, hget, hclasses]

/-- What leaves methods alone keeps their handles. -/
theorem Renumbers.congr (h : c.Renumbers σ c') (houtline : d'.outline = d.outline)
    (hd : d.definitionPart = c.definitionPart) (hd' : d'.definitionPart = c'.definitionPart) :
    d.Renumbers σ d' := by
  have hmethods : d.methods = c.methods := congrArg Prod.fst hd
  have hmethods' : d'.methods = c'.methods := congrArg Prod.fst hd'
  refine ⟨houtline, by rw [hmethods, hmethods', h.size], fun m hm => h.beyond m (hmethods ▸ hm),
    fun m => ?_, fun k name => ?_⟩
  · rw [method_congr hmethods', method_congr hmethods, h.method]
  · rw [overloadsAt_congr hd', overloadsAt_congr hd, h.overloads]

theorem outline_of_not_provisional {s : Shape} (h : s.isProvisional = false) : s.outline = s := by
  cases s with
  | provisional p => cases h
  | _ => rfl

/-- Catalogs with one outline and the same definitions, over nodes that correspond. -/
structure Paired (σ : Renumbering) (w : Pairing) (c c' : Catalog) : Prop where
  renumbers : c.Renumbers σ c'
  provisional : ∀ t p, c.shape t = .provisional p →
    ∃ q, c'.shape t = .provisional q ∧ p.Paired w q

namespace Paired

theorem mono (h : c.Paired σ w c') (hw : w ≤ v) : c.Paired σ v c' :=
  ⟨h.renumbers, fun t p hp => (h.provisional t p hp).imp fun _ hq => ⟨hq.1, hq.2.mono hw⟩⟩

/-- What is read off the outline is the same. -/
theorem read (h : c.Paired σ w c') {β : Type} {f : Catalog → β}
    (hf : ∀ c : Catalog, f c.outline = f c) : f c' = f c := by
  rw [← hf c', h.renumbers.outline, hf]

theorem isProvisional_eq (h : c.Paired σ w c') (t : Ty) :
    (c'.shape t).isProvisional = (c.shape t).isProvisional :=
  h.read (f := fun c => (c.shape t).isProvisional) fun c => by
    rw [shape_outline]
    cases c.shape t <;> rfl

/-- What does not concern provisional types or methods. -/
theorem congr (h : c.Paired σ w c') (houtline : d'.outline = d.outline)
    (hd : d.definitionPart = c.definitionPart) (hd' : d'.definitionPart = c'.definitionPart)
    (hsteady : c.Steady d) (hsteady' : c'.Steady d') : d.Paired σ w d' := by
  have hrenumbers := h.renumbers.congr houtline hd hd'
  refine ⟨hrenumbers, fun t p hp => ?_⟩
  obtain ⟨q, hq, hpq⟩ := h.provisional t p (hsteady t p hp)
  have hprovisional : (d'.shape t).isProvisional = true := by
    have hsame : (d'.shape t).outline.isProvisional = (d.shape t).outline.isProvisional := by
      rw [← shape_outline, ← shape_outline, houtline]
    rw [hp] at hsame
    generalize d'.shape t = s at hsame ⊢
    cases s <;> exact hsame
  obtain ⟨q', hq'⟩ := Shape.isProvisional_iff.mp hprovisional
  obtain rfl := Shape.provisional.inj (hq.symm.trans (hsteady' t q' hq'))
  exact ⟨q, hq', hpq⟩

/-- An entry is the same, or provisional over nodes that correspond. -/
theorem shape_cases (h : c.Paired σ w c') (t : Ty) :
    (∃ p q, c.shape t = .provisional p ∧ c'.shape t = .provisional q ∧ p.Paired w q) ∨
      (c.shape t).isProvisional = false ∧ c'.shape t = c.shape t := by
  cases hp : (c.shape t).isProvisional with
  | true =>
    obtain ⟨p, hp⟩ := Shape.isProvisional_iff.mp hp
    obtain ⟨q, hq, hpq⟩ := h.provisional t p hp
    exact .inl ⟨p, q, hp, hq, hpq⟩
  | false =>
    refine .inr ⟨rfl, ?_⟩
    have hp' := (h.isProvisional_eq t).trans hp
    have hsame : (c'.shape t).outline = (c.shape t).outline := by
      rw [← shape_outline, ← shape_outline, h.renumbers.outline]
    rwa [outline_of_not_provisional hp, outline_of_not_provisional hp'] at hsame

theorem outline_eq {p q : Provisional} (h : p.Paired w q) :
    (Shape.provisional q).outline = (Shape.provisional p).outline := by
  unfold Shape.outline
  dsimp only
  rw [h.template, h.standing, h.generation]

/-- A provisional type is entered alike. -/
theorem push (h : c.Paired σ w c') {p q : Provisional} (hpq : p.Paired w q) :
    (c'.push (.provisional q)).1 = (c.push (.provisional p)).1 ∧
      (c.push (.provisional p)).2.Paired σ w (c'.push (.provisional q)).2 := by
  have hsize : c'.size = c.size := h.read size_outline
  have houtline := push_outline c' (.provisional q)
  rw [h.renumbers.outline, outline_eq hpq, push_outline] at houtline
  obtain ⟨hfirst, hsecond⟩ := Prod.ext_iff.mp houtline
  refine ⟨hfirst.symm, h.renumbers.congr hsecond.symm rfl rfl, fun t o ho => ?_⟩
  rw [shape_push] at ho ⊢
  rw [hsize]
  split at ho
  · next ht =>
    cases ho
    exact ⟨q, if_pos ht, hpq⟩
  · next ht =>
    obtain ⟨q', hq', hpaired⟩ := h.provisional t o ho
    exact ⟨q', by rw [if_neg ht, hq'], hpaired⟩

/-- A provisional type is changed alike. -/
theorem setShape (h : c.Paired σ w c') {p q : Provisional} (hpq : p.Paired w q) (t : Ty) :
    (c.setShape t (.provisional p)).Paired σ w (c'.setShape t (.provisional q)) := by
  have hsize : c'.size = c.size := h.read size_outline
  have houtline := setShape_outline c' t (.provisional q)
  rw [h.renumbers.outline, outline_eq hpq, setShape_outline] at houtline
  refine ⟨h.renumbers.congr houtline.symm rfl rfl, fun u o ho => ?_⟩
  rw [shape_setShape] at ho ⊢
  rw [hsize]
  split at ho
  · next hu =>
    cases ho
    exact ⟨q, if_pos hu, hpq⟩
  · next hu =>
    obtain ⟨q', hq', hpaired⟩ := h.provisional u o ho
    exact ⟨q', by rw [if_neg hu, hq'], hpaired⟩

/-- What is found and entered by the outline alone. -/
theorem enter (h : c.Paired σ w c') {β : Type} {f : Catalog → β × Catalog}
    (hf : ∀ c : Catalog, f c.outline = ((f c).1, (f c).2.outline))
    (hparts : ∀ c, (f c).2.definitionPart = c.definitionPart)
    (hsteady : ∀ c : Catalog, c.Steady (f c).2) :
    (f c').1 = (f c).1 ∧ (f c).2.Paired σ w (f c').2 := by
  have hsame := hf c'
  rw [h.renumbers.outline, hf] at hsame
  obtain ⟨hfirst, hsecond⟩ := Prod.ext_iff.mp hsame
  exact ⟨hfirst.symm, h.congr hsecond.symm (hparts c) (hparts c') (hsteady c) (hsteady c')⟩

end Paired

theorem definitionPart_intern (c : Catalog) (p : Shape → Bool) (s : Shape) :
    (c.intern p s).2.definitionPart = c.definitionPart := by
  unfold intern
  split <;> rfl

theorem definitionPart_merge (c : Catalog) (ts : List Ty) :
    (c.merge ts).2.definitionPart = c.definitionPart := by
  unfold merge
  split
  · rfl
  · rfl
  · rw [union_eq_intern]
    exact definitionPart_intern c _ _

theorem definitionPart_pointerFor (c : Catalog) (t : Ty) :
    (c.pointerFor t).2.definitionPart = c.definitionPart := by
  rw [pointerFor_eq_intern]
  exact definitionPart_intern c _ _

theorem definitionPart_combine (c : Catalog) (kind : CellKind) (ts : List Ty) :
    (Store.combine c kind ts).2.definitionPart = c.definitionPart := by
  have hjoined : (Store.joined c ts).2.definitionPart = c.definitionPart := by
    unfold Store.joined
    split
    · rfl
    · rfl
    · exact definitionPart_merge c _
  rw [Store.combine_eq_joined]
  split
  · exact hjoined
  · exact hjoined
  · exact (definitionPart_pointerFor _ _).trans hjoined

theorem definitionPart_specialize (c : Catalog) (template : Ty) (bindings : List (String × Ty)) :
    (c.specialize template bindings).2.definitionPart = c.definitionPart := by
  unfold specialize
  split <;> rfl

theorem definitionPart_newConstant (c : Catalog) (name : String) (value : Expr) (container : Ty) :
    (c.newConstant name value container).2.definitionPart = c.definitionPart := by
  unfold newConstant
  dsimp only
  unfold enterName
  split
  · refine Prod.ext rfl ?_
    unfold modifyClass definitionPart push
    dsimp only
    refine Array.ext (by simp) fun i h₁ h₂ => ?_
    rw [Array.getElem_map, Array.getElem_map, Array.getElem_modify]
    split <;> rfl
  · rfl

theorem joined_outline (c : Catalog) (ts : List Ty) :
    Store.joined c.outline ts = ((Store.joined c ts).1, (Store.joined c ts).2.outline) := by
  unfold Store.joined
  split
  · rfl
  · rfl
  · exact merge_outline c _

theorem combine_outline (c : Catalog) (kind : CellKind) (ts : List Ty) :
    Store.combine c.outline kind ts =
      ((Store.combine c kind ts).1, (Store.combine c kind ts).2.outline) := by
  rw [Store.combine_eq_joined, Store.combine_eq_joined, joined_outline]
  dsimp only
  cases (Store.joined c ts).1 with
  | none => rfl
  | some t =>
    cases kind with
    | plain => rfl
    | pointer =>
      dsimp only
      rw [pointerFor_outline]
      rfl

namespace Paired

theorem combine (h : c.Paired σ w c') (kind : CellKind) (ts : List Ty) :
    (Store.combine c' kind ts).1 = (Store.combine c kind ts).1 ∧
      (Store.combine c kind ts).2.Paired σ w (Store.combine c' kind ts).2 :=
  h.enter (combine_outline · kind ts) (definitionPart_combine · kind ts)
    (Store.combine_steady · kind ts)

theorem specialize (h : c.Paired σ w c') (template : Ty) (bindings : List (String × Ty)) :
    (c'.specialize template bindings).1 = (c.specialize template bindings).1 ∧
      (c.specialize template bindings).2.Paired σ w (c'.specialize template bindings).2 :=
  h.enter (specialize_outline · template bindings) (definitionPart_specialize · template bindings)
    (specialize_steady · template bindings)

theorem newConstant (h : c.Paired σ w c') (name : String) (value : Expr) (container : Ty) :
    (c'.newConstant name value container).1 = (c.newConstant name value container).1 ∧
      (c.newConstant name value container).2.Paired σ w (c'.newConstant name value container).2 :=
  h.enter (newConstant_outline · name value container)
    (definitionPart_newConstant · name value container)
    fun c => (Steady.push c (s := .constant name container value) rfl).trans
      (steady_enterName _ _ _ _)

/-- A specialization is found or entered alike, or none is. -/
theorem instantiate (h : c.Paired σ w c') (t : Ty) (bindings : List (String × Ty)) :
    (∃ e, c.instantiate t bindings = .error e ∧ c'.instantiate t bindings = .error e) ∨
      ∃ target d d', c.instantiate t bindings = .ok (target, d) ∧
        c'.instantiate t bindings = .ok (target, d') ∧ d.Paired σ w d' := by
  have hparts : ∀ {c d : Catalog} {target : Ty}, c.instantiate t bindings = .ok (target, d) →
      d.definitionPart = c.definitionPart := fun {c d target} hok => by
    unfold Catalog.instantiate at hok
    split at hok
    · cases hok
    · dsimp only at hok
      split at hok
      · cases hok
        rfl
      · cases hok
        exact definitionPart_specialize c _ _
  have hsame := instantiate_outline c' t bindings
  rw [h.renumbers.outline, instantiate_outline] at hsame
  cases hc : c.instantiate t bindings with
  | error e =>
    cases hc' : c'.instantiate t bindings with
    | error e' =>
      rw [hc, hc'] at hsame
      cases hsame
      exact .inl ⟨e, rfl, rfl⟩
    | ok result =>
      rw [hc, hc'] at hsame
      cases hsame
  | ok result =>
    cases hc' : c'.instantiate t bindings with
    | error e' =>
      rw [hc, hc'] at hsame
      cases hsame
    | ok result' =>
      rw [hc, hc'] at hsame
      obtain ⟨hfirst, hsecond⟩ := Prod.ext_iff.mp (Except.ok.inj hsame)
      obtain ⟨target, d⟩ := result
      obtain ⟨target', d'⟩ := result'
      obtain rfl : target = target' := hfirst
      exact .inr ⟨target, d, d', rfl, rfl, h.congr hsecond.symm (hparts hc) (hparts hc')
        (instantiate_steady hc) (instantiate_steady hc')⟩

end Paired

end Catalog

/-! ## Stores -/

namespace Store

variable {σ : Renumbering} {s s' : Store} {t : Ty}

/-- Wakes of call sites that are there. -/
def Known (w : Pairing) (wakes : List Wake) : Prop := ∀ s, .site s ∈ wakes → s.index < w.sites

/-- The same wakes, of call sites that are there. -/
def Roused (w : Pairing) (wakes wakes' : List Wake) : Prop := wakes = wakes' ∧ Known w wakes

/-- Stores that are the same but for their nodes and the handles of methods. -/
structure Paired (σ : Renumbering) (w : Pairing) (s s' : Store) : Prop where
  catalog : s.catalog.Paired σ w s'.catalog
  graph : s.graph.Paired w s'.graph

/-- Stores that stay paired as they are: a step on them makes no nodes. -/
abbrev StillPaired (σ : Renumbering) (w : Pairing) : Unit → Store → Store → Prop :=
  fun _ => Store.Paired σ w

namespace Paired

theorem regraph (h : s.Paired σ w s') {g g' : Graph} (hg : g.Paired w g') :
    Paired σ w ⟨s.catalog, g⟩ ⟨s'.catalog, g'⟩ := ⟨h.catalog, hg⟩

/-- More nodes may correspond after a change of the graphs. -/
theorem grow (h : s.Paired σ w s') (hw : w ≤ v) {g g' : Graph} (hg : g.Paired v g') :
    Paired σ v ⟨s.catalog, g⟩ ⟨s'.catalog, g'⟩ := ⟨h.catalog.mono hw, hg⟩

theorem recompute (h : s.Paired σ w s') (hn : w.pairs n m) :
    (s.recompute n).Paired σ w (s'.recompute m) := by
  have hcombine := h.catalog.combine (s.graph.cell n).kind (s.graph.inputs n)
  unfold Store.recompute
  rw [(h.graph.cell n m hn).kind, h.graph.inputs hn]
  generalize combine s.catalog (s.graph.cell n).kind (s.graph.inputs n) = x at hcombine ⊢
  generalize combine s'.catalog (s.graph.cell n).kind (s.graph.inputs n) = x' at hcombine ⊢
  obtain ⟨t, d⟩ := x
  obtain ⟨t', d'⟩ := x'
  obtain ⟨rfl, hd⟩ := hcombine
  cases t' with
  | none => exact ⟨hd, h.graph⟩
  | some t => exact ⟨hd, h.graph.retype hn t⟩

theorem bind (h : s.Paired σ w s') (hn : w.pairs n m) (hd : w.pairs d e) :
    (s.bind n d).Paired σ w (s'.bind m e) := by
  have hlinked := h.regraph (h.graph.link hn hd)
  rw [bind_eq, bind_eq, h.graph.typeAt hd]
  split
  · exact hlinked.recompute hn
  · exact hlinked

theorem unbind (h : s.Paired σ w s') (hn : w.pairs n m) (hd : w.pairs d e) :
    (s.unbind n d).Paired σ w (s'.unbind m e) :=
  (h.regraph (h.graph.unlink hn hd)).recompute hn

/-- Watchers that correspond are notified alike, with the same wakes. -/
theorem notify (h : s.Paired σ w s') {ws ws' : List Watcher}
    (hws : List.Forall₂ (Watcher.Paired w) ws ws') {wakes : List Wake} (hwakes : Known w wakes) :
    Roused w (ws.foldl Store.notify (s, wakes)).2 (ws'.foldl Store.notify (s', wakes)).2 ∧
      (ws.foldl Store.notify (s, wakes)).1.Paired σ w (ws'.foldl Store.notify (s', wakes)).1 := by
  induction hws generalizing s s' wakes with
  | nil => exact ⟨⟨rfl, hwakes⟩, h⟩
  | cons hwatcher _ ih =>
    cases hwatcher with
    | node hn => exact ih (h.recompute hn) hwakes
    | site site hsite =>
      refine ih h fun other hother => ?_
      rcases Graph.mem_addOnce.mp hother with hother | hother
      · cases hother
        exact hsite
      · exact hwakes other hother
    | provisional t =>
      refine ih h fun other hother => ?_
      rcases Graph.mem_addOnce.mp hother with hother | hother
      · cases hother
      · exact hwakes other hother

theorem step (h : s.Paired σ w s') (hn : w.pairs n m) {rest rest' : List Node}
    (hrest : List.Forall₂ w.pairs rest rest') (budget : Nat) {wakes : List Wake}
    (hwakes : Known w wakes) :
    Roused w (s.step n rest budget wakes).2 (s'.step m rest' budget wakes).2 ∧
      (s.step n rest budget wakes).1.Paired σ w (s'.step m rest' budget wakes).1 := by
  have hgraph := h.graph.requeue hrest (rfl : budget = budget)
  refine notify (h.regraph (hgraph.modify hn fun _ _ hc => ?_)) (h.graph.cell n m hn).watchers
    hwakes
  exact ⟨hc.kind, hc.type, hc.dependencies, hc.watchers, rfl, hc.place⟩

theorem drain (budget : Nat) {wakes : List Wake} (hwakes : Known w wakes) (h : s.Paired σ w s') :
    Ends (StillPaired σ w) (fun _ => Roused w) () (Store.drain budget s wakes)
      (Store.drain budget s' wakes) := by
  induction budget generalizing s s' wakes with
  | zero =>
    unfold Store.drain
    have hqueue := h.graph.queue
    cases hs : s.graph.queue with
    | nil =>
      rw [hs, List.forall₂_nil_left_iff] at hqueue
      rw [hqueue]
      exact .ok le_rfl h ⟨rfl, hwakes⟩
    | cons n rest =>
      rw [hs, List.forall₂_cons_left_iff] at hqueue
      obtain ⟨m, rest', -, hrest, hs'⟩ := hqueue
      rw [hs', h.graph.limit]
      exact .error _ le_rfl (h.regraph (h.graph.requeue hrest h.graph.budget))
  | succ budget ih =>
    unfold Store.drain
    have hqueue := h.graph.queue
    cases hs : s.graph.queue with
    | nil =>
      rw [hs, List.forall₂_nil_left_iff] at hqueue
      rw [hqueue]
      exact .ok le_rfl h ⟨rfl, hwakes⟩
    | cons n rest =>
      rw [hs, List.forall₂_cons_left_iff] at hqueue
      obtain ⟨m, rest', hn, hrest, hs'⟩ := hqueue
      rw [hs']
      obtain ⟨⟨hsame, hwakes⟩, hstep⟩ := h.step hn hrest budget hwakes
      dsimp only
      rw [← hsame]
      exact ih hwakes hstep

theorem propagate : Parallel (StillPaired σ w) (fun _ => Roused w) () propagate propagate := by
  intro s s' h
  unfold Store.propagate
  rw [h.graph.budget]
  exact h.drain _ fun _ hnone => by cases hnone

/-! ### Provisional types -/

section

variable {observed observed' : List (String × Node)} {holder holder' : Node} {template : Ty}

/-- Observed nodes that correspond, under the same names. -/
abbrev Observed (w : Pairing) : List (String × Node) → List (String × Node) → Prop :=
  List.Forall₂ fun a b => b.1 = a.1 ∧ w.pairs a.2 b.2

theorem bindings {g g' : Graph} (h : g.Paired w g') (ho : Observed w observed observed') :
    Store.bindings g' observed' = Store.bindings g observed := by
  unfold Store.bindings
  induction ho with
  | nil => rfl
  | cons hb _ ih => rw [List.filterMap_cons, List.filterMap_cons, h.typeAt hb.2, hb.1, ih]

theorem standing {g g' : Graph} (h : g.Paired w g') (ho : Observed w observed observed')
    (target : Ty) : Store.standing g' observed' target = Store.standing g observed target := by
  have hcomplete : isComplete g' observed' = isComplete g observed := by
    unfold isComplete
    induction ho with
    | nil => rfl
    | cons hb _ ih => rw [List.all_cons, List.all_cons, h.typeAt hb.2, ih]
  unfold Store.standing
  rw [hcomplete]

theorem watchAll {g g' : Graph} (h : g.Paired w g') (ho : Observed w observed observed') (t : Ty) :
    (Store.watchAll g observed t).Paired w (Store.watchAll g' observed' t) := by
  unfold Store.watchAll
  induction ho generalizing g g' with
  | nil => exact h
  | cons hb _ ih => exact ih (h.watch hb.2 (.provisional t))

theorem handOver {g g' : Graph} (h : g.Paired w g') (ho : Observed w observed observed')
    (former successor : Ty) :
    (Store.handOver g observed former successor).Paired w
      (Store.handOver g' observed' former successor) := by
  unfold Store.handOver
  induction ho generalizing g g' with
  | nil => exact h
  | cons hb _ ih =>
    exact ih ((h.unwatch hb.2 (.provisional former)).watch hb.2 (.provisional successor))

theorem specializationFor (template : Ty) (ho : Observed w observed observed') :
    Parallel (StillPaired σ w) Same () (Store.specializationFor template observed)
      (Store.specializationFor template observed') := by
  intro s s' h
  unfold Store.specializationFor
  rw [bindings h.graph ho]
  rcases h.catalog.instantiate template (Store.bindings s.graph observed) with
    ⟨e, he, he'⟩ | ⟨target, d, d', hd, hd', hpaired⟩
  · rw [he, he']
    exact .error e le_rfl h
  · rw [hd, hd']
    exact .ok le_rfl ⟨hpaired, h.graph⟩ rfl

theorem install (template : Ty) (ho : Observed w observed observed')
    (hholder : w.pairs holder holder') :
    Parallel (StillPaired σ w) Same () (Store.install template observed holder)
      (Store.install template observed' holder') := by
  refine (specializationFor template ho).bind' fun _ target target' _ htarget => ?_
  obtain rfl : target = target' := htarget
  refine .modifyGet' fun s s' h => ⟨(), le_rfl, ?_⟩
  obtain ⟨hfirst, hpushed⟩ := h.catalog.push
    (p := ⟨template, observed, holder, Store.standing s.graph observed target, 0⟩)
    (q := ⟨template, observed', holder', Store.standing s'.graph observed' target, 0⟩)
    ⟨rfl, ho, hholder, standing h.graph ho target, rfl⟩
  refine ⟨⟨hpushed, ?_⟩, hfirst.symm⟩
  show (Graph.retype _ holder _).Paired w (Graph.retype _ holder' _)
  rw [hfirst]
  exact (watchAll h.graph ho _).retype hholder _

theorem supersede (h : s.Paired σ w s') {p q : Provisional} (hpq : p.Paired w q) (t target : Ty) :
    (s.supersede t p target).Paired σ w (s'.supersede t q target) := by
  have hsize : s'.catalog.size = s.catalog.size := h.catalog.read size_outline
  obtain ⟨-, hpushed⟩ := h.catalog.push
    (p := succeeding s.graph p target) (q := succeeding s'.graph q target)
    ⟨hpq.template, hpq.observed, hpq.holder, standing h.graph hpq.observed target,
      congrArg (· + 1) hpq.generation⟩
  rw [supersede_eq, supersede_eq, hsize]
  refine ⟨?_, handOver (h.graph.retype hpq.holder _) hpq.observed _ _⟩
  unfold superseding
  rw [hsize]
  exact hpushed.setShape (p := { p with standing := .superseded ⟨s.catalog.size⟩ })
    (q := { q with standing := .superseded ⟨s.catalog.size⟩ })
    ⟨hpq.template, hpq.observed, hpq.holder, rfl, hpq.generation⟩ t

theorem restand (h : s.Paired σ w s') {p q : Provisional} (hpq : p.Paired w q) (t target : Ty) :
    (s.restand t p target).Paired σ w (s'.restand t q target) :=
  ⟨h.catalog.setShape (p := { p with standing := Store.standing s.graph p.observed target })
    (q := { q with standing := Store.standing s'.graph q.observed target })
    ⟨hpq.template, hpq.observed, hpq.holder, standing h.graph hpq.observed target,
      hpq.generation⟩ t, h.graph⟩

theorem refresh (t : Ty) (limit : Nat) :
    Parallel (StillPaired σ w) Same () (Store.refresh t limit) (Store.refresh t limit) := by
  unfold Store.refresh
  refine .get' fun s s' h => ?_
  rcases h.catalog.shape_cases t with ⟨p, q, hp, hq, hpq⟩ | ⟨hplain, hsame⟩
  · rw [hp, hq]
    dsimp only
    rw [hpq.standing]
    cases p.standing.target? with
    | none => exact Parallel.pure' rfl s s' h
    | some former =>
      dsimp only
      rw [hpq.template]
      refine (specializationFor p.template hpq.observed).bind' (fun _ target target' _ heq => ?_)
        s s' h
      obtain rfl : target = target' := heq
      split
      · exact .modify' fun s s' h => restand h hpq t target
      · rw [hpq.generation]
        split
        · refine .get' fun s s' h => ?_
          have hshown : s'.catalog.display p.template = s.catalog.display p.template :=
            h.catalog.read (f := fun c => c.display p.template)
              fun c => display_outline c p.template
          rw [hshown]
          exact Parallel.throw' _ s s' h
        · exact .modify' fun s s' h => supersede h hpq t target
  · rw [hsame]
    cases hs : s.catalog.shape t with
    | provisional p =>
      rw [hs] at hplain
      cases hplain
    | _ => exact Parallel.throw' _ s s' h

end

end Paired

end Store

end FlowTyping
