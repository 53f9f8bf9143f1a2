import FlowTyping.Flow.Graph

/-
  What the operations of a graph change

  For each operation: the cells it leaves alone and what it does to the others.
  `Graph.Wired` is what holds of every graph: a node watches the nodes that it
  depends on, and dirty nodes wait in the queue.
-/
namespace FlowTyping

theorem Node.eq_of_index {m n : Node} (h : m.index = n.index) : m = n := by
  cases m; cases n; simp_all

namespace Graph

variable {g : Graph} {m n d : Node}

theorem mem_addOnce {α : Type} [DecidableEq α] {a b : α} {items : List α} :
    a ∈ addOnce b items ↔ a = b ∨ a ∈ items := by
  unfold addOnce
  split
  · next h =>
    have hb : b ∈ items := by simpa using h
    refine ⟨.inr, ?_⟩
    rintro (rfl | ha)
    · exact hb
    · exact ha
  · simp [or_comm]

/-! ## Cells -/

theorem cell_modify (g : Graph) (n m : Node) (f : Cell → Cell) :
    (g.modify n f).cell m = if m = n ∧ n.index < g.size then f (g.cell m) else g.cell m := by
  unfold modify cell size
  rw [Array.getElem?_modify]
  by_cases h : n.index = m.index
  · obtain rfl := Node.eq_of_index h
    by_cases hb : n.index < g.cells.size
    · simp [hb]
    · simp [hb]
  · have hne : ¬ m = n := fun e => h (by rw [e])
    simp [h, hne]

theorem size_modify (g : Graph) (n : Node) (f : Cell → Cell) : (g.modify n f).size = g.size := by
  simp [modify, size]

/-- A field that a change of cells keeps is kept in every cell. -/
theorem field_modify {β : Type} (field : Cell → β) {f : Cell → Cell}
    (hf : ∀ cell, field (f cell) = field cell) (g : Graph) (n m : Node) :
    field ((g.modify n f).cell m) = field (g.cell m) := by
  rw [cell_modify]
  split
  · exact hf _
  · rfl

theorem cell_of_size_le (h : g.size ≤ n.index) : g.cell n = default := by
  unfold cell
  rw [Array.getElem?_eq_none h]
  rfl

theorem lt_size_of_typed {t : Ty} (h : g.typeAt n = some t) : n.index < g.size := by
  refine Nat.lt_of_not_le fun hle => ?_
  rw [typeAt, cell_of_size_le hle] at h
  cases h

theorem lt_size_of_dirty (h : g.dirtyAt n = true) : n.index < g.size := by
  refine Nat.lt_of_not_le fun hle => ?_
  rw [dirtyAt, cell_of_size_le hle] at h
  cases h

theorem lt_size_of_dependency (h : d ∈ g.dependencies n) : n.index < g.size := by
  refine Nat.lt_of_not_le fun hle => ?_
  rw [dependencies, cell_of_size_le hle] at h
  cases h

/-! ## New nodes -/

theorem cell_add (g : Graph) (kind : CellKind) (type : Option Ty) (place : Place) (m : Node) :
    (g.add kind type place).2.cell m =
      if m.index = g.size then ⟨kind, type, [], [], false, place⟩ else g.cell m := by
  unfold add cell size
  rw [Array.getElem?_push]
  split <;> rfl

theorem size_add (g : Graph) (kind : CellKind) (type : Option Ty) (place : Place) :
    (g.add kind type place).2.size = g.size + 1 := by
  simp [add, size]

/-- What a new node starts with. -/
theorem cell_add_new (g : Graph) (kind : CellKind) (type : Option Ty) (place : Place) :
    (g.add kind type place).2.cell ⟨g.size⟩ = ⟨kind, type, [], [], false, place⟩ := by
  rw [cell_add, if_pos rfl]

theorem size_lt_size_add (g : Graph) (kind : CellKind) (type : Option Ty) (place : Place) :
    g.size < (g.add kind type place).2.size := by
  rw [size_add]
  exact Nat.lt_succ_self _

/-! ## Types -/

/-- All that retyping can do: nothing, a change of the type of a node that is dirty already, or a
change that makes the node dirty. -/
theorem retype_cases (g : Graph) (n : Node) (t : Ty) :
    (g.typeAt n = some t ∧ g.retype n t = g) ∨
    (g.dirtyAt n = true ∧ g.retype n t = g.modify n fun cell => { cell with type := some t }) ∨
    (g.dirtyAt n = false ∧ g.retype n t =
      { g.modify n (fun cell => { cell with type := some t, dirty := true }) with
        queue := g.queue ++ [n] }) := by
  unfold retype
  split
  · next h => exact .inl ⟨h, rfl⟩
  · split
    · next h => exact .inr (.inl ⟨h, rfl⟩)
    · next h => exact .inr (.inr ⟨by simpa using h, rfl⟩)

theorem typeAt_retype (g : Graph) (n m : Node) (t : Ty) :
    (g.retype n t).typeAt m = if m = n ∧ n.index < g.size then some t else g.typeAt m := by
  rcases retype_cases g n t with ⟨h, heq⟩ | ⟨-, heq⟩ | ⟨-, heq⟩
  · rw [heq]
    split
    · next hm => rw [hm.1]; exact h
    · rfl
  · rw [heq]
    unfold typeAt
    rw [cell_modify]
    split <;> rfl
  · rw [heq]
    show ((g.modify n _).cell m).type = _
    rw [cell_modify]
    split <;> rfl

/-- Retyping keeps every field but the type and the mark of being dirty. -/
theorem field_retype {β : Type} (field : Cell → β)
    (htype : ∀ cell t, field { cell with type := some t } = field cell)
    (hdirty : ∀ cell, field { cell with dirty := true } = field cell)
    (g : Graph) (n m : Node) (t : Ty) : field ((g.retype n t).cell m) = field (g.cell m) := by
  rcases retype_cases g n t with ⟨-, heq⟩ | ⟨-, heq⟩ | ⟨-, heq⟩
  · rw [heq]
  · rw [heq]
    exact field_modify field (fun cell => htype cell t) g n m
  · rw [heq]
    refine field_modify field (fun cell => ?_) g n m
    exact (hdirty { cell with type := some t }).trans (htype cell t)

theorem kind_retype (g : Graph) (n m : Node) (t : Ty) :
    ((g.retype n t).cell m).kind = (g.cell m).kind :=
  field_retype (·.kind) (fun _ _ => rfl) (fun _ => rfl) g n m t

theorem dependencies_retype (g : Graph) (n m : Node) (t : Ty) :
    (g.retype n t).dependencies m = g.dependencies m :=
  field_retype (·.dependencies) (fun _ _ => rfl) (fun _ => rfl) g n m t

theorem watchers_retype (g : Graph) (n m : Node) (t : Ty) :
    ((g.retype n t).cell m).watchers = (g.cell m).watchers :=
  field_retype (·.watchers) (fun _ _ => rfl) (fun _ => rfl) g n m t

theorem size_retype (g : Graph) (n : Node) (t : Ty) : (g.retype n t).size = g.size := by
  rcases retype_cases g n t with ⟨-, heq⟩ | ⟨-, heq⟩ | ⟨-, heq⟩
  · rw [heq]
  · rw [heq, size_modify]
  · rw [heq]
    exact size_modify g n _

/-- A node is dirty after retyping if it was before, or if it is the one that got another type. -/
theorem dirtyAt_retype (g : Graph) (n m : Node) (t : Ty) :
    (g.retype n t).dirtyAt m = true ↔
      g.dirtyAt m = true ∨ (m = n ∧ n.index < g.size ∧ g.typeAt n ≠ some t) := by
  unfold retype
  split
  · next h => simp [h]
  · next h =>
    split
    · next hd =>
      have hkeep : (g.modify n fun cell => { cell with type := some t }).dirtyAt m = g.dirtyAt m := by
        refine field_modify (·.dirty) (fun cell => ?_) g n m
        rfl
      rw [hkeep]
      refine ⟨.inl, ?_⟩
      rintro (hm | ⟨rfl, -, -⟩)
      · exact hm
      · exact hd
    · show ((g.modify n _).cell m).dirty = true ↔ _
      rw [cell_modify]
      split
      · next hm => simp [hm, h]
      · next hm => exact ⟨.inl, fun hor => hor.elim id fun hn => absurd ⟨hn.1, hn.2.1⟩ hm⟩

/-- A node whose type is not the same after retyping is dirty. -/
theorem typeAt_retype_eq_or_dirty (g : Graph) (n m : Node) (t : Ty) :
    (g.retype n t).typeAt m = g.typeAt m ∨ (g.retype n t).dirtyAt m = true := by
  by_cases hm : m = n ∧ n.index < g.size
  · by_cases ht : g.typeAt n = some t
    · left
      rw [typeAt_retype, if_pos hm, hm.1, ht]
    · exact .inr ((dirtyAt_retype g n m t).mpr (.inr ⟨hm.1, hm.2, ht⟩))
  · left
    rw [typeAt_retype, if_neg hm]

/-- Nodes that get dirty are queued, and those that were queued stay. -/
theorem queue_retype (g : Graph) (n m : Node) (t : Ty) :
    m ∈ (g.retype n t).queue ↔ m ∈ g.queue ∨ (m = n ∧ g.dirtyAt n = false ∧ g.typeAt n ≠ some t) := by
  unfold retype
  split
  · next h => simp [h]
  · next h =>
    split
    · next hd =>
      show m ∈ g.queue ↔ _
      simp [hd]
    · next hd => simp [h, hd]; rfl

/-- A graph without queued or dirty nodes is quiet. -/
theorem isQuiet_of_clean (hqueue : g.queue = []) (hclean : ∀ n, g.dirtyAt n = false) :
    g.isQuiet = true := by
  have hnone : g.cells.toList.filter (·.dirty) = [] := by
    refine List.filter_eq_nil_iff.mpr fun cell hcell => ?_
    obtain ⟨i, hi, rfl⟩ := List.mem_iff_getElem.mp hcell
    have := hclean ⟨i⟩
    rw [dirtyAt, Graph.cell, Array.getElem?_eq_getElem (by simpa using hi)] at this
    simpa using this
  simp [Graph.isQuiet, countDirty, hqueue, hnone]

/-- Every dirty node is queued. -/
def Pending (g : Graph) : Prop := ∀ n, g.dirtyAt n = true → n ∈ g.queue

theorem Pending.retype (h : g.Pending) (n : Node) (t : Ty) : (g.retype n t).Pending := by
  intro m hm
  rw [queue_retype]
  cases hold : g.dirtyAt m with
  | true => exact .inl (h m hold)
  | false =>
    rcases (dirtyAt_retype g n m t).mp hm with hd | ⟨rfl, -, ht⟩
    · rw [hold] at hd
      cases hd
    · exact .inr ⟨rfl, hold, ht⟩

/-! ## Wiring -/

/-- Dependencies are nodes of the graph and have the nodes that depend on them among their
watchers, and dirty nodes are queued. -/
structure Wired (g : Graph) : Prop where
  bounded : ∀ n d, d ∈ g.dependencies n → d.index < g.size
  watched : ∀ n d, d ∈ g.dependencies n → .node n ∈ (g.cell d).watchers
  queued : ∀ n, g.dirtyAt n = true → n ∈ g.queue

namespace Wired

theorem empty (limit : Nat) : (Graph.empty limit).Wired := by
  have hcell : ∀ n, (Graph.empty limit).cell n = default :=
    fun n => cell_of_size_le (Nat.zero_le _)
  refine ⟨fun n d hd => ?_, fun n d hd => ?_, fun n hn => ?_⟩
  · rw [dependencies, hcell] at hd; cases hd
  · rw [dependencies, hcell] at hd; cases hd
  · rw [dirtyAt, hcell] at hn; cases hn

/-- A node that is not dirty need not be queued. -/
theorem quiet (hg : g.Wired) (hq : g.queue = []) (n : Node) : g.dirtyAt n = false := by
  refine Bool.eq_false_iff.mpr fun hn => ?_
  have := hg.queued n hn
  rw [hq] at this
  cases this

theorem isQuiet (hg : g.Wired) (hq : g.queue = []) : g.isQuiet = true :=
  isQuiet_of_clean hq (hg.quiet hq)

theorem add (hg : g.Wired) (kind : CellKind) (type : Option Ty) (place : Place) :
    (g.add kind type place).2.Wired := by
  have hdeps : ∀ n d, d ∈ (g.add kind type place).2.dependencies n → d ∈ g.dependencies n := by
    intro n d hd
    unfold dependencies at hd
    rw [cell_add] at hd
    split at hd
    · cases hd
    · exact hd
  refine ⟨fun n d hd => ?_, fun n d hd => ?_, fun n hn => ?_⟩
  · rw [size_add]
    exact Nat.lt_succ_of_lt (hg.bounded n d (hdeps n d hd))
  · have hb := hg.bounded n d (hdeps n d hd)
    rw [cell_add, if_neg (by omega)]
    exact hg.watched n d (hdeps n d hd)
  · unfold dirtyAt at hn
    rw [cell_add] at hn
    split at hn
    · cases hn
    · exact hg.queued n hn

theorem retype (hg : g.Wired) (n : Node) (t : Ty) : (g.retype n t).Wired := by
  refine ⟨fun m d hd => ?_, fun m d hd => ?_, Pending.retype hg.queued n t⟩
  · rw [dependencies_retype] at hd
    rw [size_retype]
    exact hg.bounded m d hd
  · rw [dependencies_retype] at hd
    rw [watchers_retype]
    exact hg.watched m d hd

end Wired

/-! ## Watching -/

/-- Between `g` and `g'` watchers are added or provisional types cease to watch; all else stays. -/
structure Rewatches (g g' : Graph) : Prop where
  size : g'.size = g.size
  queue : g'.queue = g.queue
  kind : ∀ n, (g'.cell n).kind = (g.cell n).kind
  typeAt : ∀ n, g'.typeAt n = g.typeAt n
  dependencies : ∀ n, g'.dependencies n = g.dependencies n
  dirtyAt : ∀ n, g'.dirtyAt n = g.dirtyAt n
  kept : ∀ n w, w ∈ (g.cell n).watchers → (∀ t, w ≠ .provisional t) → w ∈ (g'.cell n).watchers

namespace Rewatches

variable {g' g'' : Graph}

theorem refl (g : Graph) : g.Rewatches g :=
  ⟨rfl, rfl, fun _ => rfl, fun _ => rfl, fun _ => rfl, fun _ => rfl, fun _ _ h _ => h⟩

theorem trans (h₁ : g.Rewatches g') (h₂ : g'.Rewatches g'') : g.Rewatches g'' where
  size := h₂.size.trans h₁.size
  queue := h₂.queue.trans h₁.queue
  kind n := (h₂.kind n).trans (h₁.kind n)
  typeAt n := (h₂.typeAt n).trans (h₁.typeAt n)
  dependencies n := (h₂.dependencies n).trans (h₁.dependencies n)
  dirtyAt n := (h₂.dirtyAt n).trans (h₁.dirtyAt n)
  kept n w h hw := h₂.kept n w (h₁.kept n w h hw) hw

/-- A change of the watchers of one node that drops at most provisional types. -/
theorem modify (g : Graph) (n : Node) (change : List Watcher → List Watcher)
    (hchange : ∀ ws w, w ∈ ws → (∀ t, w ≠ .provisional t) → w ∈ change ws) :
    g.Rewatches (g.modify n fun cell => { cell with watchers := change cell.watchers }) where
  size := size_modify g n _
  queue := rfl
  kind m := by refine field_modify (·.kind) (fun _ => ?_) g n m; rfl
  typeAt m := by refine field_modify (·.type) (fun _ => ?_) g n m; rfl
  dependencies m := by refine field_modify (·.dependencies) (fun _ => ?_) g n m; rfl
  dirtyAt m := by refine field_modify (·.dirty) (fun _ => ?_) g n m; rfl
  kept m w h hw := by
    rw [cell_modify]
    split
    · exact hchange _ w h hw
    · exact h

theorem watch (g : Graph) (n : Node) (w : Watcher) : g.Rewatches (g.watch n w) :=
  .modify g n (addOnce w) fun _ _ h _ => mem_addOnce.mpr (.inr h)

theorem unwatch (g : Graph) (n : Node) (t : Ty) : g.Rewatches (g.unwatch n (.provisional t)) :=
  .modify g n (·.filter (· != .provisional t)) fun _ w h hw =>
    List.mem_filter.mpr ⟨h, by simpa using hw t⟩

end Rewatches

theorem Wired.rewatch {g' : Graph} (hg : g.Wired) (h : g.Rewatches g') : g'.Wired where
  bounded n d hd := by
    rw [h.dependencies] at hd
    rw [h.size]
    exact hg.bounded n d hd
  watched n d hd := by
    rw [h.dependencies] at hd
    exact h.kept d _ (hg.watched n d hd) fun t => by simp
  queued n hn := by
    rw [h.dirtyAt] at hn
    rw [h.queue]
    exact hg.queued n hn

theorem mem_watchers_watch {w v : Watcher} (hn : n.index < g.size) :
    v ∈ ((g.watch n w).cell m).watchers ↔ (m = n ∧ v = w) ∨ v ∈ (g.cell m).watchers := by
  unfold watch
  rw [cell_modify]
  split
  · next h => simp [h.1, mem_addOnce]
  · next h =>
    have : ¬ m = n := fun e => h ⟨e, hn⟩
    simp [this]

/-! ## Dependencies -/

/-- Makes `n` depend on `d` and watch it. -/
def link (g : Graph) (n d : Node) : Graph :=
  (g.modify n fun cell => { cell with dependencies := addOnce d cell.dependencies }).watch d (.node n)

/-- Makes `n` neither depend on `d` nor watch it. -/
def unlink (g : Graph) (n d : Node) : Graph :=
  (g.modify n fun cell =>
    { cell with dependencies := cell.dependencies.filter (· != d) }).unwatch d (.node n)

/-- A field that has to do with neither dependencies nor watchers. -/
theorem field_link {β : Type} (field : Cell → β)
    (hdeps : ∀ cell ds, field { cell with dependencies := ds } = field cell)
    (hwatchers : ∀ cell ws, field { cell with watchers := ws } = field cell) (g : Graph)
    (n d m : Node) :
    field ((g.link n d).cell m) = field (g.cell m) ∧
      field ((g.unlink n d).cell m) = field (g.cell m) := by
  unfold link unlink watch unwatch
  exact ⟨(field_modify field (fun _ => hwatchers _ _) _ d m).trans
      (field_modify field (fun _ => hdeps _ _) g n m),
    (field_modify field (fun _ => hwatchers _ _) _ d m).trans
      (field_modify field (fun _ => hdeps _ _) g n m)⟩

theorem size_link (g : Graph) (n d : Node) : (g.link n d).size = g.size := by
  rw [link, watch, size_modify, size_modify]

theorem size_unlink (g : Graph) (n d : Node) : (g.unlink n d).size = g.size := by
  rw [unlink, unwatch, size_modify, size_modify]

theorem typeAt_link (g : Graph) (n d m : Node) : (g.link n d).typeAt m = g.typeAt m :=
  (field_link (·.type) (fun _ _ => rfl) (fun _ _ => rfl) g n d m).1

theorem typeAt_unlink (g : Graph) (n d m : Node) : (g.unlink n d).typeAt m = g.typeAt m :=
  (field_link (·.type) (fun _ _ => rfl) (fun _ _ => rfl) g n d m).2

theorem kind_link (g : Graph) (n d m : Node) :
    ((g.link n d).cell m).kind = (g.cell m).kind :=
  (field_link (·.kind) (fun _ _ => rfl) (fun _ _ => rfl) g n d m).1

theorem kind_unlink (g : Graph) (n d m : Node) :
    ((g.unlink n d).cell m).kind = (g.cell m).kind :=
  (field_link (·.kind) (fun _ _ => rfl) (fun _ _ => rfl) g n d m).2

theorem dirtyAt_link (g : Graph) (n d m : Node) : (g.link n d).dirtyAt m = g.dirtyAt m :=
  (field_link (·.dirty) (fun _ _ => rfl) (fun _ _ => rfl) g n d m).1

theorem dirtyAt_unlink (g : Graph) (n d m : Node) : (g.unlink n d).dirtyAt m = g.dirtyAt m :=
  (field_link (·.dirty) (fun _ _ => rfl) (fun _ _ => rfl) g n d m).2

theorem dependencies_link (g : Graph) (n d m : Node) :
    (g.link n d).dependencies m =
      if m = n ∧ n.index < g.size then addOnce d (g.dependencies m) else g.dependencies m := by
  unfold link watch dependencies
  refine (field_modify (·.dependencies) (fun _ => ?_) _ d m).trans ?_
  · rfl
  · rw [cell_modify]
    split <;> rfl

theorem dependencies_unlink (g : Graph) (n d m : Node) :
    (g.unlink n d).dependencies m =
      if m = n ∧ n.index < g.size then (g.dependencies m).filter (· != d)
      else g.dependencies m := by
  unfold unlink unwatch dependencies
  refine (field_modify (·.dependencies) (fun _ => ?_) _ d m).trans ?_
  · rfl
  · rw [cell_modify]
    split <;> rfl

theorem watchers_link (g : Graph) (n d m : Node) :
    ((g.link n d).cell m).watchers =
      if m = d ∧ d.index < g.size then addOnce (.node n) (g.cell m).watchers
      else (g.cell m).watchers := by
  unfold link watch
  have hkeep : ∀ k, ((g.modify n fun cell =>
      { cell with dependencies := addOnce d cell.dependencies }).cell k).watchers =
        (g.cell k).watchers := by
    intro k
    refine field_modify (·.watchers) (fun _ => ?_) g n k
    rfl
  rw [cell_modify, size_modify]
  split
  · show addOnce _ ((g.modify n _).cell m).watchers = _
    rw [hkeep]
  · exact hkeep m

theorem watchers_unlink (g : Graph) (n d m : Node) :
    ((g.unlink n d).cell m).watchers =
      if m = d ∧ d.index < g.size then (g.cell m).watchers.filter (· != .node n)
      else (g.cell m).watchers := by
  unfold unlink unwatch
  have hkeep : ∀ k, ((g.modify n fun cell =>
      { cell with dependencies := cell.dependencies.filter (· != d) }).cell k).watchers =
        (g.cell k).watchers := by
    intro k
    refine field_modify (·.watchers) (fun _ => ?_) g n k
    rfl
  rw [cell_modify, size_modify]
  split
  · show List.filter _ ((g.modify n _).cell m).watchers = _
    rw [hkeep]
  · exact hkeep m

theorem Wired.link (hg : g.Wired) (n : Node) (hd : d.index < g.size) : (g.link n d).Wired := by
  have hdeps : ∀ m e, e ∈ (g.link n d).dependencies m → (m = n ∧ e = d) ∨ e ∈ g.dependencies m := by
    intro m e he
    rw [dependencies_link] at he
    split at he
    · next h => exact (mem_addOnce.mp he).imp_left fun h' => ⟨h.1, h'⟩
    · exact .inr he
  refine ⟨fun m e he => ?_, fun m e he => ?_, fun m hm => ?_⟩
  · rw [size_link]
    rcases hdeps m e he with ⟨-, rfl⟩ | he
    · exact hd
    · exact hg.bounded m e he
  · rw [watchers_link]
    rcases hdeps m e he with ⟨rfl, rfl⟩ | he
    · rw [if_pos ⟨rfl, hd⟩]
      exact mem_addOnce.mpr (.inl rfl)
    · split
      · exact mem_addOnce.mpr (.inr (hg.watched m e he))
      · exact hg.watched m e he
  · rw [dirtyAt_link] at hm
    exact hg.queued m hm

theorem Wired.unlink (hg : g.Wired) (n d : Node) : (g.unlink n d).Wired := by
  -- what is left of the dependencies is not the edge that was taken away
  have hdeps : ∀ m e, e ∈ (g.unlink n d).dependencies m →
      e ∈ g.dependencies m ∧ ¬ (m = n ∧ e = d) := by
    intro m e he
    have hb : m.index < (g.unlink n d).size := lt_size_of_dependency he
    rw [size_unlink] at hb
    rw [dependencies_unlink] at he
    split at he
    · rw [List.mem_filter] at he
      exact ⟨he.1, fun h => by simp [h.2] at he⟩
    · next h => exact ⟨he, fun h' => h ⟨h'.1, h'.1 ▸ hb⟩⟩
  refine ⟨fun m e he => ?_, fun m e he => ?_, fun m hm => ?_⟩
  · rw [size_unlink]
    exact hg.bounded m e (hdeps m e he).1
  · obtain ⟨he, hne⟩ := hdeps m e he
    rw [watchers_unlink]
    split
    · next h =>
      refine List.mem_filter.mpr ⟨hg.watched m e he, ?_⟩
      have hmn : m ≠ n := fun hmn => hne ⟨hmn, h.1⟩
      simpa using hmn
    · exact hg.watched m e he
  · rw [dirtyAt_unlink] at hm
    exact hg.queued m hm

end Graph

end FlowTyping
