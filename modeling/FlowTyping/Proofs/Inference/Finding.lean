import FlowTyping.Proofs.Inference.Failing
import FlowTyping.Proofs.Inference.Pairing

/-
  What runs with other nodes find

  Paired runs start from catalogs that are the same but for the handles of
  methods (`Run.Paired.start`). Once they have settled they have the same defect
  or none (`defect_finished`), and find the same (`checked_finished`).
-/
namespace FlowTyping

open Steps Catalog

/-- Two checks find the same: the same types with the same names, the same types of expressions, the
same result and the same instances in the same order. -/
structure Checked.Matches (a b : Checked) : Prop where
  outline : b.catalog.outline = a.catalog.outline
  typeAt : ∀ id, b.typeAt id = a.typeAt id
  result : b.result = a.result
  instances : b.instances = a.instances

theorem Checked.Matches.symm {a b : Checked} (h : a.Matches b) : b.Matches a :=
  ⟨h.outline.symm, fun id => (h.typeAt id).symm, h.result.symm, h.instances.symm⟩

/-- Both checks stop for one reason, or both find the same. -/
inductive SameOutcome : Except Halt Checked → Except Halt Checked → Prop
  | stopped (halt : Halt) : SameOutcome (.error halt) (.error halt)
  | found {a b : Checked} (h : a.Matches b) : SameOutcome (.ok a) (.ok b)

theorem SameOutcome.symm {x y : Except Halt Checked} (h : SameOutcome x y) : SameOutcome y x := by
  cases h with
  | stopped halt => exact .stopped halt
  | found h => exact .found h.symm

/-- No nodes and no call sites. -/
def Pairing.empty : Pairing := ⟨fun _ _ => False, none, 0⟩

namespace Run

theorem isPlainObject_outline (c : Catalog) (t : Ty) :
    isPlainObject c.outline t = isPlainObject c t := by
  unfold isPlainObject
  rw [shape_outline]
  cases c.shape t <;> rfl

/-- The type of a node of a finished run. -/
theorem resolvedType_finished (r : Run) (n : Node) :
    r.finished.resolvedType n = (r.resolvedType n).map r.finished.catalog.resolve :=
  congrArg (Option.map r.finished.catalog.resolve) (typeAt_collapseAll r n)

namespace Paired

variable {σ : Renumbering} {ahead : Option Nat} {w : Pairing} {r r' : Run} {n m : Node}

/-- Runs that start from catalogs that differ in the handles of methods. -/
theorem start {c c' : Catalog} (hplain : c.Plain) (h : c.Renumbers σ c') (options : Options) :
    (Run.start c options).Paired σ none .empty (Run.start c' options) where
  store :=
    { catalog := ⟨h, fun t p hp => by
        have hnone := hplain t
        rw [show c.shape t = .provisional p from hp] at hnone
        cases hnone⟩
      graph :=
        { one := ⟨fun _ _ _ h => h.elim, fun _ _ _ h => h.elim⟩
          bounded := fun _ _ h => h.elim
          cell := fun _ _ h => h.elim
          queue := .nil
          budget := rfl
          limit := rfl
          spare := fun _ h => by cases h } }
  count := rfl
  size := rfl
  site s hs := (Nat.not_lt_zero _ hs).elim
  toRemembers := ⟨.nil, .nil, .nil, .nil, rfl, .nil⟩
  sharedNodes _ := .none fun _ => rfl
  recorded _ _ := .none
  noted _ h := by cases h
  distinct := ⟨List.nodup_nil, List.nodup_nil⟩

theorem resolvedType (h : r.Paired σ ahead w r') (hn : w.pairs n m) :
    r'.resolvedType m = r.resolvedType n := by
  unfold Run.resolvedType
  rw [h.graph.typeAt hn, h.read (f := fun c => c.resolve) fun c => funext (resolve_outline c)]

/-- Both runs write the same types to the same slots. -/
theorem outline_finished (h : r.Paired σ ahead w r') :
    r'.finished.catalog.outline = r.finished.catalog.outline := by
  show (r'.slotNodes.entries.foldl (writeSlot r'.collapseAll.graph) r'.catalog).outline =
    (r.slotNodes.entries.foldl (writeSlot r.collapseAll.graph) r.catalog).outline
  refine List.rel_foldl (P := fun c c' : Catalog => c'.outline = c.outline)
    (R := fun a b : (Ty × String) × Node => b.1 = id a.1 ∧ w.pairs a.2 b.2)
    (fun c c' hc a b hab => ?_) h.catalog.renumbers.outline h.slotNodes
  obtain ⟨⟨owner, name⟩, n⟩ := a
  obtain ⟨key, m⟩ := b
  obtain ⟨hkey, hn⟩ := hab
  rw [id] at hkey
  subst hkey
  have read : ∀ {β : Type} {f : Catalog → β}, (∀ c : Catalog, f c.outline = f c) → f c' = f c :=
    fun {_ f} hf => by rw [← hf c', hc, hf]
  unfold writeSlot
  rw [typeAt_collapseAll, typeAt_collapseAll, h.resolvedType hn]
  cases r.resolvedType n with
  | none => exact hc
  | some t =>
    dsimp only
    rw [read (f := fun c => isPlainObject c owner) fun c => isPlainObject_outline c owner,
      read (f := fun c => c.resolve t) fun c => resolve_outline c t]
    split
    · rw [← setSlot_outline, ← setSlot_outline, hc]
    · exact hc

/-- What is read off the outline of the final catalog is the same. -/
theorem read_finished (h : r.Paired σ ahead w r') {β : Type} {f : Catalog → β}
    (hf : ∀ c : Catalog, f c.outline = f c) : f r'.finished.catalog = f r.finished.catalog := by
  rw [← hf r'.finished.catalog, h.outline_finished, hf]

theorem resolvedType_finished (h : r.Paired σ ahead w r') (hn : w.pairs n m) :
    r'.finished.resolvedType m = r.finished.resolvedType n := by
  rw [Run.resolvedType_finished, Run.resolvedType_finished, h.resolvedType hn,
    h.read_finished (f := fun c => c.resolve) fun c => funext (resolve_outline c)]

/-- The same instance variables are assigned in both runs. -/
theorem isAssigned_finished (h : r.Paired σ ahead w r') (read : SlotRead) :
    r'.finished.isAssigned read = r.finished.isAssigned read := by
  have hknown := h.slotNodes.get? Function.injective_id (read.owner, read.name)
  rw [id] at hknown
  show ((r'.slotNodes.get? (read.owner, read.name)).bind r'.collapseAll.graph.typeAt).isSome =
    ((r.slotNodes.get? (read.owner, read.name)).bind r.collapseAll.graph.typeAt).isSome
  generalize r.slotNodes.get? (read.owner, read.name) = a at hknown ⊢
  generalize r'.slotNodes.get? (read.owner, read.name) = b at hknown ⊢
  cases hknown with
  | none => rw [Option.bind_none, Option.bind_none]
  | some hn =>
    rw [Option.bind_some, Option.bind_some, typeAt_collapseAll, typeAt_collapseAll,
      h.resolvedType hn]

/-- Settled runs have the same defect or none. -/
theorem defect_finished (h : r.Paired σ ahead w r') (hquiet : r.Quiet) (hquiet' : r'.Quiet) :
    r'.finished.defect = r.finished.defect := by
  have hreads : r'.finished.slotReads = r.finished.slotReads := h.slotReads
  unfold Run.defect
  rw [hreads, funext h.isAssigned_finished, hquiet.isQuiet_finished, hquiet'.isQuiet_finished,
    h.read_finished (f := fun c => c.display) fun c => funext (display_outline c), if_pos rfl,
    if_pos rfl]

/-- Every expression that is recorded has the same type in both runs. -/
theorem typeAt_finished (h : r.Paired σ none w r') (options : Options) (result result' : Node)
    (id : Nat) :
    (r'.finished.checked options result').typeAt id =
      (r.finished.checked options result).typeAt id := by
  show (r'.recorded.entries.filterMap fun entry =>
      (r'.finished.resolvedType entry.2).map fun t => (entry.1, t)).lookup id =
    (r.recorded.entries.filterMap fun entry =>
      (r.finished.resolvedType entry.2).map fun t => (entry.1, t)).lookup id
  rw [Table.lookup_filterMap h.distinct.1, Table.lookup_filterMap h.distinct.2]
  have hrecorded := h.recorded id (by simp)
  generalize r.recorded.get? id = a at hrecorded ⊢
  generalize r'.recorded.get? id = b at hrecorded ⊢
  cases hrecorded with
  | none => rw [Option.bind_none, Option.bind_none]
  | some hn => rw [Option.bind_some, Option.bind_some, h.resolvedType_finished hn]

/-- Settled runs find the same. -/
theorem checked_finished (h : r.Paired σ none w r') (hn : w.pairs n m) (options : Options) :
    (r.finished.checked options n).Matches (r'.finished.checked options m) where
  outline := h.outline_finished
  typeAt := h.typeAt_finished options n m
  result := h.resolvedType_finished hn
  instances := by
    have hinstances := h.instances
    show (r'.instances.toList.map fun i =>
        (⟨i.signature, r'.finished.resolvedType i.result⟩ : TypedInstance)) =
      r.instances.toList.map fun i => ⟨i.signature, r.finished.resolvedType i.result⟩
    generalize r.instances.toList = l at hinstances ⊢
    generalize r'.instances.toList = l' at hinstances ⊢
    induction hinstances with
    | nil => rw [List.map_nil, List.map_nil]
    | cons hab _ ih =>
      rw [List.map_cons, List.map_cons, ih, hab.1, h.resolvedType_finished hab.2]

end Paired

end Run

/-! ## The last part of a check -/

variable {σ : Renumbering} {w : Pairing} {r r' : Run} {n m : Node} {options : Options}
  {program : Expr}

/-- A program that settles is reported on. -/
theorem checkDeclared_of_settled {r₀ : Run}
    (h : RunM.settleProgram options program r₀ = .ok n r) :
    RunM.checkDeclared options program r₀ = RunM.report options n r.finished := by
  obtain ⟨result, r₁, htype, h⟩ := bind_ok.mp h
  obtain ⟨_, r₂, hsettle, h⟩ := bind_ok.mp h
  obtain ⟨rfl, rfl⟩ := pure_ok.mp h
  unfold RunM.checkDeclared
  rw [bind_eq, htype]
  dsimp only
  rw [bind_eq, hsettle]
  rfl

/-- Settled runs are reported on alike. -/
theorem agrees_report (h : r.Paired σ none w r') (hn : w.pairs n m) (hquiet : r.Quiet)
    (hquiet' : r'.Quiet) :
    Agrees (fun _ _ _ => True) (fun _ => Checked.Matches) w (RunM.report options n r.finished)
      (RunM.report options m r'.finished) := by
  have hfound := h.checked_finished hn options
  have hdefect := h.defect_finished hquiet hquiet'
  unfold RunM.report
  rw [get_bind_eq, get_bind_eq, hdefect]
  cases r.finished.defect with
  | some e => exact .error _ _ _
  | none => exact .ok le_rfl trivial hfound

end FlowTyping
