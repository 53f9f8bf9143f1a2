import FlowTyping.Proofs.Flow.Kinship
import FlowTyping.Proofs.Inference.Agreement
import FlowTyping.Proofs.Inference.Interchange
import FlowTyping.Proofs.Visit

/-
  Metaclasses mirror the types they belong to

  Where declarations have entered all superclasses and includes, these are
  class-like types with a metaclass of their own, metaclasses, or constants
  (`Catalog.RelativesDeclared`). Nothing with a metaclass is above a type without
  one. So the search of the parents of a metaclass is the search of the parents
  of its instance, with each type replaced by its metaclass (`ancestors_next`).

  The catalog that a check ends with is one where this holds
  (`metaclasses_mirror`): types have been copied, merged and pointed to since the
  declarations, but none of these has become a superclass or an include.
-/
namespace FlowTyping

/-- The shapes that declarations enter. -/
def Shape.isDeclared : Shape → Bool
  | .metaclass _ _ | .constant _ _ _ => true
  | s => s.isOriginal

theorem Shape.Becomes.isDeclared_eq {a b : Shape} (h : a.Becomes b) :
    b.isDeclared = a.isDeclared := by
  cases h <;> rfl

theorem Shape.isDeclared_of_isOriginal {s : Shape} (h : s.isOriginal = true) :
    s.isDeclared = true := by
  cases s with
  | metaclass => rfl
  | constant => rfl
  | _ => exact h

theorem ClassTable.mem_mentioned_of_relatives {table : ClassTable} {p : Ty}
    (h : p ∈ table.relatives) : p ∈ table.mentioned := by
  unfold mentioned
  simp only [relatives, List.mem_append] at h ⊢
  rcases h with h | h
  · exact .inl (.inl (.inr h))
  · exact .inl (.inl (.inl (.inr h)))

theorem Ty.next_injective {t u : Ty} (h : t.next = u.next) : t = u :=
  Ty.eq_of_index (Nat.succ.inj (congrArg Ty.index h))

namespace Catalog

variable {c c' : Catalog} {a p t u : Ty} {q : Query}

/-- Every superclass and include is a type that declarations enter. -/
def RelativesDeclared (c : Catalog) : Prop :=
  ∀ k, ∀ p ∈ (c.classTable k).relatives, (c.shape p).isDeclared = true

/-! ## What declarations enter -/

/-- As long as types are declared only, there are no copies and no pointer types but the first. -/
theorem Early.isDeclared (hc : c.Early) (hpointer : c.shape .pointer = .pointer none)
    (ht : t.index < c.size) : (c.shape t).isDeclared = true := by
  have hconstant := hc.tabled.constant t ht
  cases hs : c.shape t with
  | object o =>
    cases htemplate : o.template with
    | none => simp [Shape.isDeclared, Shape.isOriginal, htemplate]
    | some template =>
      have hlinked := hc.sound.links t
      rw [hs] at hlinked
      obtain ⟨-, o', ho', -, hnone, hcls⟩ := hlinked template htemplate
      obtain rfl : t = template :=
        hc.tabled.own t template o.cls (by rw [hs]; rfl) (by rw [ho']; exact congrArg some hcls)
      cases hs.symm.trans ho'
      cases hnone.symm.trans htemplate
  | pointer pointee =>
    obtain rfl : t = .pointer :=
      hc.tabled.own t .pointer .pointer (by rw [hs]; rfl) (by rw [hpointer]; rfl)
    cases hs.symm.trans hpointer
    rfl
  | union members =>
    obtain ⟨name, container, value, heq⟩ := hconstant (by rw [hs]; rfl)
    cases hs.symm.trans heq
  | provisional p =>
    obtain ⟨name, container, value, heq⟩ := hconstant (by rw [hs]; rfl)
    cases hs.symm.trans heq
  | _ => rfl

/-- Superclasses and includes have been declared, whatever has been entered since. -/
theorem Extends.relativesDeclared (h : c.Extends c') (hc : c.Sound)
    (hdeclared : ∀ t : Ty, t.index < c.size → (c.shape t).isDeclared = true) :
    c'.RelativesDeclared := by
  intro k p hp
  obtain ⟨types, htypes⟩ := h.classTable k
  rw [htypes] at hp
  have hentered : p.index < c.size := (hc.classes k p (ClassTable.mem_mentioned_of_relatives hp)).1
  rw [(h.toGrows.shape p hentered).isDeclared_eq]
  exact hdeclared p hentered

/-! ## Metaclasses -/

theorem resolve_of_isDeclared (h : (c.shape t).isDeclared = true) : c.resolve t = t := by
  refine resolveWithin_of_not_provisional ?_ _
  cases hs : c.shape t with
  | provisional => rw [hs] at h; cases h
  | _ => rfl

theorem resolvedShape_of_isDeclared (h : (c.shape t).isDeclared = true) :
    c.resolvedShape t = c.shape t := congrArg c.shape (resolve_of_isDeclared h)

theorem metaclassHolder_of_isDeclared (h : (c.shape t).isDeclared = true) :
    c.metaclassHolder t = t := by
  unfold metaclassHolder
  rw [resolvedShape_of_isDeclared h, resolve_of_isDeclared h]
  split
  · next o ho =>
    rw [ho] at h
    rw [Option.isNone_iff_eq_none.mp h]
    rfl
  · next pointee hp =>
    rw [hp] at h
    cases h
  · rfl

namespace Kindred

/-- Of the types that declarations enter those have a metaclass that are no metaclasses and no
constants. -/
theorem metaclass?_eq (hc : c.Kindred) (h : (c.shape t).isDeclared = true) :
    c.metaclass? t = if (c.shape t).isOriginal then some t.next else none := by
  unfold metaclass?
  rw [metaclassHolder_of_isDeclared h]
  dsimp only
  by_cases horiginal : (c.shape t).isOriginal = true
  · obtain ⟨k, hk⟩ := hc.attended t horiginal
    rw [hk, if_pos horiginal]
    exact if_pos rfl
  · rw [if_neg horiginal]
    cases hs : c.shape t.next with
    | metaclass k s =>
      refine if_neg fun heq => horiginal ?_
      exact heq ▸ (hc.subject t.next k s hs).2
    | _ => rfl

theorem metaclass?_eq_some_iff (hc : c.Kindred) (h : (c.shape t).isDeclared = true) :
    c.metaclass? t = some u ↔ (c.shape t).isOriginal = true ∧ t.next = u := by
  rw [hc.metaclass?_eq h, Option.ite_none_right_eq_some, Option.some.injEq]

theorem metaclass?_of_isOriginal (hc : c.Kindred) (h : (c.shape t).isOriginal = true) :
    c.metaclass? t = some t.next :=
  (hc.metaclass?_eq_some_iff (Shape.isDeclared_of_isOriginal h)).mpr ⟨h, rfl⟩

theorem original_or_without_metaclass (hc : c.Kindred) (h : (c.shape t).isDeclared = true) :
    (c.shape t).isOriginal = true ∨
      c.metaclass? t = none ∧ (c.isMeta t = true ∨ c.tableOf t = none) := by
  by_cases horiginal : (c.shape t).isOriginal = true
  · exact .inl horiginal
  refine .inr ⟨by rw [hc.metaclass?_eq h, if_neg horiginal], ?_⟩
  have hshape := resolvedShape_of_isDeclared h
  cases hs : c.shape t with
  | metaclass => exact .inl (by rw [isMeta, hshape, hs])
  | constant => exact .inr (by rw [tableOf, cls?, hshape, hs]; rfl)
  | _ =>
    rw [hs] at h horiginal
    exact absurd h horiginal

theorem resolvedShape_next (hc : c.Kindred) (h : (c.shape t).isOriginal = true) :
    ∃ k, c.resolvedShape t.next = .metaclass k t := by
  obtain ⟨k, hk⟩ := hc.attended t h
  exact ⟨k, by rw [resolvedShape_of_isDeclared (by rw [hk]; rfl), hk]⟩

/-- The parents of a metaclass are the metaclasses of the parents of its instance. -/
theorem parents_next (hc : c.Kindred) (h : (c.shape t).isOriginal = true) :
    c.parents t.next = (c.parents t).filterMap c.metaclass? := by
  obtain ⟨k, hk⟩ := hc.resolvedShape_next h
  have hown : c.parents t = c.declaredParents t := by
    unfold parents
    rw [resolvedShape_of_isDeclared (Shape.isDeclared_of_isOriginal h)]
    cases hs : c.shape t with
    | metaclass => rw [hs] at h; cases h
    | _ => rfl
  rw [hown, parents, hk]

/-- Only types without a metaclass are above such a type: a constant has no parents, and those of a
metaclass are metaclasses. -/
theorem metaclass?_of_mem_parents (hc : c.Kindred) (ht : (c.shape t).isDeclared = true)
    (hnone : c.metaclass? t = none) (hp : p ∈ c.parents t) : c.metaclass? p = none := by
  have hother : (c.shape t).isOriginal ≠ true := fun h => by
    cases hnone.symm.trans (hc.metaclass?_of_isOriginal h)
  have hshape := resolvedShape_of_isDeclared ht
  cases hs : c.shape t with
  | metaclass k s =>
    rw [parents, hshape, hs] at hp
    obtain ⟨v, -, hv⟩ := List.mem_filterMap.mp hp
    obtain ⟨l, hl⟩ := metaclass?_spec hv
    rw [hc.metaclass?_eq (by rw [hl]; rfl), hl]
    rfl
  | constant =>
    rw [parents_of_not_hasParents (by rw [hshape, hs]; rfl) (by rw [isMeta, hshape, hs])] at hp
    cases hp
  | _ =>
    rw [hs] at ht hother
    exact absurd ht hother

/-- A pointer type has the metaclass of the template of pointer types. -/
theorem metaclass?_of_pointer (hc : c.Kindred) (ht : c.resolvedShape t = .pointer (some p)) :
    c.metaclass? t = c.metaclass? .pointer := by
  have hholder : c.metaclassHolder t = c.metaclassHolder .pointer := by
    have hpointer : (c.shape .pointer).isDeclared = true := by rw [hc.pointer]; rfl
    rw [metaclassHolder_of_isDeclared hpointer, metaclassHolder, ht]
  rw [metaclass?, metaclass?, hholder]

end Kindred

/-- A copy has the metaclass of what it is made from. -/
theorem Sound.metaclass?_of_object (hsound : c.Sound) {o : ObjectShape}
    (ht : c.resolvedShape t = .object o) (hu : o.template = some u) :
    (c.shape u).isOriginal = true ∧ c.metaclass? t = c.metaclass? u := by
  have hlinked := hsound.links (c.resolve t)
  rw [show c.shape (c.resolve t) = .object o from ht] at hlinked
  obtain ⟨-, o', ho', -, hnone, -⟩ := hlinked u hu
  have horiginal : (c.shape u).isOriginal = true := by
    rw [ho']
    exact Option.isNone_iff_eq_none.mpr hnone
  have hholder : c.metaclassHolder t = c.metaclassHolder u := by
    have hdeclared := Shape.isDeclared_of_isOriginal horiginal
    rw [metaclassHolder_of_isDeclared hdeclared, metaclassHolder, ht]
    exact congrArg (Option.getD · _) hu
  exact ⟨horiginal, by rw [metaclass?, metaclass?, hholder]⟩

/-! ## What is above a type and above its metaclass -/

section Mirror

variable (hc : c.Kindred) (hrelatives : c.RelativesDeclared)

include hrelatives

theorem RelativesDeclared.parents (hp : p ∈ c.parents t) : (c.shape p).isDeclared = true := by
  rcases relative_or_metaclass_of_mem_parents hp with ⟨k, hk⟩ | ⟨k, s, hs⟩
  · exact hrelatives k p hk
  · rw [hs]
    rfl

/-- Calls on definitions but `new` search the types that parents lead to. -/
theorem RelativesDeclared.searchOrder_eq (hq : q.name ≠ "new") :
    c.searchOrder t q = preorder c.parents (c.size + 1) [] [c.resolve t] := by
  have hnext : (fun t => (c.parents t).map c.resolve) = c.parents := funext fun t =>
    (List.map_congr_left fun p hp => resolve_of_isDeclared (hrelatives.parents hp)).trans
      (List.map_id _)
  unfold searchOrder
  rw [if_neg fun h => hq h.1, hnext]

include hc

/-- The search above a metaclass is the search above its instance, with metaclasses for the types
that have one. -/
theorem ancestors_next (ht : (c.shape t).isOriginal = true) :
    (∀ u ∈ preorder c.parents (c.size + 1) [] [t], (c.shape u).isDeclared = true) ∧
      preorder c.parents (c.size + 1) [] [t.next] =
        (preorder c.parents (c.size + 1) [] [t]).filterMap c.metaclass? := by
  have hvisit : ∀ t, Visit c.parents [] [t] (preorder c.parents (c.size + 1) [] [t]) := by
    intro t
    have hclosed : ∀ u ∈ t :: c.entered, ∀ p ∈ c.parents u, p ∈ t :: c.entered := fun u _ p hp =>
      List.mem_cons_of_mem _ (mem_entered.mpr (hc.lt_of_parents hp))
    refine visit_preorder hclosed [] [t] (fun u hu => ?_) ?_
    · exact List.mem_singleton.mp hu ▸ List.mem_cons_self
    · refine Nat.le_trans (List.length_filter_le _ _) ?_
      rw [List.length_cons, length_entered]
  have hdeclared := Shape.isDeclared_of_isOriginal ht
  have hsome : ∀ u, (c.shape u).isDeclared = true → ∀ m, c.metaclass? u = some m →
      c.parents m = (c.parents u).filterMap c.metaclass? := fun u hu m hm => by
    obtain ⟨horiginal, rfl⟩ := (hc.metaclass?_eq_some_iff hu).mp hm
    exact hc.parents_next horiginal
  have hinjective : ∀ u v m, (c.shape u).isDeclared = true → (c.shape v).isDeclared = true →
      c.metaclass? u = some m → c.metaclass? v = some m → u = v := fun u v m hu hv hm hm' => by
    obtain ⟨-, rfl⟩ := (hc.metaclass?_eq_some_iff hu).mp hm
    exact Ty.next_injective ((hc.metaclass?_eq_some_iff hv).mp hm').2.symm
  obtain ⟨horder, hmirror⟩ := (hvisit t).filterMap (fun _ _ _ hp => hrelatives.parents hp)
    (fun _ hu hnone _ hp => hc.metaclass?_of_mem_parents hu hnone hp) hsome hinjective
    (fun _ hu => by cases hu) (fun u hu => List.mem_singleton.mp hu ▸ hdeclared)
  rw [List.filterMap_cons_some (hc.metaclass?_of_isOriginal ht)] at hmirror
  exact ⟨horder, (hvisit t.next).unique hmirror⟩

theorem descendsFrom_next (ha : (c.shape a).isOriginal = true)
    (ht : (c.shape t).isOriginal = true) : c.descendsFrom t.next a.next = c.descendsFrom t a := by
  have hnext : ∀ u, (c.shape u).isOriginal = true → c.resolve u.next = u.next := fun u hu => by
    obtain ⟨k, hk⟩ := hc.attended u hu
    exact resolve_of_isDeclared (by rw [hk]; rfl)
  have hown : ∀ u, (c.shape u).isOriginal = true → c.resolve u = u := fun u hu =>
    resolve_of_isDeclared (Shape.isDeclared_of_isOriginal hu)
  obtain ⟨horder, hmirror⟩ := ancestors_next hc hrelatives ht
  unfold descendsFrom
  rw [hnext t ht, hnext a ha, hown t ht, hown a ha, hmirror, Bool.eq_iff_iff,
    List.contains_iff_mem, List.contains_iff_mem, List.mem_filterMap]
  constructor
  · rintro ⟨u, hu, hmeta⟩
    have heq := ((hc.metaclass?_eq_some_iff (horder u hu)).mp hmeta).2
    exact Ty.next_injective heq ▸ hu
  · exact fun h => ⟨a, h, hc.metaclass?_of_isOriginal ha⟩

end Mirror

end Catalog

open Catalog Steps

variable {program : Expr} {options : Options} {checked : Checked}

/-! ## The catalog that a check ends with -/

theorem catalog_ending (h : check program options = .ok checked) :
    (ending program options).catalog = checked.catalog := by
  unfold check at h
  unfold ending
  cases hdeclare : DeclareM.declareProgram program .seeded with
  | error e c => rw [hdeclare] at h; cases h
  | ok u c =>
    rw [hdeclare] at h
    dsimp only at h ⊢
    cases hchecked : RunM.checkDeclared options program (.start c options) with
    | error halt r => rw [hchecked] at h; cases h
    | ok found r' =>
      rw [hchecked] at h
      cases h
      obtain ⟨result, r, -, rfl, -, rfl⟩ := checkDeclared_ok.mp hchecked
      rfl

theorem kindred_of_check (h : check program options = .ok checked) : checked.catalog.Kindred :=
  catalog_ending h ▸ (moves_ending program options).moved.kindred

/-- When a check ends, superclasses and includes are what the declarations of the program have
entered. -/
theorem relativesDeclared_of_check (h : check program options = .ok checked) :
    checked.catalog.Sound ∧ checked.catalog.RelativesDeclared := by
  obtain ⟨result, r, hsettled, rfl⟩ := check_eq_ok_iff.mp h
  obtain ⟨u, c, hdeclare, hsettle, -⟩ := settledRun_eq_some_iff.mp hsettled
  have hdeclared := DeclareM.declareProgram_declares hdeclare
  have hfinished := (settledRun_ok hsettled).1.finished
  have hext := (extends_of_settleProgram hdeclared hsettle).trans hfinished.2
  refine ⟨hfinished.1, hext.relativesDeclared hdeclared.sound fun t ht => ?_⟩
  -- the type pass enters all types, and the method pass only adds methods
  obtain ⟨_, c₁, htypes, hmethods⟩ := bind_ok.mp hdeclare
  rw [typePass_eq []] at htypes
  rw [methodPass_eq []] at hmethods
  obtain ⟨types, htypes, -⟩ := functor_map_ok.mp htypes
  obtain ⟨methods, hmethods, -⟩ := functor_map_ok.mp hmethods
  have hmain : seeded.Definite .main := early_seeded.sound.builtin (by decide)
  have hplaces := DeclareM.places_openTypes early_seeded hmain program htypes
  obtain ⟨-, hdefines⟩ : openings c₁.nestedType [] .main program = some methods.1 ∧
      DeclareM.Defines c₁ [] methods.2 c :=
    DeclareM.defines_openMethods hplaces.early (hplaces.declares.definite hmain) program hmethods
  have hpointer := hplaces.declares.grows.shape .pointer (early_seeded.sound.builtin (by decide)).1
  rw [kindred_seeded.pointer] at hpointer
  have hshapes : c.shapes = c₁.shapes := by rw [hdefines.eq, shapes_defineAll]
  rw [shape_of_shapes_eq hshapes]
  exact hplaces.early.isDeclared hpointer.eq_of_pointer
    (Nat.lt_of_lt_of_eq ht (size_of_shapes_eq hshapes))

/-- When a check ends, every class-like type that is no copy and no pointer instance has a metaclass
that belongs to it alone, and copies and pointer instances have that of their template. One type is
an ancestor of another one exactly if its metaclass is one of the other's metaclass. A call of
anything but `new` on a metaclass searches the metaclasses of the types that a call on the instance
searches, in this order; what has no metaclass there is a metaclass or has no class table. -/
theorem metaclasses_mirror (h : check program options = .ok checked) :
    let c := checked.catalog
    (∀ t, (c.shape t).isOriginal = true →
      ∃ m, c.metaclass? t = some m ∧ c.isMeta m = true ∧ c.subject m = t) ∧
    (∀ a t m, (c.shape a).isOriginal = true → (c.shape t).isOriginal = true →
      c.metaclass? a = some m → c.metaclass? t = some m → a = t) ∧
    (∀ a t ma mt, (c.shape a).isOriginal = true → (c.shape t).isOriginal = true →
      c.metaclass? a = some ma → c.metaclass? t = some mt →
        c.descendsFrom mt ma = c.descendsFrom t a) ∧
    (∀ t o u, c.resolvedShape t = .object o → o.template = some u →
      (c.shape u).isOriginal = true ∧ c.metaclass? t = c.metaclass? u) ∧
    ((c.shape .pointer).isOriginal = true ∧
      ∀ t u, c.resolvedShape t = .pointer (some u) → c.metaclass? t = c.metaclass? .pointer) ∧
    (∀ t m, (c.shape t).isOriginal = true → c.metaclass? t = some m →
      c.parents m = (c.parents t).filterMap c.metaclass? ∧
      ∀ q q' : Query, q.name ≠ "new" → q'.name ≠ "new" →
        c.searchOrder m q = (c.searchOrder t q').filterMap c.metaclass? ∧
        ∀ u ∈ c.searchOrder t q', (c.shape u).isOriginal = true ∨
          c.metaclass? u = none ∧ (c.isMeta u = true ∨ c.tableOf u = none)) := by
  have hc := kindred_of_check h
  obtain ⟨hsound, hrelatives⟩ := relativesDeclared_of_check h
  have hnext : ∀ t m, (checked.catalog.shape t).isOriginal = true →
      checked.catalog.metaclass? t = some m → m = t.next := fun t m ht hm =>
    Option.some.inj (hm.symm.trans (hc.metaclass?_of_isOriginal ht))
  refine ⟨fun t ht => ?_, fun a t m ha ht hma hmt => ?_, fun a t ma mt ha ht hma hmt => ?_,
    fun t o u => hsound.metaclass?_of_object, ⟨by rw [hc.pointer]; rfl, fun t u =>
      hc.metaclass?_of_pointer⟩, fun t m ht hm => ?_⟩
  · obtain ⟨k, hk⟩ := hc.resolvedShape_next ht
    exact ⟨t.next, hc.metaclass?_of_isOriginal ht, by rw [isMeta, hk], by rw [Catalog.subject, hk]⟩
  · exact Ty.next_injective ((hnext a m ha hma).symm.trans (hnext t m ht hmt))
  · rw [hnext a ma ha hma, hnext t mt ht hmt]
    exact descendsFrom_next hc hrelatives ha ht
  · obtain rfl := hnext t m ht hm
    obtain ⟨horder, hmirror⟩ := ancestors_next hc hrelatives ht
    have hown := resolve_of_isDeclared (Shape.isDeclared_of_isOriginal ht)
    have hmeta : checked.catalog.resolve t.next = t.next := resolve_of_definite
      (definite_of_metaclass? hm)
    refine ⟨hc.parents_next ht, fun q q' hq hq' => ?_⟩
    rw [hrelatives.searchOrder_eq hq, hrelatives.searchOrder_eq hq', hown, hmeta]
    exact ⟨hmirror, fun u hu => hc.original_or_without_metaclass (horder u hu)⟩

section
open Sample

/-- A class that includes a module and has a subclass, a class below a constant, and a generic class
of which a value is made. -/
def branched : Expr := lines [
  .moduleDef mark "Named" (lines []),
  plainClass "Shelf" [.inclusion mark ["Named"]],
  setConstant "LIMIT" int,
  .classDef mark "Drawer" (some ["Shelf"]) false (lines []),
  .classDef mark "Odd" (some ["LIMIT"]) false (lines []),
  genericClass "Box" [method "initialize" [("x", none)] (setSlot "@value" (var "x"))],
  send (named "Box") "new" [int]]

end

theorem branched_searches : (settledRun branched ⟨100, 5, 8, 5⟩).any (fun (_, r) =>
    let c := r.finished.catalog
    ([⟨36⟩, ⟨41⟩, ⟨43⟩].all fun t => (c.shape t).isOriginal && c.metaclass? t == some t.next) &&
    c.descendsFrom ⟨41⟩ ⟨36⟩ && c.parents ⟨43⟩ == [⟨40⟩] && c.metaclass? ⟨40⟩ == none &&
    (c.searchOrder ⟨41⟩ ⟨"name", [], false, ⟨41⟩⟩).filterMap c.metaclass? ==
      [⟨42⟩, ⟨39⟩, ⟨37⟩, ⟨3⟩]) = true := by
  decide +kernel

/-- As the subclass `Drawer` comes from the module, its metaclass comes from that of the module. The
constant that a class is below has no metaclass, so there is none above that of the class. -/
theorem metaclasses_mirror_branched : ∃ checked, check branched ⟨100, 5, 8, 5⟩ = .ok checked ∧
    checked.catalog.descendsFrom ⟨42⟩ ⟨37⟩ = true ∧ checked.catalog.parents ⟨44⟩ = [] ∧
    checked.catalog.searchOrder ⟨42⟩ ⟨"name", [], false, ⟨42⟩⟩ = [⟨42⟩, ⟨39⟩, ⟨37⟩, ⟨3⟩] := by
  obtain ⟨⟨result, r⟩, hsettled, hall⟩ := Option.any_eq_true _ _ |>.mp branched_searches
  simp only [Bool.and_eq_true, beq_iff_eq, List.all_cons, List.all_nil, and_true] at hall
  obtain ⟨⟨⟨⟨⟨⟨hmodule, hmodule'⟩, ⟨hdrawer, hdrawer'⟩, hodd, hodd'⟩, hdescends⟩, hparents⟩, hnone⟩,
    horder⟩ := hall
  have hcheck := check_eq_ok_iff.mpr ⟨result, r, hsettled, rfl⟩
  obtain ⟨-, -, hancestors, -, -, hsearch⟩ := metaclasses_mirror hcheck
  have hname : "name" ≠ "new" := by decide
  refine ⟨_, hcheck, ?_, ?_, ?_⟩
  · exact (hancestors ⟨36⟩ ⟨41⟩ ⟨37⟩ ⟨42⟩ hmodule hdrawer hmodule' hdrawer').trans hdescends
  · refine (hsearch ⟨43⟩ ⟨44⟩ hodd hodd').1.trans ?_
    show (r.finished.catalog.parents ⟨43⟩).filterMap r.finished.catalog.metaclass? = []
    rw [hparents, List.filterMap_cons_none hnone]
    rfl
  · exact ((hsearch ⟨41⟩ ⟨42⟩ hdrawer hdrawer').2 _ ⟨"name", [], false, ⟨41⟩⟩ hname hname).1.trans
      horder

end FlowTyping
