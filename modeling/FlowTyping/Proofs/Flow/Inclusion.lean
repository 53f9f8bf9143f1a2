import FlowTyping.Inference.Declare
import FlowTyping.Proofs.Flow.Restriction
import FlowTyping.Proofs.Steps

/-
  What an inclusion does

  An inclusion writes to one class table. All types that take their parents from
  that table get the included type as a parent, behind those that were included
  before and in front of the superclass; other types keep their parents, apart
  from metaclasses, which mirror those of their instances. What is included again
  changes nothing, and an inclusion that fails does not either
  (`inclusion_effect`).

  Records and metaclasses have a class table too, but take no parents from it. An
  inclusion into one of them succeeds and is never seen again
  (`inclusion_unseen`).
-/
namespace FlowTyping

open Relation

/-- A class table with another type among its includes. -/
def ClassTable.including (table : ClassTable) (included : Ty) : ClassTable :=
  if table.includes.contains included then table
  else { table with includes := table.includes ++ [included] }

theorem ClassTable.relatives_including (table : ClassTable) (included : Ty) :
    (table.including included).relatives =
      (if included ∈ table.includes then table.includes else table.includes ++ [included]) ++
        table.superclass.toList := by
  unfold including relatives
  by_cases h : included ∈ table.includes
  · rw [if_pos (by simpa using h), if_pos h]
  · rw [if_neg (by simpa using h), if_neg h]

theorem ClassTable.including_again (table : ClassTable) (included : Ty) :
    (table.including included).including included = table.including included := by
  unfold including
  by_cases h : table.includes.contains included = true
  · rw [if_pos h, if_pos h]
  · rw [if_neg h, if_pos (by simp)]

namespace Catalog

variable {c c' : Catalog} {t u included : Ty} {k : ClassHandle}

/-! ## What is read off the entries alone -/

section Entries

variable (h : c'.shapes = c.shapes)

include h

/-- Parents depend on the relatives in the class table alone. -/
theorem declaredParents_of_tables_eq (htables : ∀ k, c.cls? t = some k →
    (c.resolvedShape t).hasParents = true →
      (c'.classTable k).relatives = (c.classTable k).relatives) :
    c'.declaredParents t = c.declaredParents t := by
  rw [declaredParents_eq_if, declaredParents_eq_if, resolvedShape_of_shapes_eq h, tableOf, tableOf,
    cls?_of_shapes_eq h]
  cases hk : c.cls? t with
  | none => rfl
  | some k =>
    cases hp : (c.resolvedShape t).hasParents with
    | false => rfl
    | true => exact htables k hk hp

/-- Types other than metaclasses keep their parents if they keep those by declaration. -/
theorem parents_of_declared (hmeta : c.isMeta t = false)
    (hdeclared : c'.declaredParents t = c.declaredParents t) : c'.parents t = c.parents t := by
  unfold isMeta at hmeta
  unfold parents
  rw [resolvedShape_of_shapes_eq h]
  cases hs : c.resolvedShape t with
  | metaclass => rw [hs] at hmeta; cases hmeta
  | _ => exact hdeclared

/-- All parents stay if all parents by declaration do. -/
theorem parents_of_all_declared (hdeclared : ∀ t, c'.declaredParents t = c.declaredParents t)
    (t : Ty) : c'.parents t = c.parents t := by
  have hmeta : c'.metaclass? = c.metaclass? := funext (metaclass?_of_shapes_eq h)
  unfold parents
  rw [resolvedShape_of_shapes_eq h, hmeta]
  simp only [hdeclared]

end Entries

/-- The parents of a metaclass are metaclasses. -/
theorem isMeta_of_mem_parents (ht : c.isMeta t = true) (hu : u ∈ c.parents t) :
    c.isMeta u = true := by
  unfold isMeta at ht
  unfold parents at hu
  cases hs : c.resolvedShape t with
  | metaclass k v =>
    rw [hs] at hu
    obtain ⟨p, -, hp⟩ := List.mem_filterMap.mp hu
    obtain ⟨l, hl⟩ := metaclass?_spec hp
    unfold isMeta resolvedShape
    rw [resolve_of_definite (definite_of_metaclass? hp), hl]
  | _ => rw [hs] at ht; cases ht

/-! ## One inclusion -/

/-- An inclusion that is not refused changes one class table. -/
theorem Kindred.includeMixin_changes (hc : c.Kindred) (h : c.includeMixin t included = .ok c') :
    ∃ k, c.cls? t = some k ∧ c'.shapes = c.shapes ∧
      ∀ l, c'.classTable l = if l = k then (c.classTable k).including included else c.classTable l := by
  obtain ⟨-, k, hk, rfl⟩ := Layered.includeMixin_ok h
  refine ⟨k, hk, rfl, fun l => ?_⟩
  rw [classTable_modifyClass]
  by_cases hl : l = k
  · subst hl
    rw [if_pos ⟨rfl, hc.tables (c.resolve t) l hk⟩, if_pos rfl]
    rfl
  · rw [if_neg fun h => hl h.1, if_neg hl]

section Inclusion

variable (hc : c.Kindred) (h : c.includeMixin t included = .ok c')

include hc h

/-- Types with other class tables keep their parents. -/
theorem declaredParents_inclusion_other (hu : c.sameClass t u = false) :
    c'.declaredParents u = c.declaredParents u := by
  obtain ⟨k, hk, hshapes, htables⟩ := hc.includeMixin_changes h
  refine declaredParents_of_tables_eq hshapes fun l hl _ => ?_
  rw [htables, if_neg fun heq => ?_]
  rw [sameClass_iff.mpr ⟨k, hk, heq ▸ hl⟩] at hu
  cases hu

/-- Where the type takes parents from its class table, all types with that table get the included
type as a parent. -/
theorem parents_inclusion_same (hhas : (c.resolvedShape t).hasParents = true) (hk : c.cls? t = some k)
    (hu : c.cls? u = some k) : c.parents u = (c.classTable k).relatives ∧
      c'.parents u = ((c.classTable k).including included).relatives := by
  obtain ⟨l, hl, hshapes, htables⟩ := hc.includeMixin_changes h
  obtain rfl : l = k := Option.some.inj (hl.symm.trans hk)
  have huhas : (c.resolvedShape u).hasParents = true := by
    rcases hc.shared_of_cls? hu hk with heq | ⟨huhas, -⟩
    · rw [resolvedShape, heq]
      exact hhas
    · exact huhas
  refine ⟨parents_of_hasParents huhas hu, ?_⟩
  rw [parents_of_hasParents (resolvedShape_of_shapes_eq hshapes u ▸ huhas)
    ((cls?_of_shapes_eq hshapes u).trans hu), htables, if_pos rfl]

/-- Where it does not, as with a record or a metaclass, nothing gets another parent. -/
theorem parents_inclusion_unseen (hhas : (c.resolvedShape t).hasParents = false) (u : Ty) :
    c'.parents u = c.parents u := by
  obtain ⟨k, hk, hshapes, htables⟩ := hc.includeMixin_changes h
  refine parents_of_all_declared hshapes (fun v => ?_) u
  refine declaredParents_of_tables_eq hshapes fun l hl hv => ?_
  rw [htables, if_neg]
  rintro rfl
  rcases hc.shared_of_cls? hl hk with heq | ⟨-, hthas⟩
  · rw [resolvedShape, heq] at hv
    cases hhas.symm.trans hv
  · cases hhas.symm.trans hthas

/-- What the included type leads to afterwards it led to before, or it is a metaclass. -/
theorem reaches_inclusion (hgrounded : c.Grounded) (hhas : (c.resolvedShape t).hasParents = true)
    (hreach : Reaches c'.parents (c.resolve included) u) :
    c.isMeta u = true ∨ u = included ∨ Reaches c.parents (c.resolve included) u := by
  obtain ⟨k, hk, hshapes, -⟩ := hc.includeMixin_changes h
  induction hreach with
  | refl => exact .inr (.inr .refl)
  | @tail v u _ hu ih =>
    -- a type that is no metaclass gets no new parent but the included type
    have hstep : c.isMeta v = false → u ∈ c.parents v ∨ u = included := by
      intro hv
      cases hsame : c.sameClass t v with
      | false =>
        have hkept := parents_of_declared hshapes hv (declaredParents_inclusion_other hc h hsame)
        have hu : u ∈ c'.parents v := hu
        exact .inl (hkept ▸ hu)
      | true =>
        obtain ⟨l, hl, hlv⟩ := sameClass_iff.mp hsame
        obtain ⟨hold, hnew⟩ := parents_inclusion_same hc h hhas hl hlv
        have hu : u ∈ c'.parents v := hu
        rw [hnew, ClassTable.relatives_including] at hu
        rw [hold]
        split at hu
        · exact .inl hu
        · simp only [ClassTable.relatives, List.mem_append, List.mem_singleton] at hu ⊢
          rcases hu with (hu | hu) | hu
          · exact .inl (.inl hu)
          · exact .inr hu
          · exact .inl (.inr hu)
    cases hv : c.isMeta v with
    | true =>
      have hmeta := isMeta_of_mem_parents ((isMeta_of_shapes_eq hshapes v).trans hv) hu
      exact .inl ((isMeta_of_shapes_eq hshapes u).symm.trans hmeta)
    | false =>
      rcases hstep hv with hu | hu
      · rcases ih with hmeta | rfl | hreach
        · cases hv.symm.trans hmeta
        · -- the included type has the parents of what it stands for
          rw [← Coincide.parents (hgrounded.resolve_idem v)] at hu
          exact .inr (.inr (.single hu))
        · exact .inr (.inr (hreach.tail hu))
      · exact .inr (.inl hu)

/-- What is included is not among the ancestors of the included type afterwards either. -/
theorem descendsFrom_inclusion (hgrounded : c.Grounded) : c'.descendsFrom included t = false := by
  obtain ⟨k, hk, hshapes, -⟩ := hc.includeMixin_changes h
  have hrefused := (Layered.includeMixin_ok h).1
  have hnot : ¬ Reaches c.parents (c.resolve included) (c.resolve t) := fun hreach => by
    rw [hc.descendsFrom_iff.mpr hreach] at hrefused
    cases hrefused
  refine Bool.eq_false_iff.mpr fun hdescends => ?_
  obtain ⟨start, hstart, hreach⟩ := reaches_of_mem_preorder (List.contains_iff_mem.mp hdescends)
  obtain rfl := List.mem_singleton.mp hstart
  rw [resolve_of_shapes_eq hshapes, resolve_of_shapes_eq hshapes] at hreach
  cases hhas : (c.resolvedShape t).hasParents with
  | false =>
    have hparents : c'.parents = c.parents := funext (parents_inclusion_unseen hc h hhas)
    exact hnot (hparents ▸ hreach)
  | true =>
    have hidem := hgrounded.resolve_idem t
    rcases reaches_inclusion hc h hgrounded hhas hreach with hmeta | heq | hreach
    · unfold isMeta resolvedShape at hmeta
      rw [hidem] at hmeta
      cases hs : c.resolvedShape t with
      | metaclass => rw [hs] at hhas; cases hhas
      | _ =>
        rw [show c.shape (c.resolve t) = _ from hs] at hmeta
        cases hmeta
    · have hsame : c.resolve included = c.resolve t := heq ▸ hidem
      exact hnot (hsame ▸ .refl)
    · exact hnot hreach

/-- What is included again is not refused, and changes nothing. -/
theorem includeMixin_again (hgrounded : c.Grounded) : c'.includeMixin t included = .ok c' := by
  have hrefused := descendsFrom_inclusion hc h hgrounded
  obtain ⟨-, k, hk, hc'⟩ := Layered.includeMixin_ok h
  have hshapes : c'.shapes = c.shapes := by
    rw [hc']
    rfl
  have hk' : c'.cls? t = some k := (cls?_of_shapes_eq hshapes t).trans hk
  have hclasses : c'.classes = c.classes.modify k.index (·.including included) := by
    rw [hc']
    rfl
  have hagain : c'.classes.modify k.index (·.including included) = c'.classes := by
    rw [hclasses]
    refine Array.ext_getElem? fun i => ?_
    rw [Array.getElem?_modify, Array.getElem?_modify]
    split
    · rw [Option.map_map]
      refine congrArg (Option.map · _) (funext fun table => ?_)
      exact table.including_again included
    · rfl
  have hsame : (c'.modifyClass k fun table =>
      if table.includes.contains included then table
      else { table with includes := table.includes ++ [included] }) = c' :=
    congrArg (fun classes => { c' with classes := classes }) hagain
  unfold includeMixin
  rw [hrefused, if_neg Bool.false_ne_true, hk']
  exact congrArg Except.ok hsame

end Inclusion

/-! ## Inclusions that are refused -/

theorem perform_refused {e : TypingError} (h : c.includeMixin t included = .error e) :
    c.perform (.inclusion t included) = c := by
  rw [perform, h]
  rfl

end Catalog

open Catalog Steps

/-- An inclusion of a program that is refused, for whatever reason, leaves the catalog as it is. -/
theorem DeclareM.enterInclusion_error {scope : Ty} {path : List String} {place : Place}
    {e : TypingError} {c c' : Catalog}
    (h : DeclareM.enterInclusion scope path place c = .error e c') : c' = c := by
  rw [show DeclareM.enterInclusion scope path place c = _ from get_bind_eq] at h
  cases hincluded : includedModule c path scope place with
  | error _ =>
    rw [hincluded] at h
    cases h
    rfl
  | ok included =>
    have hread : DeclareM.ofExcept (.ok included) c = .ok included c := rfl
    rw [hincluded, Steps.bind_eq, hread] at h
    dsimp only at h
    rw [get_bind_eq] at h
    cases hmixin : c.includeMixin scope included with
    | error _ =>
      rw [hmixin] at h
      cases h
      rfl
    | ok _ =>
      rw [hmixin] at h
      cases h

namespace Store

/-- If an inclusion into a type that takes its parents from its class table succeeds, the included
type is afterwards a parent of all types with that table: behind those that were included before,
which stay in their order, and in front of the superclass. Types with other tables keep their
parents, unless they are metaclasses, and the same inclusion made again changes nothing. An inclusion
into any other type that succeeds leaves all parents as they are. One that fails leaves the catalog
as it is. -/
theorem inclusion_effect {s : Store} (hs : s.Moved) (t included : Ty) :
    let c := s.catalog
    (∀ c', c.includeMixin t included = .ok c' →
      ((c.resolvedShape t).hasParents = true → ∃ table, c.tableOf t = some table ∧
        ∀ u, c.sameClass t u = true →
          c.parents u = table.includes ++ table.superclass.toList ∧
          c'.parents u =
            (if included ∈ table.includes then table.includes else table.includes ++ [included]) ++
              table.superclass.toList) ∧
      ((c.resolvedShape t).hasParents = false → ∀ u, c'.parents u = c.parents u) ∧
      (∀ u, c.sameClass t u = false → c.isMeta u = false → c'.parents u = c.parents u) ∧
      c'.includeMixin t included = .ok c') ∧
    (∀ e, c.includeMixin t included = .error e → c.perform (.inclusion t included) = c) ∧
    ∀ scope path place e c', DeclareM.enterInclusion scope path place c = .error e c' → c' = c := by
  have hc := hs.kindred
  have hgrounded := hs.started.orderly.catalog.canonical.grounded
  refine ⟨fun c' h => ⟨fun hhas => ?_, parents_inclusion_unseen hc h, fun u hu hmeta => ?_,
    includeMixin_again hc h hgrounded⟩, fun e => perform_refused,
    fun scope path place e c' => DeclareM.enterInclusion_error⟩
  · obtain ⟨k, hk, -, -⟩ := hc.includeMixin_changes h
    refine ⟨s.catalog.classTable k, by rw [tableOf, hk]; rfl, fun u hu => ?_⟩
    obtain ⟨l, hl, hlu⟩ := sameClass_iff.mp hu
    obtain rfl : l = k := Option.some.inj (hl.symm.trans hk)
    obtain ⟨hold, hnew⟩ := parents_inclusion_same hc h hhas hk hlu
    exact ⟨hold, hnew.trans (ClassTable.relatives_including _ _)⟩
  · obtain ⟨-, -, hshapes, -⟩ := hc.includeMixin_changes h
    exact parents_of_declared hshapes hmeta (declaredParents_inclusion_other hc h hu)

/-- Two modules, and a class that includes the first. -/
def equipped : Catalog :=
  seeded.performAll [.mixin "First" (some .main), .mixin "Second" (some .main),
    .object "Thing" (some .object) .main false, .inclusion ⟨40⟩ ⟨36⟩]

/-- The second module comes behind the first one and in front of `Object`. -/
theorem inclusion_effect_second : Moved ⟨equipped, .empty 0⟩ ∧
    ∃ c', equipped.includeMixin ⟨40⟩ ⟨38⟩ = .ok c' ∧ c'.parents ⟨40⟩ = [⟨36⟩, ⟨38⟩, .object] ∧
      c'.includeMixin ⟨40⟩ ⟨38⟩ = .ok c' := by
  have hknown : seeded.KnowsAll [.mixin "First" (some .main), .mixin "Second" (some .main),
      .object "Thing" (some .object) .main false, .inclusion ⟨40⟩ ⟨36⟩] ∧
      (equipped.includeMixin ⟨40⟩ ⟨38⟩).toOption.isSome = true ∧
      (equipped.resolvedShape ⟨40⟩).hasParents = true ∧ equipped.sameClass ⟨40⟩ ⟨40⟩ = true ∧
      (equipped.tableOf ⟨40⟩).map (fun table => (table.includes, table.superclass)) =
        some ([⟨36⟩], some .object) := by decide +kernel
  obtain ⟨hknown, hsome, hhas, hsame, htable⟩ := hknown
  have hmoved : Moved ⟨equipped, .empty 0⟩ := (Moved.start 0).requests hknown
  have heffect := (inclusion_effect hmoved ⟨40⟩ ⟨38⟩).1
  dsimp only at heffect
  generalize equipped = c at *
  cases h : c.includeMixin ⟨40⟩ ⟨38⟩ with
  | error e => rw [h] at hsome; cases hsome
  | ok c' =>
    obtain ⟨hparents, -, -, hagain⟩ := heffect c' h
    obtain ⟨table, heq, hall⟩ := hparents hhas
    rw [heq] at htable
    obtain ⟨hincludes, hsuper⟩ := Prod.ext_iff.mp (Option.some.inj htable)
    have hincludes : table.includes = [⟨36⟩] := hincludes
    have hsuper : table.superclass = some .object := hsuper
    refine ⟨hmoved, c', rfl, ?_, hagain⟩
    rw [(hall _ hsame).2, hincludes, hsuper]
    rfl

/-- A module and a record. -/
def recorded : Catalog :=
  seeded.performAll [.mixin "Named" (some .main), .record "Point" [("x", .int)] .main]

/-- Neither the record nor the metaclass of `Object` has the module among its parents, after an
inclusion that is not refused. -/
theorem inclusion_unseen : Moved ⟨recorded, .empty 0⟩ ∧
    (∃ c', recorded.includeMixin ⟨38⟩ ⟨36⟩ = .ok c' ∧ ⟨36⟩ ∉ c'.parents ⟨38⟩) ∧
    ∃ c', recorded.includeMixin Ty.object.next ⟨36⟩ = .ok c' ∧ ⟨36⟩ ∉ c'.parents Ty.object.next := by
  have hcomputed : seeded.KnowsAll [.mixin "Named" (some .main), .record "Point" [("x", .int)] .main] ∧
      ∀ t ∈ [⟨38⟩, Ty.object.next], ∃ c' ∈ (recorded.includeMixin t ⟨36⟩).toOption,
        ⟨36⟩ ∉ c'.parents t := by decide +kernel
  have hunseen : ∀ t ∈ [⟨38⟩, Ty.object.next], ∃ c', recorded.includeMixin t ⟨36⟩ = .ok c' ∧
      ⟨36⟩ ∉ c'.parents t := by
    intro t ht
    obtain ⟨c', hc', hnot⟩ := hcomputed.2 t ht
    refine ⟨c', ?_, hnot⟩
    generalize recorded.includeMixin t ⟨36⟩ = result at hc'
    cases result with
    | error e => cases hc'
    | ok made => exact congrArg Except.ok (Option.some.inj hc')
  exact ⟨(Moved.start 0).requests hcomputed.1, hunseen _ List.mem_cons_self,
    hunseen _ (List.mem_cons_of_mem _ List.mem_cons_self)⟩

end Store

end FlowTyping
