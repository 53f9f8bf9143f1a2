import FlowTyping.Proofs.Inference.Construction
import FlowTyping.Proofs.Inference.Generic

/-
  What generic values are made of

  A generic value is initialized as a value of a type of its own, whose instance
  variables then bind it. It ends with a specialization that has a slot for each
  of them that got a type (`values_furnished`). But the instance variables are
  collected as soon as the initializer has been typed. One that is assigned by a
  call that waits for a type, and is resolved only later, gets no slot
  (`values_unfurnished`).
-/
namespace FlowTyping

open Catalog Store

variable {program : Expr} {options : Options} {result n : Node} {r : Run} {site : Site}
  {arguments : List Ty}

/-- The value that a construction makes ends with a specialization of its class. Of the instance
variables that were assigned on the value's own type it has those which the definitions assign that
had been called by the time when the value got its type, as the run `r₀`. -/
def Run.Furnishes (r : Run) (site : Site) (arguments : List Ty) (n : Node) : Prop :=
  ∃ t own r₀ spec, r.BuiltAs site arguments n t own ∧ r.Furnished r₀ site arguments n t own ∧
    r.resolvedType n = some spec ∧ r.catalog.Specializes spec t ∧
    ∀ key m, r₀.results.get? key = some m → key.owner = own →
      ∀ name ∈ (r.catalog.method key.method).assigned key.arguments,
        ∃ d, r.slotNodes.get? (own, name) = some d ∧ r.HasSlot spec name d

/-- The value of a construction has a slot for each instance variable that was assigned by the time
when its initializer had been typed, with the final type of that variable. -/
theorem values_furnished (h : settledRun program options = some (result, r))
    (hn : r.constructions.get? (site, arguments) = some n) : r.Furnishes site arguments n := by
  obtain ⟨hr, hquiet⟩ := settledRun_ok h
  have hattuned := (settles_of_settledRun h).attuned
  obtain ⟨t, own, hb, r₀, hf⟩ := (hr.built _ n hn).resolve_right fun h => by cases h
  obtain ⟨_, p, hp, rfl, rfl, hnames, hobserved⟩ := hf.observed
  obtain ⟨last, q, spec, hends⟩ := hattuned.ends hr hquiet hp
  refine ⟨_, own, r₀, spec, hb, hf, hends.resolvedType, ?_, fun key m hm howner name hname => ?_⟩
  · have hspecializes := hattuned.specializes hquiet hends.shape hends.target
    rw [hends.template] at hspecializes
    exact hspecializes hb.template
  · -- the instance had a node for what it assigns, and the node binds the value
    rw [hf.before.method_eq] at hname
    obtain ⟨d, hd⟩ := hf.complete key m hm howner name hname
    rw [howner] at hd
    exact ⟨d, hf.before.slotNodes _ d hd, hattuned.hasSlot hquiet hends.shape hends.target
      (hends.observed.symm ▸ hnames) (hends.observed.symm ▸ (hobserved name d).mpr hd)⟩

section
open Sample

/-- A box whose initializer assigns one instance variable itself and has another one assigned. -/
def filledBox : Expr := lines [
  genericClass "Box" [
    method "initialize" [("x", none)] (lines [
      setSlot "@value" (var "x"),
      run "fill" [var "x"]]),
    method "fill" [("y", none)] (setSlot "@more" (var "y"))],
  send (named "Box") "new" [int]]

end

theorem filledBox_constructs : (settledRun filledBox ⟨100, 5, 8, 5⟩).any (fun (_, r) =>
    (r.constructions.get? (⟨0⟩, [.int])).isSome) = true := by
  decide +kernel

/-- A box has the instance variables that its initializer assigns. -/
theorem values_furnished_filled : ∃ result r n,
    settledRun filledBox ⟨100, 5, 8, 5⟩ = some (result, r) ∧
      r.constructions.get? (⟨0⟩, [.int]) = some n ∧ r.Furnishes ⟨0⟩ [.int] n := by
  obtain ⟨⟨result, r⟩, hsettled, hsome⟩ := Option.any_eq_true _ _ |>.mp filledBox_constructs
  obtain ⟨n, hn⟩ := Option.isSome_iff_exists.mp hsome
  exact ⟨result, r, n, hsettled, hn, values_furnished hsettled hn⟩

/-! ## Instance variables that are left out -/

namespace Run

/-- Whether an instance on `own` assigns an instance variable that has a type but is no slot of
`spec`. -/
def lacks (r : Run) (own spec : Ty) : Bool :=
  r.results.keys.any fun key =>
    (r.results.get? key).isSome && key.owner == own &&
    ((r.catalog.method key.method).assigned key.arguments).any fun name =>
      ((r.slotNodes.get? (own, name)).bind r.graph.typeAt).isSome &&
      (r.catalog.slot? spec name).isNone

/-- Whether the value of a construction can have been initialized as a value of type `own`. -/
def mayOwn (r : Run) (site : Site) (arguments : List Ty) (own : Ty) : Bool :=
  match r.catalog.shape own, r.catalog.select own ((r.site site).initializing own arguments) with
  | .object o, .ok id =>
    o.template.isSome && (r.results.get? ((r.site site).invocation site own id arguments)).isSome
  | .object o, .error _ => o.template.isSome
  | _, _ => false

theorem mayOwn_of_builtAs {t own : Ty} (h : r.BuiltAs site arguments n t own) :
    r.mayOwn site arguments own = true := by
  obtain ⟨o, ho, htemplate⟩ := h.copy
  unfold mayOwn
  rw [ho]
  cases hselect : r.catalog.select own ((r.site site).initializing own arguments) with
  | ok id =>
    obtain ⟨m, hm⟩ := h.initialized.done id hselect
    simp [htemplate, hm]
  | error miss => simp [htemplate]

end Run

section
open Sample

/-- A box whose initializer has an instance variable assigned from something that gets its type
later. -/
def boxFilledLate : Expr := lines [
  genericClass "Box" [
    method "initialize" [("x", none)] (lines [
      setSlot "@value" (var "x"),
      run "fill" [run "late" []]]),
    method "fill" [("y", none)] (setSlot "@more" (var "y"))],
  method "late" [] (slot "@late"),
  setVar "box" (send (named "Box") "new" [int]),
  setSlot "@late" double,
  var "box"]

end

theorem boxFilledLate_lacks : (settledRun boxFilledLate ⟨100, 5, 8, 5⟩).any (fun (_, r) =>
    (r.constructions.get? (⟨0⟩, [.int])).any fun n => (r.resolvedType n).any fun spec =>
      (List.range r.catalog.size).all fun i =>
        !r.mayOwn ⟨0⟩ [.int] ⟨i⟩ || r.lacks ⟨i⟩ spec) = true := by
  decide +kernel

/-- The value of a construction need not have all instance variables that are assigned on it. -/
theorem values_unfurnished :
    ¬ ∀ program options result r, settledRun program options = some (result, r) →
      ∀ site arguments n, r.constructions.get? (site, arguments) = some n →
        ∃ t own spec, r.BuiltAs site arguments n t own ∧ r.resolvedType n = some spec ∧
          ∀ key m, r.results.get? key = some m → key.owner = own →
            ∀ name ∈ (r.catalog.method key.method).assigned key.arguments,
              ∀ d u, r.slotNodes.get? (own, name) = some d → r.graph.typeAt d = some u →
                ∃ v, r.catalog.slot? spec name = some v := by
  intro hall
  obtain ⟨⟨result, r⟩, hsettled, hany⟩ := Option.any_eq_true _ _ |>.mp boxFilledLate_lacks
  obtain ⟨n, hn, hany⟩ := Option.any_eq_true _ _ |>.mp hany
  obtain ⟨spec, hspec, hlacks⟩ := Option.any_eq_true _ _ |>.mp hany
  obtain ⟨t, own, spec', hb, hspec', hslots⟩ := hall _ _ result r hsettled ⟨0⟩ [.int] n hn
  obtain rfl := Option.some.inj (hspec.symm.trans hspec')
  have hlacks := List.all_eq_true.mp hlacks own.index (List.mem_range.mpr hb.copy.definite.1)
  rw [Run.mayOwn_of_builtAs hb, Bool.not_true, Bool.false_or] at hlacks
  obtain ⟨key, -, hkey⟩ := List.any_eq_true.mp hlacks
  obtain ⟨hkey, hname⟩ := Bool.and_eq_true_iff.mp hkey
  obtain ⟨hkey, howner⟩ := Bool.and_eq_true_iff.mp hkey
  obtain ⟨name, hassigned, hname⟩ := List.any_eq_true.mp hname
  obtain ⟨htyped, hmissing⟩ := Bool.and_eq_true_iff.mp hname
  obtain ⟨m, hm⟩ := Option.isSome_iff_exists.mp hkey
  obtain ⟨u, hu⟩ := Option.isSome_iff_exists.mp htyped
  obtain ⟨d, hd, hu⟩ := Option.bind_eq_some_iff.mp hu
  obtain ⟨v, hv⟩ := hslots key m hm (beq_iff_eq.mp howner) name hassigned d u hd hu
  rw [hv] at hmissing
  cases hmissing

end FlowTyping
