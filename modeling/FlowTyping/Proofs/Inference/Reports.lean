import FlowTyping.Proofs.Inference.Slots

/-
  What a check reports

  A check reports the types of the expressions outside methods, of the program
  and of the results of the method instances. While a program is typed, nodes
  have provisional types, and new entries are made for what nodes hold. Whatever
  is stored in a catalog is definite all the same (`Catalog.Sound`), and in the
  end nodes get the types they stand for. So no provisional type is reported, and
  none is found from what is reported or from the root (`reports_definite`).
-/
namespace FlowTyping

open Relation

namespace Catalog

variable {c : Catalog} {t u : Ty}

/-- The owners, restrictions and result types of the methods in a class table. -/
def methodTypes (c : Catalog) (table : ClassTable) : List Ty :=
  table.methods.entries.flatMap fun entry =>
    entry.2.entries.flatMap fun overload => (c.method overload.2).types

/-- The types that can be read off an entry: from its shape, its class table and the methods there.
Those are members, pointees, slots, fields, templates, subjects of metaclasses, containers,
superclasses, includes, nested types and what methods are restricted to. -/
def mentions (c : Catalog) (t : Ty) : List Ty :=
  (c.shape t).types ++ (c.shape t).cls?.toList.flatMap fun k =>
    (c.classTable k).mentioned ++ c.methodTypes (c.classTable k)

/-- `u` is found from `t` by reading entries one after the other. -/
def Reaches (c : Catalog) : Ty → Ty → Prop := ReflTransGen fun t u => u ∈ c.mentions t

theorem Sound.definite_of_mentioned (hc : c.Sound) (hu : u ∈ c.mentions t) : c.Definite u := by
  rcases List.mem_append.mp hu with hu | hu
  · exact hc.shapes t u hu
  · obtain ⟨k, -, hu⟩ := List.mem_flatMap.mp hu
    rcases List.mem_append.mp hu with hu | hu
    · exact hc.classes k u hu
    · obtain ⟨entry, -, hu⟩ := List.mem_flatMap.mp hu
      obtain ⟨overload, -, hu⟩ := List.mem_flatMap.mp hu
      exact hc.methods overload.2 u hu

/-- From a definite type of a sound catalog only definite types are found. -/
theorem Sound.definite_of_reaches (hc : c.Sound) (ht : c.Definite t) (h : c.Reaches t u) :
    c.Definite u := by
  rcases ReflTransGen.cases_tail h with rfl | ⟨v, -, hu⟩
  · exact ht
  · exact hc.definite_of_mentioned hu

end Catalog

/-- All types that a check reports. -/
def Checked.reported (checked : Checked) : List Ty :=
  checked.types.map (·.2) ++ checked.result.toList ++
    checked.instances.flatMap (·.result.toList)

variable {program : Expr} {options : Options} {checked : Checked} {result : Node} {r : Run}
  {due : List Task} {t u : Ty}

/-- What is reported is what some node of the run ends with. -/
theorem exists_resolvedType (ht : t ∈ (r.checked options result).reported) :
    ∃ n, r.resolvedType n = some t := by
  rcases List.mem_append.mp ht with ht | ht
  · rcases List.mem_append.mp ht with ht | ht
    · obtain ⟨⟨id, u⟩, hentry, rfl⟩ := List.mem_map.mp ht
      obtain ⟨⟨id', n⟩, -, hu⟩ := List.mem_filterMap.mp hentry
      obtain ⟨v, hv, heq⟩ := Option.map_eq_some_iff.mp hu
      cases heq
      exact ⟨n, hv⟩
    · exact ⟨result, Option.mem_toList.mp ht⟩
  · obtain ⟨found, hfound, ht⟩ := List.mem_flatMap.mp ht
    obtain ⟨i, -, rfl⟩ := List.mem_map.mp hfound
    exact ⟨i.result, Option.mem_toList.mp ht⟩

/-- The types of the nodes of a finished run are definite. -/
theorem Run.Sound.definite_finished (hr : r.Sound due) {n : Node}
    (ht : r.finished.resolvedType n = some t) : r.finished.catalog.Definite t := by
  obtain ⟨v, hv, rfl⟩ := Option.map_eq_some_iff.mp ht
  have htyped : r.resolvedType n = some v := (Run.typeAt_collapseAll r n).symm.trans hv
  exact hr.finished.1.resolve (hr.finished.2.toGrows.definite (hr.definite_resolvedType htyped)).1

/-- No provisional type is reported by a check or found from what it reports or from the root
namespace. -/
theorem reports_definite (h : check program options = .ok checked)
    (ht : t ∈ checked.reported ∨ t = .main) (hu : checked.catalog.Reaches t u) :
    checked.catalog.Definite u := by
  obtain ⟨result, r, hsettled, rfl⟩ := check_eq_ok_iff.mp h
  obtain ⟨hr, -⟩ := settledRun_ok hsettled
  refine hr.finished.1.definite_of_reaches ?_ hu
  rcases ht with ht | rfl
  · obtain ⟨n, hn⟩ := exists_resolvedType ht
    exact hr.definite_finished hn
  · exact hr.finished.1.builtin (by decide)

section
open Sample

/-- A list whose element gets a second type once the list has been made. -/
def relisted : Expr := lines [
  setVar "given" int,
  setVar "values" (list [var "given"]),
  setVar "given" double,
  var "values"]

end

theorem relisted_reports : (settledRun relisted ⟨100, 5, 8, 5⟩).any (fun (n, r) =>
    (List.range r.finished.catalog.size).any (fun i => r.finished.catalog.isSuperseded ⟨i⟩) &&
      ((r.finished.checked ⟨100, 5, 8, 5⟩ n).result.any fun t =>
        (r.finished.catalog.mentions t).any fun p => (r.finished.catalog.mentions p).any fun u =>
          (r.finished.catalog.shape u).isUnion)) = true := by
  decide +kernel

/-- A superseded type is left in the catalog. From the type of the list, the union that its buffer
points to is found. -/
theorem reports_definite_relisted : ∃ checked t u v,
    check relisted ⟨100, 5, 8, 5⟩ = .ok checked ∧ checked.catalog.isSuperseded v = true ∧
      t ∈ checked.reported ∧ (checked.catalog.shape u).isUnion = true ∧
      checked.catalog.Reaches t u ∧ checked.catalog.Definite u := by
  obtain ⟨⟨n, r⟩, hsettled, hany⟩ := Option.any_eq_true _ _ |>.mp relisted_reports
  obtain ⟨hsuperseded, hresult⟩ := Bool.and_eq_true_iff.mp hany
  obtain ⟨i, -, hi⟩ := List.any_eq_true.mp hsuperseded
  obtain ⟨t, ht, hany⟩ := Option.any_eq_true _ _ |>.mp hresult
  obtain ⟨p, hp, hany⟩ := List.any_eq_true.mp hany
  obtain ⟨u, hu, hunion⟩ := List.any_eq_true.mp hany
  have hcheck : check relisted ⟨100, 5, 8, 5⟩ = .ok (r.finished.checked ⟨100, 5, 8, 5⟩ n) :=
    check_eq_ok_iff.mpr ⟨n, r, hsettled, rfl⟩
  have hreported : t ∈ (r.finished.checked ⟨100, 5, 8, 5⟩ n).reported :=
    List.mem_append_left _ (List.mem_append_right _ (Option.mem_toList.mpr ht))
  have hreaches : r.finished.catalog.Reaches t u :=
    .tail (.single hp) hu
  exact ⟨_, t, u, ⟨i⟩, hcheck, hi, hreported, hunion, hreaches,
    reports_definite hcheck (.inl hreported) hreaches⟩

end FlowTyping
