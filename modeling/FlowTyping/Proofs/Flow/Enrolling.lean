import FlowTyping.Proofs.Catalog.Bindings
import FlowTyping.Proofs.Catalog.Renumbering
import FlowTyping.Proofs.Flow.Requests

/-
  The index of methods

  Whatever is done in a session, the methods of a catalog and of its class tables
  change by declarations alone, one after the other (`Store.Session.enrolls`). So
  what a declaration keeps holds of every store that a session leads to: the
  definitions of a table stand under keys of theirs, and no two of them under the
  same one (`Store.Started.indexed`).
-/
namespace FlowTyping

open Relation Steps

namespace Catalog

variable {c c' : Catalog} {k : ClassHandle} {name : String}

/-! ## Operations that declare methods -/

/-- A method is declared, or the class tables keep the methods that they have. -/
inductive Enrollment (c : Catalog) : Catalog → Prop
  | method (m : Method) : Enrollment c (c.defineMethod m).2
  | other {c' : Catalog} (hmethods : c'.methods = c.methods)
      (htables : ∀ k, (c'.classTable k).methods = (c.classTable k).methods) : Enrollment c c'

/-- Methods are declared, in any number and order. -/
def Enrolls : Catalog → Catalog → Prop := ReflTransGen Enrollment

namespace Enrolls

theorem refl (c : Catalog) : c.Enrolls c := ReflTransGen.refl

theorem trans {d : Catalog} (h : c.Enrolls c') (h' : c'.Enrolls d) : c.Enrolls d :=
  ReflTransGen.trans h h'

theorem defineMethod (c : Catalog) (m : Method) : c.Enrolls (c.defineMethod m).2 :=
  .single (.method m)

theorem of_eq (hmethods : c'.methods = c.methods) (hclasses : c'.classes = c.classes) :
    c.Enrolls c' := by
  refine .single (.other hmethods fun k => ?_)
  unfold classTable
  rw [hclasses]

theorem pushClass (c : Catalog) (table : ClassTable) (htable : table.methods = .empty) :
    c.Enrolls { c with classes := c.classes.push table } := by
  refine .single (.other rfl fun k => ?_)
  rw [Sound.classTable_push]
  split
  · next hk =>
    -- a class table that was never entered reads as one without methods
    unfold classTable
    rw [htable, hk, Array.getElem?_eq_none (Nat.le_refl _)]
    rfl
  · rfl

theorem modifyClass (c : Catalog) (k : ClassHandle) {f : ClassTable → ClassTable}
    (hf : ∀ table, (f table).methods = table.methods) : c.Enrolls (c.modifyClass k f) := by
  refine .single (.other rfl fun l => ?_)
  rw [classTable_modifyClass]
  split
  · exact hf _
  · rfl

theorem enterName (c : Catalog) (scope : Ty) (name : String) (t : Ty) :
    c.Enrolls (c.enterName scope name t) := by
  unfold Catalog.enterName
  split
  · exact modifyClass c _ fun _ => rfl
  · exact refl c

theorem enterType (c : Catalog) {table : ClassTable} (shape : ClassHandle → Shape)
    (htable : table.methods = .empty) : c.Enrolls (c.enterType table shape) := by
  have hpushed : c.Enrolls (c.push (shape ⟨c.classes.size⟩)).2 := of_eq rfl rfl
  have hadded := hpushed.trans (pushClass _ table htable)
  unfold Catalog.enterType
  split
  · exact hadded.trans (enterName _ _ _ _)
  · exact hadded

theorem enterMetaclass (c : Catalog) (t : Ty) (name : String) (container : Option Ty) :
    c.Enrolls (c.enterMetaclass t name container) := by
  have hpushed : c.Enrolls (c.push (.metaclass ⟨c.classes.size⟩ t)).2 := of_eq rfl rfl
  have hadded := hpushed.trans (pushClass _ (.bare (name ++ ":Class") container none) rfl)
  exact hadded.trans ((defineMethod _ _).trans (defineMethod _ _))

theorem newClassLike (c : Catalog) (name : String) (container superclass : Option Ty)
    (shape : ClassHandle → Shape) : c.Enrolls (c.newClassLike name container superclass shape).2 :=
  (enterType c shape rfl).trans (enterMetaclass _ _ _ _)

theorem defineFields (fields : List (String × Ty)) (c : Catalog) (t : Ty) :
    c.Enrolls (fields.foldl (defineField t) c) := by
  induction fields generalizing c with
  | nil => exact refl c
  | cons field fields ih => exact ((defineMethod _ _).trans (defineMethod _ _)).trans (ih _)

theorem specialize (c : Catalog) (template : Ty) (bindings : List (String × Ty)) :
    c.Enrolls (c.specialize template bindings).2 := by
  unfold Catalog.specialize
  split
  · exact of_eq rfl rfl
  · exact refl c

theorem instantiate {t target : Ty} {bindings : List (String × Ty)}
    (h : c.instantiate t bindings = .ok (target, c')) : c.Enrolls c' := by
  unfold Catalog.instantiate at h
  split at h
  · cases h
  · dsimp only at h
    split at h
    · cases h
      exact refl _
    · cases h
      exact (specialize c _ _).trans (of_eq rfl rfl)

theorem setSlot (c : Catalog) (t : Ty) (name : String) (u : Ty) :
    c.Enrolls (c.setSlot t name u) := by
  unfold Catalog.setSlot
  split
  · exact of_eq rfl rfl
  · exact refl c

theorem of_extends (h : c.Extends c') : c.Enrolls c' := by
  refine .single (.other h.methods fun k => ?_)
  obtain ⟨types, htypes⟩ := h.classTable k
  rw [htypes]

end Enrolls

theorem Change.enrolls (h : c.Change c') : c.Enrolls c' := by
  cases h with
  | mixin name container => exact .newClassLike c _ _ _ _
  | primitive name superclass width container => exact .newClassLike c _ _ _ _
  | object name superclass container generic =>
    rw [newObject_eq]
    exact (Enrolls.newClassLike c _ _ _ _).trans (.defineMethod _ _)
  | record name fields container =>
    rw [newRecord_eq]
    exact (Enrolls.newClassLike c _ _ _ _).trans
      ((Enrolls.defineFields _ _ _).trans (.defineMethod _ _))
  | constant name value container =>
    have hpushed : c.Enrolls (c.push (.constant name container value)).2 := .of_eq rfl rfl
    exact hpushed.trans (.enterName _ _ _ _)
  | name scope name t => exact .enterName c scope name t
  | method m => exact .defineMethod c m
  | inclusion t included h =>
    unfold includeMixin at h
    split at h
    · cases h
    · split at h
      · cases h
      · cases h
        exact .modifyClass c _ fun table => by split <;> rfl
  | slot t name u => exact .setSlot c t name u
  | merge ts _ => exact .of_extends (merge_extends c ts)
  | pointer t => exact .of_extends (pointerFor_extends c t)
  | copy template bindings => exact .specialize c template bindings
  | specialization t bindings h => exact .instantiate h

/-! ## The index -/

/-- The definition that a key is bound to in a class table. -/
def definitionAt (c : Catalog) (k : ClassHandle) (name : String) (key : MethodKey) :
    Option MethodHandle :=
  (c.overloadsAt k name).bind (·.get? key)

/-- A declaration binds the keys of its method in the table of its owner, and no others. -/
theorem definitionAt_defineMethod (c : Catalog) (m : Method) (k : ClassHandle) (name : String)
    (key : MethodKey) : (c.defineMethod m).2.definitionAt k name key =
      if c.Receives m k name ∧ key ∈ methodKeys m then some ⟨c.methods.size⟩
      else c.definitionAt k name key := by
  unfold definitionAt
  rw [overloadsAt_defineMethod]
  by_cases hreceives : c.Receives m k name
  · rw [if_pos hreceives, Option.bind_some, withOverload, Table.get?_putAll_const]
    simp only [hreceives, true_and]
    split
    · rfl
    · cases c.overloadsAt k name <;> rfl
  · rw [if_neg hreceives, if_neg fun h => hreceives h.1]

theorem isSome_overloadsAt_defineMethod (c : Catalog) (m : Method) (k : ClassHandle) (name : String) :
    ((c.defineMethod m).2.overloadsAt k name).isSome =
      (decide (c.Receives m k name) || (c.overloadsAt k name).isSome) := by
  rw [overloadsAt_defineMethod]
  by_cases hreceives : c.Receives m k name
  · rw [if_pos hreceives, decide_eq_true hreceives]
    rfl
  · rw [if_neg hreceives, decide_eq_false hreceives]
    rfl

theorem methods_classTable_defineMethod (c : Catalog) (m : Method) (k : ClassHandle) :
    ((c.defineMethod m).2.classTable k).methods =
      if c.cls? m.owner = some k ∧ k.index < c.classes.size then
        enterMethod (c.classTable k).methods m ⟨c.methods.size⟩
      else (c.classTable k).methods := by
  unfold defineMethod
  dsimp only
  cases c.cls? m.owner with
  | none => rfl
  | some l =>
    dsimp only
    rw [classTable_modifyClass]
    by_cases hkl : k = l ∧ l.index < c.classes.size
    · obtain ⟨rfl, hlt⟩ := hkl
      rw [if_pos ⟨rfl, hlt⟩, if_pos ⟨rfl, hlt⟩]
      rfl
    · rw [if_neg hkl, if_neg]
      · rfl
      · rintro ⟨hk, hlt⟩
        obtain rfl := Option.some.inj hk
        exact hkl ⟨rfl, hlt⟩

/-- The definitions in class tables stand under keys of theirs, and no two of one table and name
under the same key. -/
structure Indexed (c : Catalog) : Prop where
  keys : ∀ k, c.Keys (c.classTable k).methods
  once : ∀ k name overloads, c.overloadsAt k name = some overloads →
    overloads.keys.Nodup

namespace Indexed

theorem numbered (h : c.Indexed) : c.Numbered :=
  fun k _ _ hoverloads entry hentry => (h.keys k _ (Table.mem_of_get? hoverloads) entry hentry).1

theorem mem_entries_iff (h : c.Indexed) {overloads : Table MethodKey MethodHandle} {key : MethodKey}
    {id : MethodHandle} (hoverloads : c.overloadsAt k name = some overloads) :
    (key, id) ∈ overloads.entries ↔ c.definitionAt k name key = some id := by
  unfold definitionAt
  rw [hoverloads]
  exact (lookup_eq_some_iff_mem (h.once k name overloads hoverloads)).symm

theorem lt_of_definitionAt (h : c.Indexed) {key : MethodKey} {id : MethodHandle}
    (hdefinition : c.definitionAt k name key = some id) : id.index < c.methods.size := by
  obtain ⟨overloads, hoverloads, hget⟩ := Option.bind_eq_some_iff.mp hdefinition
  exact h.numbered k name overloads hoverloads (key, id) (Table.mem_of_get? hget)

/-- A definition in a table has the key that it stands under. -/
theorem mem_methodKeys (h : c.Indexed) {overloads : Table MethodKey MethodHandle} {key : MethodKey}
    {id : MethodHandle} (hoverloads : c.overloadsAt k name = some overloads)
    (hentry : (key, id) ∈ overloads.entries) : key ∈ methodKeys (c.method id) :=
  (h.keys k _ (Table.mem_of_get? hoverloads) _ hentry).2

theorem keys_defineMethod (h : c.Indexed) (m : Method) (k : ClassHandle) :
    (c.defineMethod m).2.Keys ((c.defineMethod m).2.classTable k).methods := by
  have hold : (c.defineMethod m).2.Keys (c.classTable k).methods := by
    intro entry hentry overload hoverload
    obtain ⟨hlt, hkey⟩ := h.keys k entry hentry overload hoverload
    rw [methods_defineMethod, Array.size_push, method_defineMethod, if_neg (Nat.ne_of_lt hlt)]
    exact ⟨Nat.lt_succ_of_lt hlt, hkey⟩
  have hnew : (⟨c.methods.size⟩ : MethodHandle).index < (c.defineMethod m).2.methods.size := by
    rw [methods_defineMethod, Array.size_push]
    exact Nat.lt_succ_self _
  have hmethod : (c.defineMethod m).2.method ⟨c.methods.size⟩ = m := by
    rw [method_defineMethod, if_pos rfl]
  rw [methods_classTable_defineMethod]
  split
  · exact hold.enterMethod hnew hmethod
  · exact hold

theorem defineMethod (h : c.Indexed) (m : Method) : (c.defineMethod m).2.Indexed := by
  refine ⟨h.keys_defineMethod m, fun k name overloads hoverloads => ?_⟩
  rw [overloadsAt_defineMethod] at hoverloads
  split at hoverloads
  · cases hoverloads
    refine Table.nodup_keys_putAll ?_ _
    cases hformer : c.overloadsAt k name with
    | none => exact List.nodup_nil
    | some former => exact h.once k name former hformer
  · exact h.once k name overloads hoverloads

theorem enrollment (h : c.Indexed) (henrollment : c.Enrollment c') : c'.Indexed := by
  cases henrollment with
  | method m => exact h.defineMethod m
  | other hmethods htables =>
    refine ⟨fun k => ?_, fun k name overloads hoverloads => ?_⟩
    · rw [htables]
      exact (h.keys k).congr hmethods
    · unfold overloadsAt at hoverloads
      rw [htables] at hoverloads
      exact h.once k name overloads hoverloads

theorem enrolls (h : c.Indexed) (henrolls : c.Enrolls c') : c'.Indexed := by
  induction henrolls with
  | refl => exact h
  | tail _ hlast ih => exact ih.enrollment hlast

theorem defineAll (h : c.Indexed) (ms : List Method) : (c.defineAll ms).Indexed :=
  List.foldlRecOn ms _ (motive := Indexed) h fun _ hd m _ => hd.defineMethod m

end Indexed

/-- Class tables that were never entered are no exception. -/
theorem Indexed.of_entered (hkeys : ∀ k, c.Keys (c.classTable k).methods)
    (honce : ∀ table ∈ c.classes.toList, ∀ entry ∈ table.methods.entries, entry.2.keys.Nodup) :
    c.Indexed := by
  refine ⟨hkeys, fun k name overloads hoverloads => ?_⟩
  unfold overloadsAt classTable at hoverloads
  cases hk : c.classes[k.index]? with
  | none =>
    rw [hk] at hoverloads
    cases hoverloads
  | some table =>
    rw [hk] at hoverloads
    have htable := Array.mem_toList_iff.mpr (Array.mem_of_getElem? hk)
    exact honce table htable _ (Table.mem_of_get? hoverloads)

theorem indexed_seeded : seeded.Indexed :=
  .of_entered callable_seeded.keys (by decide +kernel)

/-- Requests about entered types can be made in a session. -/
theorem Reached.moved {allowed : Catalog → Request → Prop} (hknows : ∀ c r, allowed c r → c.Knows r)
    (h : c.Reached allowed) (limit : Nat) : Store.Moved ⟨c, .empty limit⟩ := by
  induction h with
  | start => exact .start limit
  | step _ r hr ih => exact ih.request (hknows _ r hr)

/-- Requests about entered types keep the index in order. -/
theorem Reached.indexed {allowed : Catalog → Request → Prop} (hknows : ∀ c r, allowed c r → c.Knows r)
    (h : c.Reached allowed) : c.Indexed := by
  induction h with
  | start => exact indexed_seeded
  | step _ r hr ih =>
    rcases perform_change (hknows _ r hr) with hchange | hsame
    · exact ih.enrolls hchange.enrolls
    · rw [hsame]
      exact ih

theorem size_defineMethod (c : Catalog) (m : Method) : (c.defineMethod m).2.size = c.size := by
  unfold size
  rw [Sound.shapes_defineMethod]

theorem size_defineAll (c : Catalog) (ms : List Method) : (c.defineAll ms).size = c.size := by
  unfold size
  rw [shapes_defineAll]

theorem knows_of_size {size : Nat} {r : Request} (hsize : c.size = size)
    (hr : ∀ t ∈ r.mentions, t.index < size) : c.Knows r := by
  rwa [Knows, hsize]

/-- Methods about entered types can be declared one after the other. -/
theorem Reached.defineAll {allowed : Catalog → Request → Prop}
    (hmethod : ∀ c m, c.Knows (.method m) → allowed c (.method m)) {ms : List Method}
    (h : c.Reached allowed) (hms : ∀ m ∈ ms, c.Knows (.method m)) :
    (c.defineAll ms).Reached allowed := by
  induction ms generalizing c with
  | nil => exact h
  | cons m ms ih =>
    refine ih (h.step (.method m) (hmethod c m (hms m List.mem_cons_self))) fun n hn => ?_
    intro t ht
    show t.index < (c.defineMethod m).2.size
    rw [size_defineMethod]
    exact hms n (List.mem_cons_of_mem _ hn) t ht

end Catalog

namespace Store

variable {s s' : Store}

/-! ## Sessions -/

theorem enrolls_recompute (s : Store) (n : Node) : s.catalog.Enrolls (s.recompute n).catalog := by
  rw [catalog_recompute]
  exact .of_extends (combine_extends _ _ _)

theorem enrolls_install (s : Store) (template : Ty) (observed : List (String × Node))
    (holder : Node) : s.catalog.Enrolls (left (install template observed holder s)).catalog := by
  unfold install
  rw [Steps.bind_eq]
  rcases specializationFor_cases s template observed with ⟨target, c, hc, heq⟩ | ⟨e, heq⟩
  · rw [heq]
    exact (Catalog.Enrolls.instantiate hc).trans (.of_eq rfl rfl)
  · rw [heq]
    exact .refl _

theorem enrolls_refresh (s : Store) (t : Ty) (limit : Nat) :
    s.catalog.Enrolls (left (refresh t limit s)).catalog := by
  rcases refresh_left s t limit with heq | ⟨p, former, target, c, -, -, hc, hleft⟩
  · rw [heq]
    exact .refl _
  · refine (Catalog.Enrolls.instantiate hc).trans ?_
    rcases hleft with heq | ⟨-, heq⟩ | heq
    · rw [heq]
      exact .refl _
    · rw [heq]
      exact .of_eq rfl rfl
    · rw [heq, supersede_eq]
      exact .of_eq rfl rfl

theorem Change.enrolls (h : s.Change s') : s.catalog.Enrolls s'.catalog := by
  cases h with
  | catalog h => exact h.enrolls
  | add | watch | unwatch | retype | overwrite => exact .refl _
  | bind n d =>
    rw [Store.bind_eq]
    split
    · exact enrolls_recompute ⟨s.catalog, s.graph.link n d⟩ n
    · exact .refl _
  | unbind n d => exact enrolls_recompute ⟨s.catalog, s.graph.unlink n d⟩ n
  | propagate =>
    refine left_drain (fun r => s.catalog.Enrolls r.catalog) (fun r n hr => ?_)
      (fun _ _ _ _ hr => hr) (fun _ _ hr => hr) _ _ (.refl _)
    exact hr.trans (enrolls_recompute r n)
  | install template observed holder => exact enrolls_install s template observed holder
  | refresh t limit => exact enrolls_refresh s t limit

theorem Session.enrolls (h : s.Session s') : s.catalog.Enrolls s'.catalog := by
  induction h with
  | refl => exact .refl _
  | tail _ hlast ih => exact ih.trans hlast.enrolls

theorem Started.indexed (h : s.Started) : s.catalog.Indexed := by
  obtain ⟨limit, hsession⟩ := h
  refine Catalog.Indexed.enrolls ?_ hsession.enrolls
  dsimp only
  exact Catalog.indexed_seeded

end Store

end FlowTyping
