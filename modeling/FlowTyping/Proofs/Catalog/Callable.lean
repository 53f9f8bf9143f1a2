import FlowTyping.Catalog.Overload
import FlowTyping.Proofs.Catalog.Growth
import FlowTyping.Proofs.Table

/-
  What definitions can be called with

  A definition stands in a class table under one key for each number of
  arguments that it can be called with, and a call selects it under a key of as
  many restrictions as the call has arguments. So each parameter without an
  argument has a default, and a builtin method that writes is given what it
  writes (`Callable.takes`).
-/
namespace FlowTyping

/-- Whether a definition writes its argument. -/
def Body.writes : Body → Bool
  | .builtin .firstArgument => true
  | _ => false

/-- A definition that writes its argument has a parameter without a default. -/
def Method.AsksForValue (m : Method) : Prop :=
  m.body.writes = true → ∃ p ∈ m.parameters, p.fallback.isNone = true

instance (m : Method) : Decidable m.AsksForValue := inferInstanceAs (Decidable (_ → _))

/-- The arguments are enough for a call of a definition. -/
structure Method.Takes (m : Method) (arguments : List Ty) : Prop where
  supplied : ∀ p ∈ m.parameters.drop arguments.length, p.fallback.isSome = true
  given : m.body.writes = true → arguments ≠ []

namespace Catalog

variable {c c' : Catalog} {m : Method} {key : MethodKey}

/-- Parameters beyond those of a key have defaults. -/
theorem fallback_of_mem_methodKeys (hkey : key ∈ methodKeys m) :
    ∀ p ∈ m.parameters.drop key.restrictions.length, p.fallback.isSome = true := by
  obtain ⟨cut, hcut, rfl⟩ := List.mem_map.mp hkey
  have hcut : cut ≤ (m.parameters.reverse.takeWhile (·.fallback.isSome)).length :=
    Nat.le_of_lt_succ (List.mem_range.mp hcut)
  intro p hp
  have hlength : (List.take ((m.parameters.map (·.restriction)).length - cut)
      (m.parameters.map (·.restriction))).length = m.parameters.length - cut := by
    rw [List.length_take, List.length_map, Nat.min_eq_left (Nat.sub_le _ _)]
  rw [hlength] at hp
  -- the last parameters are the first ones from the other end, where the defaults are counted
  have hp : p ∈ m.parameters.reverse.take cut := by
    rw [List.take_reverse]
    exact List.mem_reverse.mpr hp
  have hdefaults : m.parameters.reverse.take cut <+:
      m.parameters.reverse.takeWhile (·.fallback.isSome) :=
    List.prefix_of_prefix_length_le (List.take_prefix _ _) (List.takeWhile_prefix _)
      (Nat.le_trans (List.length_take_le _ _) hcut)
  exact List.all_eq_true.mp List.all_takeWhile p (hdefaults.subset hp)

/-- The definitions of a class table stand under keys of theirs. -/
def Keys (c : Catalog) (table : MethodTable) : Prop :=
  ∀ entry ∈ table.entries, ∀ overload ∈ entry.2.entries,
    overload.2.index < c.methods.size ∧ overload.1 ∈ methodKeys (c.method overload.2)

instance (c : Catalog) (table : MethodTable) : Decidable (c.Keys table) :=
  inferInstanceAs (Decidable (∀ entry ∈ table.entries, ∀ overload ∈ entry.2.entries, _ ∧ _))

/-- Definitions stand under their keys, and those that write a value ask for one. -/
structure Callable (c : Catalog) : Prop where
  keys : ∀ k, c.Keys (c.classTable k).methods
  values : ∀ id, (c.method id).AsksForValue

theorem method_congr (hmethods : c'.methods = c.methods) (id : MethodHandle) :
    c'.method id = c.method id := by
  unfold method
  rw [hmethods]

theorem Keys.congr {table : MethodTable} (h : c.Keys table) (hmethods : c'.methods = c.methods) :
    c'.Keys table := by
  intro entry hentry overload hoverload
  obtain ⟨hlt, hkey⟩ := h entry hentry overload hoverload
  rw [hmethods, method_congr hmethods]
  exact ⟨hlt, hkey⟩

theorem keys_empty (c : Catalog) : c.Keys .empty := fun _ hentry => by cases hentry

/-- A definition is entered under its keys. -/
theorem Keys.enterMethod {table : MethodTable} {id : MethodHandle} (h : c.Keys table)
    (hid : id.index < c.methods.size) (hm : c.method id = m) : c.Keys (enterMethod table m id) := by
  intro entry hentry overload hoverload
  rcases Table.mem_put hentry with rfl | hentry
  · rcases Table.mem_putAll hoverload with hoverload | hoverload
    · obtain ⟨key, hkey, rfl⟩ := List.mem_map.mp hoverload
      exact ⟨hid, hm ▸ hkey⟩
    · cases hold : table.get? m.name with
      | none =>
        rw [hold] at hoverload
        cases hoverload
      | some overloads =>
        rw [hold] at hoverload
        exact h _ (Table.mem_of_get? hold) overload hoverload
  · exact h entry hentry overload hoverload

/-! ## What a call selects -/

theorem mem_of_firstSelected {verdicts : List (Except Miss MethodHandle)} {id : MethodHandle}
    (h : firstSelected verdicts = .ok id) : .ok id ∈ verdicts := by
  induction verdicts with
  | nil => cases h
  | cons verdict rest ih =>
    cases verdict with
    | ok m =>
      cases h
      exact List.mem_cons_self
    | error miss =>
      unfold firstSelected at h
      split at h
      · next m hrest =>
        cases h
        exact List.mem_cons_of_mem _ (ih hrest)
      · cases h

/-- A definition is selected under a key that fits the call. -/
theorem exists_key_of_selectAmong {q : Query} {overloads : Table MethodKey MethodHandle}
    {id : MethodHandle} (h : c.selectAmong q overloads = .ok id) :
    ∃ key, (key, id) ∈ overloads.entries ∧ c.fits q key = true := by
  have hmem : id ∈ definitions overloads (c.fits q) := by
    unfold selectAmong at h
    split at h
    · cases h
    · next applicable happlicable =>
      split at h
      · next best hbest =>
        cases h
        exact (List.mem_filter.mp (hbest ▸ List.mem_singleton_self id)).1
      · cases h
      · cases h
  obtain ⟨entry, hentry, rfl⟩ := List.mem_map.mp (List.mem_eraseDups.mp hmem)
  obtain ⟨hentry, hfits⟩ := List.mem_filter.mp hentry
  exact ⟨entry.1, hentry, hfits⟩

theorem length_eq_of_acceptsArguments {receiver : Ty} {rs : List (Option Restriction)}
    {ts : List Ty} (h : c.acceptsArguments receiver rs ts = true) : rs.length = ts.length := by
  induction rs generalizing ts with
  | nil =>
    cases ts with
    | nil => rfl
    | cons t ts => cases h
  | cons r rs ih =>
    cases ts with
    | nil => cases h
    | cons t ts => exact congrArg Nat.succ (ih (Bool.and_eq_true _ _ ▸ h).2)

namespace Callable

theorem modifyClass (h : c.Callable) (k : ClassHandle) {f : ClassTable → ClassTable}
    (hf : ∀ table, c.Keys table.methods → c.Keys (f table).methods) :
    (c.modifyClass k f).Callable := by
  refine ⟨fun l => ?_, h.values⟩
  show c.Keys ((c.modifyClass k f).classTable l).methods
  have hl := h.keys l
  unfold classTable at hl ⊢
  unfold Catalog.modifyClass
  rw [Array.getElem?_modify]
  split
  · cases hk : c.classes[l.index]? with
    | none => exact keys_empty c
    | some table =>
      rw [hk] at hl
      exact hf table hl
  · exact hl

theorem of_extends (h : c.Callable) (hext : c.Extends c') : c'.Callable := by
  refine ⟨fun k => ?_, fun id => ?_⟩
  · obtain ⟨types, htypes⟩ := hext.classTable k
    rw [htypes]
    exact (h.keys k).congr hext.methods
  · rw [method_congr hext.methods]
    exact h.values id

/-- What a call selects takes the arguments of the call. -/
theorem takes (h : c.Callable) {owner : Ty} {q : Query} {id : MethodHandle}
    (hid : c.select owner q = .ok id) : (c.method id).Takes q.arguments := by
  obtain ⟨t, -, hverdict⟩ := List.mem_filterMap.mp (mem_of_firstSelected hid)
  obtain ⟨overloads, hoverloads, hselect⟩ := Option.map_eq_some_iff.mp hverdict
  obtain ⟨table, htable, hname⟩ := Option.bind_eq_some_iff.mp hoverloads
  obtain ⟨k, -, rfl⟩ := Option.map_eq_some_iff.mp htable
  obtain ⟨key, hkey, hfits⟩ := exists_key_of_selectAmong hselect
  have hkeys := (h.keys k _ (Table.mem_of_get? hname) _ hkey).2
  have hlength := length_eq_of_acceptsArguments (Bool.and_eq_true _ _ ▸ hfits).2
  have hsupplied := hlength ▸ fallback_of_mem_methodKeys hkeys
  refine ⟨hsupplied, fun hwrites hnone => ?_⟩
  obtain ⟨p, hp, hbare⟩ := h.values id hwrites
  have hfallback := hsupplied p (by rw [hnone]; exact hp)
  rw [Option.isNone_iff_eq_none.mp hbare] at hfallback
  cases hfallback

end Callable

end Catalog

end FlowTyping
