import Mathlib.Data.List.Nodup
import Mathlib.Data.String.Basic
import FlowTyping.Proofs.Catalog.Soundness

/-
  Bindings as maps

  A specialization is known by its bindings, each resolved and all of them in
  the order of their names. If no name is bound twice, two lists of bindings
  have the same key exactly if they bind the same names to the same types
  (`bindingKey_eq_iff`), and the slots of a copy read as what is bound, or else
  as the slots of the original (`get?_slots_copy`).
-/
namespace FlowTyping

/-- Where no key comes twice, what is looked up is what is there. -/
theorem lookup_eq_some_iff_mem {κ α : Type} [DecidableEq κ] {l : List (κ × α)} {key : κ} {value : α}
    (h : (l.map (·.1)).Nodup) : l.lookup key = some value ↔ (key, value) ∈ l := by
  induction l with
  | nil => simp
  | cons head rest ih =>
    obtain ⟨k, v⟩ := head
    rw [List.map_cons, List.nodup_cons] at h
    by_cases hk : key = k
    · subst hk
      have hrest : (key, value) ∉ rest := fun hmem => h.1 (List.mem_map.mpr ⟨_, hmem, rfl⟩)
      simp [hrest, eq_comm]
    · simp [List.lookup_cons, beq_eq_false_iff_ne.mpr hk, hk, ih h.2]

namespace Table

variable {κ α : Type} [DecidableEq κ]

/-- Entries under different keys read back, and every other key reads as before. -/
theorem get?_putAll {entries : List (κ × α)} (h : (entries.map (·.1)).Nodup) (t : Table κ α)
    (key : κ) : (t.putAll entries).get? key = (entries.lookup key).or (t.get? key) := by
  induction entries generalizing t with
  | nil => rfl
  | cons head rest ih =>
    obtain ⟨k, v⟩ := head
    rw [List.map_cons, List.nodup_cons] at h
    have hstep : (t.putAll ((k, v) :: rest)).get? key = ((t.put k v).putAll rest).get? key := rfl
    rw [hstep, ih h.2, get?_put]
    by_cases hk : key = k
    · subst hk
      have hrest : rest.lookup key = none := by
        refine Option.eq_none_iff_forall_ne_some.mpr fun v hv => h.1 ?_
        exact List.mem_map.mpr ⟨_, (lookup_eq_some_iff_mem h.2).mp hv, rfl⟩
      simp [hrest]
    · simp [List.lookup_cons, hk, beq_eq_false_iff_ne.mpr hk]

end Table

/-! ## Sorting by name -/

/-- The names of bindings in strictly increasing order. -/
def Ascending (bindings : List (String × Ty)) : Prop := bindings.Pairwise (·.1 < ·.1)

theorem ascending_insertBinding {binding : String × Ty} {bindings : List (String × Ty)}
    (h : Ascending bindings) (hnew : ∀ b ∈ bindings, b.1 ≠ binding.1) :
    Ascending (insertBinding binding bindings) := by
  induction bindings with
  | nil => exact List.pairwise_singleton _ _
  | cons head rest ih =>
    unfold Ascending at h
    rw [List.pairwise_cons] at h
    unfold insertBinding
    split
    · next hlt =>
      refine List.pairwise_cons.mpr ⟨fun b hb => ?_,
        ih h.2 fun b hb => hnew b (List.mem_cons_of_mem _ hb)⟩
      rcases Catalog.mem_insertBinding.mp hb with rfl | hb
      · exact hlt
      · exact h.1 b hb
    · next hge =>
      have hhead : binding.1 < head.1 :=
        lt_of_le_of_ne (not_lt.mp hge) (hnew head List.mem_cons_self).symm
      refine List.pairwise_cons.mpr ⟨fun b hb => ?_, List.pairwise_cons.mpr h⟩
      rcases List.mem_cons.mp hb with rfl | hb
      · exact hhead
      · exact lt_trans hhead (h.1 b hb)

theorem ascending_sortBindings {bindings : List (String × Ty)}
    (h : (bindings.map (·.1)).Nodup) : Ascending (sortBindings bindings) := by
  induction bindings with
  | nil => exact List.Pairwise.nil
  | cons head rest ih =>
    rw [List.map_cons, List.nodup_cons] at h
    refine ascending_insertBinding (ih h.2) fun b hb e => h.1 ?_
    exact List.mem_map.mpr ⟨b, Catalog.mem_sortBindings.mp hb, e⟩

theorem Ascending.nodup_names {bindings : List (String × Ty)} (h : Ascending bindings) :
    (bindings.map (·.1)).Nodup :=
  List.pairwise_map.mpr (h.imp fun hlt => ne_of_lt hlt)

/-- Bindings in increasing order are determined by what is bound. -/
theorem Ascending.eq_of_mem_iff {bindings bindings' : List (String × Ty)} (h : Ascending bindings)
    (h' : Ascending bindings') (hmem : ∀ b, b ∈ bindings ↔ b ∈ bindings') :
    bindings = bindings' := by
  have hperm : bindings.Perm bindings' :=
    (List.perm_ext_iff_of_nodup h.nodup_names.of_map h'.nodup_names.of_map).mpr hmem
  exact hperm.eq_of_pairwise (fun a b _ _ hab hba => absurd hba (lt_asymm hab)) h h'

namespace Catalog

variable {c d : Catalog} {bindings bindings' : List (String × Ty)}

/-- What a name is bound to: the type that its binding stands for. -/
def bound (c : Catalog) (bindings : List (String × Ty)) (name : String) : Option Ty :=
  (bindings.lookup name).map c.resolve

theorem nodup_resolved (c : Catalog) (h : (bindings.map (·.1)).Nodup) :
    ((bindings.map fun b => (b.1, c.resolve b.2)).map (·.1)).Nodup := by
  rw [List.map_map]
  exact h

theorem mem_bindingKey (h : (bindings.map (·.1)).Nodup) {name : String} {u : Ty} :
    (name, u) ∈ c.bindingKey bindings ↔ c.bound bindings name = some u := by
  unfold bindingKey bound
  rw [mem_sortBindings, List.mem_map, Option.map_eq_some_iff]
  constructor
  · rintro ⟨b, hb, heq⟩
    cases heq
    exact ⟨b.2, (lookup_eq_some_iff_mem h).mpr hb, rfl⟩
  · rintro ⟨t, ht, rfl⟩
    exact ⟨(name, t), (lookup_eq_some_iff_mem h).mp ht, rfl⟩

theorem ascending_bindingKey (c : Catalog) (h : (bindings.map (·.1)).Nodup) :
    Ascending (c.bindingKey bindings) :=
  ascending_sortBindings (nodup_resolved c h)

/-- Bindings are known by what they bind, in whatever order they are given. -/
theorem bindingKey_eq_iff (h : (bindings.map (·.1)).Nodup) (h' : (bindings'.map (·.1)).Nodup) :
    c.bindingKey bindings = d.bindingKey bindings' ↔
      ∀ name, c.bound bindings name = d.bound bindings' name := by
  constructor
  · intro heq name
    refine Option.ext fun u => ?_
    rw [← mem_bindingKey h, ← mem_bindingKey h', heq]
  · intro hbound
    refine (ascending_bindingKey c h).eq_of_mem_iff (ascending_bindingKey d h') fun b => ?_
    obtain ⟨name, u⟩ := b
    rw [mem_bindingKey h, mem_bindingKey h', hbound]

/-- The slots of a copy read as what is bound, and the others as in the original. -/
theorem get?_slots_copy (h : (bindings.map (·.1)).Nodup) (slots : Table String (Option Ty))
    (name : String) :
    (slots.putAll ((c.bindingKey bindings).map fun b => (b.1, some b.2))).get? name =
      ((c.bound bindings name).map some).or (slots.get? name) := by
  have hkey := (ascending_bindingKey c h).nodup_names
  have hentries : (((c.bindingKey bindings).map fun b => (b.1, some b.2)).map (·.1)).Nodup := by
    rw [List.map_map]
    exact hkey
  rw [Table.get?_putAll hentries]
  congr 1
  refine Option.ext fun value => ?_
  rw [lookup_eq_some_iff_mem hentries, List.mem_map, Option.map_eq_some_iff]
  constructor
  · rintro ⟨⟨_, u⟩, hb, heq⟩
    cases heq
    exact ⟨u, (mem_bindingKey h).mp hb, rfl⟩
  · rintro ⟨u, hu, rfl⟩
    exact ⟨(name, u), (mem_bindingKey h).mpr hu, rfl⟩

end Catalog

end FlowTyping
