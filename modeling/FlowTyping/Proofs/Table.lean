import FlowTyping.Table

/-
  What is in a table

  The entries of a table that has been put into are new or were there before,
  and what reads back is an entry.
-/
namespace FlowTyping.Table

variable {κ α : Type} [DecidableEq κ] {t : Table κ α} {key : κ} {value : α} {entry : κ × α}

theorem mem_of_get? (h : t.get? key = some value) : (key, value) ∈ t.entries := by
  obtain ⟨before, after, heq, -⟩ := List.lookup_eq_some_iff.mp h
  rw [heq]
  simp

theorem mem_putEntry {entries : List (κ × α)} (h : entry ∈ putEntry key value entries) :
    entry = (key, value) ∨ entry ∈ entries := by
  induction entries with
  | nil => exact .inl (List.mem_singleton.mp h)
  | cons head rest ih =>
    unfold putEntry at h
    split at h
    · exact (List.mem_cons.mp h).imp_right (List.mem_cons_of_mem head)
    · rcases List.mem_cons.mp h with rfl | h
      · exact .inr List.mem_cons_self
      · exact (ih h).imp_right (List.mem_cons_of_mem head)

theorem mem_put (h : entry ∈ (t.put key value).entries) :
    entry = (key, value) ∨ entry ∈ t.entries :=
  mem_putEntry h

theorem mem_putAll {entries : List (κ × α)} (h : entry ∈ (t.putAll entries).entries) :
    entry ∈ entries ∨ entry ∈ t.entries := by
  induction entries generalizing t with
  | nil => exact .inr h
  | cons head rest ih =>
    rcases ih (t := t.put head.1 head.2) h with h | h
    · exact .inl (List.mem_cons_of_mem head h)
    · rcases mem_put h with rfl | h
      · exact .inl List.mem_cons_self
      · exact .inr h

theorem mem_keys_putEntry {entries : List (κ × α)} {other : κ} :
    other ∈ (putEntry key value entries).map (·.1) ↔ other = key ∨ other ∈ entries.map (·.1) := by
  induction entries with
  | nil => simp [putEntry]
  | cons head rest ih =>
    unfold putEntry
    split
    · next h => simp [h]
    · rw [List.map_cons, List.mem_cons, ih, List.map_cons, List.mem_cons]
      exact or_left_comm

@[simp] theorem get?_put_self : (t.put key value).get? key = some value := by
  rw [get?_put, if_pos rfl]

/-- What reads back after a put was put, or read so before. -/
theorem of_get?_put {other : κ} {a : α} (h : (t.put key value).get? other = some a) :
    (other = key ∧ a = value) ∨ t.get? other = some a := by
  rw [get?_put] at h
  split at h
  · next heq =>
    cases h
    exact .inl ⟨heq, rfl⟩
  · exact .inr h

/-- A new key leaves every entry as it is. -/
theorem get?_put_of_none (hnone : t.get? key = none) (other : κ) (a : α)
    (h : t.get? other = some a) : (t.put key value).get? other = some a := by
  rw [get?_put, if_neg, h]
  rintro rfl
  rw [hnone] at h
  cases h

/-- Of several keys that get one value, each reads back; every other key reads as before. -/
theorem get?_putAll_const (t : Table κ α) (keys : List κ) (value : α) (other : κ) :
    (t.putAll (keys.map fun key => (key, value))).get? other =
      if other ∈ keys then some value else t.get? other := by
  induction keys generalizing t with
  | nil => rw [if_neg List.not_mem_nil]; rfl
  | cons key keys ih =>
    refine (ih (t.put key value)).trans ?_
    rw [get?_put]
    by_cases hin : other ∈ keys
    · rw [if_pos hin, if_pos (List.mem_cons_of_mem key hin)]
    · rw [if_neg hin]
      simp only [List.mem_cons, hin, or_false]

theorem get?_mapValues {β : Type} (f : α → β) (t : Table κ α) (key : κ) :
    get? ⟨t.entries.map fun entry => (entry.1, f entry.2)⟩ key = (t.get? key).map f := by
  obtain ⟨entries⟩ := t
  show (entries.map _).lookup key = (entries.lookup key).map f
  induction entries with
  | nil => rfl
  | cons entry rest ih =>
    rw [List.map_cons, List.lookup_cons, List.lookup_cons]
    cases key == entry.1 with
    | true => rfl
    | false => exact ih

/-- Each key stands in a table once. -/
theorem nodup_keys_put (h : t.keys.Nodup) : (t.put key value).keys.Nodup := by
  obtain ⟨entries⟩ := t
  show ((putEntry key value entries).map (·.1)).Nodup
  replace h : (entries.map (·.1)).Nodup := h
  induction entries with
  | nil => simp [putEntry]
  | cons head rest ih =>
    obtain ⟨hhead, hrest⟩ := List.nodup_cons.mp h
    unfold putEntry
    split
    · next heq => exact List.nodup_cons.mpr ⟨heq ▸ hhead, hrest⟩
    · next hne =>
      refine List.nodup_cons.mpr ⟨fun hmem => ?_, ih hrest⟩
      exact (mem_keys_putEntry.mp hmem).elim hne hhead

theorem nodup_keys_putAll (h : t.keys.Nodup) (entries : List (κ × α)) :
    (t.putAll entries).keys.Nodup :=
  List.foldlRecOn entries _ (motive := fun t : Table κ α => t.keys.Nodup) h
    fun _ h _ _ => nodup_keys_put h

/-- What is made of the values reads back, where each key stands once. -/
theorem lookup_filterMap {β : Type} {f : α → Option β} (h : t.keys.Nodup) (key : κ) :
    (t.entries.filterMap fun entry => (f entry.2).map fun b => (entry.1, b)).lookup key =
      (t.get? key).bind f := by
  obtain ⟨entries⟩ := t
  show _ = (entries.lookup key).bind f
  replace h : (entries.map (·.1)).Nodup := h
  induction entries with
  | nil => rfl
  | cons head rest ih =>
    obtain ⟨hhead, hrest⟩ := List.nodup_cons.mp h
    rw [List.filterMap_cons, List.lookup_cons]
    by_cases hkey : key = head.1
    · have hnone : rest.lookup key = none := by
        rw [List.lookup_eq_none_iff]
        intro entry hentry
        rw [hkey, bne_iff_ne]
        intro heq
        exact hhead (List.mem_map.mpr ⟨entry, hentry, heq.symm⟩)
      rw [hkey, beq_self_eq_true, Option.bind_some]
      cases f head.2 with
      | none => rw [Option.map_none, ← hkey, ih hrest, hnone]; rfl
      | some b => simp
    · rw [beq_eq_false_iff_ne.mpr hkey]
      cases f head.2 with
      | none => exact ih hrest
      | some b =>
        rw [Option.map_some, List.lookup_cons, beq_eq_false_iff_ne.mpr hkey]
        exact ih hrest

end FlowTyping.Table
