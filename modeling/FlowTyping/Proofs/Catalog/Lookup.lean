import FlowTyping.Inference.Declare
import FlowTyping.Inference.Dispatch
import FlowTyping.Proofs.Catalog.Declarations
import FlowTyping.Proofs.Preorder

/-
  What is looked up in a sound catalog is definite

  Parents, metaclasses, the types that paths name and the results of builtin
  methods are entered and not provisional. A name that is looked up in vain is
  a mistake in the text (`Mistake`).
-/
namespace FlowTyping

/-- What can be wrong with a text apart from its calls: a name that leads nowhere, a class or module
that the declarations have left out, a name that is taken by something else, or ancestors in a
circle. -/
inductive Mistake : TypingError → Prop
  | unresolved (what : Sought) (name : String) (place : Place) :
      Mistake (.located (.unresolved what name) place)
  | cyclicAncestry (type ancestor : String) (place : Place) :
      Mistake (.located (.cyclicAncestry type ancestor) place)
  | undeclared (name : String) : Mistake (.fault (.undeclared name))
  | noMetaclass (shown : String) : Mistake (.fault (.noMetaclass shown))
  | notConstant (shown : String) : Mistake (.fault (.notConstant shown))

namespace Catalog

variable {c : Catalog} {t u : Ty}

theorem definite_of_metaclass {k : ClassHandle} (h : c.shape t = .metaclass k u) :
    c.Definite t := by
  refine ⟨Nat.lt_of_not_le fun hle => ?_, by rw [h]; rfl⟩
  rw [shape_of_size_le hle] at h
  cases h

theorem definite_of_metaclass? (h : c.metaclass? t = some u) : c.Definite u := by
  unfold metaclass? at h
  dsimp only at h
  split at h
  · next k s hs =>
    split at h
    · cases h
      exact definite_of_metaclass hs
    · cases h
  · cases h

namespace Sound

theorem resolve (hc : c.Sound) (ht : t.index < c.size) : c.Definite (c.resolve t) :=
  hc.canonical.grounded.resolve_definite ht

theorem members (hc : c.Sound) (ht : t.index < c.size) : ∀ u ∈ c.members t, c.Definite u :=
  fun _ hu => (hc.canonical.single_of_mem_members ht hu).1

/-! ## Relatives of a type -/

theorem subject (hc : c.Sound) (ht : t.index < c.size) : c.Definite (c.subject t) := by
  unfold Catalog.subject resolvedShape
  split
  · next k s hs => exact hc.metaclass_subject hs
  · exact hc.resolve ht

theorem tableOf (hc : c.Sound) {table : ClassTable} (h : c.tableOf t = some table) :
    ∀ u ∈ table.mentioned, c.Definite u := by
  obtain ⟨k, -, rfl⟩ := Option.map_eq_some_iff.mp h
  exact hc.classes k

theorem declaredParents (hc : c.Sound) : ∀ u ∈ c.declaredParents t, c.Definite u := by
  intro u hu
  unfold Catalog.declaredParents at hu
  have key : ∀ {table : ClassTable}, c.tableOf t = some table →
      u ∈ table.includes ++ table.superclass.toList → c.Definite u := by
    intro table htable hu
    refine hc.tableOf htable u ?_
    unfold ClassTable.mentioned
    simp only [List.mem_append] at hu ⊢
    rcases hu with hu | hu
    · exact .inl (.inl (.inr hu))
    · exact .inl (.inl (.inl (.inr hu)))
  split at hu <;> try cases hu
  all_goals
    split at hu
    · next table htable => exact key htable hu
    · cases hu

theorem parents (hc : c.Sound) : ∀ u ∈ c.parents t, c.Definite u := by
  intro u hu
  unfold Catalog.parents at hu
  split at hu
  · obtain ⟨v, -, hv⟩ := List.mem_filterMap.mp hu
    exact definite_of_metaclass? hv
  · exact hc.declaredParents u hu

/-! ## Names -/

theorem nestedType (hc : c.Sound) {name : String} (h : c.nestedType t name = some u) :
    c.Definite u := by
  obtain ⟨table, htable, hu⟩ := Option.bind_eq_some_iff.mp h
  refine hc.tableOf htable u ?_
  unfold ClassTable.mentioned
  simp only [List.mem_append]
  exact .inl (.inr (List.mem_map.mpr ⟨_, Table.mem_of_get? hu, rfl⟩))

theorem descend (hc : c.Sound) {path : List String} (ht : c.Definite t)
    (h : c.descend path t = some u) : c.Definite u := by
  induction path generalizing t with
  | nil => cases h; exact ht
  | cons name rest ih =>
    unfold Catalog.descend at h
    split at h
    · next nested hnested => exact ih (hc.nestedType hnested) h
    · cases h

theorem searched (hc : c.Sound) (ht : t.index < c.size) : c.Definite (c.searched t) :=
  hc.resolve (hc.subject ht).1

theorem outward (hc : c.Sound) : ∀ u ∈ c.outward t, c.Definite u := by
  intro u hu
  obtain ⟨v, hv, rfl⟩ := List.mem_map.mp hu
  refine hc.searched (And.left (b := (c.shape v).isProvisional = false) ?_)
  rcases List.mem_append.mp hv with hv | hv
  · exact hc.parents v hv
  · obtain ⟨table, htable, hcontainer⟩ := Option.bind_eq_some_iff.mp (Option.mem_toList.mp hv)
    refine hc.tableOf htable v ?_
    unfold ClassTable.mentioned
    simp only [List.mem_append]
    exact .inl (.inl (.inl (.inl (Option.mem_toList.mpr hcontainer))))

theorem find (hc : c.Sound) {path : List String} (ht : t.index < c.size)
    (h : c.find path t = some u) : c.Definite u := by
  obtain ⟨v, hv, hu⟩ := List.exists_of_findSome?_eq_some h
  refine hc.descend ?_ hu
  refine forall_mem_preorder (P := c.Definite) (fun a _ b hb => hc.outward b hb) ?_ v hv
  intro a ha
  rw [List.mem_singleton.mp ha]
  exact hc.searched ht

theorem lookUp (hc : c.Sound) {path : List String} {what : Sought} {place : Place}
    (ht : t.index < c.size) (h : c.lookUp path t what place = .ok u) : c.Definite u := by
  unfold Catalog.lookUp at h
  split at h
  · next v hv => cases h; exact hc.find ht hv
  · cases h

theorem writtenType (hc : c.Sound) {written : TypeName} {receiver : Option Ty} {place : Place}
    (ht : t.index < c.size) (hreceiver : ∀ r, receiver = some r → c.Definite r)
    (h : c.writtenType written t receiver place = .ok u) : c.Definite u := by
  unfold Catalog.writtenType at h
  split at h
  · exact hc.lookUp ht h
  · cases h; exact hreceiver _ rfl
  · cases h

theorem declared (hc : c.Sound) {name : String} (h : c.declared t name = .ok u) :
    c.Definite u := by
  unfold Catalog.declared at h
  split at h
  · next v hv => cases h; exact hc.nestedType hv
  · cases h

/-! ## Results of builtin methods -/

theorem slot? (hc : c.Sound) {name : String} (h : c.slot? t name = some (some u)) :
    c.Definite u := by
  have hentry := Table.mem_of_get? h
  unfold Catalog.slots resolvedShape at hentry
  split at hentry
  · next o ho =>
    refine hc.shapes (c.resolve t) u ?_
    rw [ho]
    exact List.mem_append_left _ (List.mem_flatMap.mpr ⟨_, hentry, by simp⟩)
  · next k fields hfields =>
    obtain ⟨field, hfield, heq⟩ := List.mem_map.mp hentry
    refine hc.shapes (c.resolve t) u ?_
    rw [hfields]
    refine List.mem_map.mpr ⟨field, hfield, ?_⟩
    simpa using congrArg (·.2) heq
  · cases hentry

theorem pointee? (hc : c.Sound) (h : c.pointee? t = some u) : c.Definite u := by
  unfold Catalog.pointee? resolvedShape at h
  split at h
  · next p hp =>
    refine hc.shapes (c.resolve t) u ?_
    rw [hp, h]
    exact List.mem_singleton_self u
  · cases h

theorem builtinType (hc : c.Sound) {owner : Ty} {name : String} {builtin : Builtin}
    {arguments : List Ty} {place : Place} (howner : owner.index < c.size)
    (harguments : ∀ a ∈ arguments, c.Definite a) (hbuiltin : ∀ u ∈ builtin.types, c.Definite u)
    (h : c.builtinType owner name builtin arguments place = .ok t) : c.Definite t := by
  unfold Catalog.builtinType at h
  cases builtin with
  | fixed u => cases h; exact hbuiltin _ (List.mem_singleton_self _)
  | allocate => cases h; exact hc.subject howner
  | slot slot =>
    dsimp only at h
    split at h
    · next u hu =>
      cases h
      exact hc.slot? (Option.join_eq_some_iff.mp hu)
    · cases h
  | pointee =>
    dsimp only at h
    split at h
    · next u hu => cases h; exact hc.pointee? hu
    · cases h
  | firstArgument =>
    cases arguments with
    | nil => cases h
    | cons a rest => cases h; exact harguments _ List.mem_cons_self
  | element =>
    dsimp only at h
    split at h
    · next u hu =>
      cases h
      obtain ⟨s, -, hu⟩ := Option.bind_eq_some_iff.mp hu
      exact hc.pointee? hu
    · cases h

end Sound

/-! ## Names that lead nowhere -/

section

variable {scope : Ty} {e : TypingError}

theorem mistake_of_lookUp {path : List String} {what : Sought} {place : Place}
    (h : c.lookUp path scope what place = .error e) : Mistake e := by
  unfold lookUp at h
  split at h
  · cases h
  · cases h
    exact .unresolved _ _ _

theorem mistake_of_writtenType {written : TypeName} {receiver : Option Ty} {place : Place}
    (h : c.writtenType written scope receiver place = .error e) : Mistake e := by
  unfold writtenType at h
  split at h
  · exact mistake_of_lookUp h
  · cases h
  · cases h
    exact .unresolved _ _ _

theorem mistake_of_declared {name : String} (h : c.declared scope name = .error e) : Mistake e := by
  unfold declared at h
  split at h
  · cases h
  · cases h
    exact .undeclared name

/-! ## Types without names in them -/

theorem Plain.resolve_eq (h : c.Plain) : c.resolve t = t := resolveWithin_of_not_provisional (h t) _

/-- The search from a type without a class table does not leave it. -/
theorem eq_of_find (hplain : c.Plain) (hcls : c.cls? t = none) {path : List String}
    (h : c.find path t = some u) : u = t := by
  have htable : c.tableOf t = none := by
    rw [tableOf, hcls]
    rfl
  have hsubject : c.subject t = t := by
    unfold subject
    split
    · next k s hs =>
      rw [cls?, hs] at hcls
      cases hcls
    · exact hplain.resolve_eq
  have hparents : c.parents t = [] := by
    unfold parents
    split
    · next k s hs =>
      rw [cls?, hs] at hcls
      cases hcls
    · unfold declaredParents
      rw [htable]
      split <;> rfl
  have hsearched : c.searched t = t := by rw [searched, hsubject, hplain.resolve_eq]
  have houtward : c.outward t = [] := by
    rw [outward, hparents, htable]
    rfl
  obtain ⟨v, hv, hdescend⟩ := List.exists_of_findSome?_eq_some h
  obtain rfl : v = t := by
    refine forall_mem_preorder (P := (· = t)) (fun a ha b hb => ?_) (fun a ha => ?_) v hv
    · rw [ha, houtward] at hb
      cases hb
    · rw [List.mem_singleton.mp ha, hsearched]
  cases path with
  | nil => exact (Option.some.inj hdescend).symm
  | cons name rest =>
    rw [descend, htable] at hdescend
    cases hdescend

end

end Catalog

end FlowTyping
