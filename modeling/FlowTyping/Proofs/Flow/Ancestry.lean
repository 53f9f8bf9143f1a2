import FlowTyping.Proofs.Catalog.Climbing
import FlowTyping.Proofs.Catalog.Indexing
import FlowTyping.Proofs.Flow.Requests

/-
  Ancestry without circles

  Parents are read off class tables, which a type shares with its
  specializations, and a pointer type with all others. In a layered catalog
  nothing goes back to itself by parents. New types keep it layered, since they
  only mention types that were there; an inclusion keeps it layered if no
  ancestor of the included type shares the class table that is changed
  (`Layered.inclusion`).

  An inclusion is refused if the type itself is among these ancestors, but not
  if another type with its class table is. Such an inclusion evades the check,
  and closes a circle (`Layered.cyclic_of_evades`). Where none did, going up ends
  (`ancestry_ends`).
-/
namespace FlowTyping

open Relation

def ClassTable.relatives (table : ClassTable) : List Ty := table.includes ++ table.superclass.toList

/-- Whether a shape is the template of all pointer types. -/
def Shape.isPointerTemplate : Shape → Bool
  | .pointer none => true
  | _ => false

theorem Shape.eq_of_isPointerTemplate {s : Shape} (h : s.isPointerTemplate = true) :
    s = .pointer none := by
  unfold isPointerTemplate at h
  split at h
  · rfl
  · cases h

theorem Shape.Becomes.cls?_eq {a b : Shape} (h : a.Becomes b) : b.cls? = a.cls? := by
  cases h <;> rfl

namespace Catalog

variable {c c' : Catalog} {t u included : Ty} {s : Shape} {k : ClassHandle}

/-- A catalog without unions and provisional types, in which going up ends. -/
structure Layered (c : Catalog) : Prop where
  orderly : c.Orderly
  plain : c.Plain
  single : ∀ t, t.index < c.size → (c.shape t).isUnion = false
  pointer : c.shape .pointer = .pointer none
  tables : ∀ t k, (c.shape t).cls? = some k → k.index < c.classes.size
  /-- Only types with parents of their own share a class table. -/
  shared : ∀ t u k, (c.shape t).cls? = some k → (c.shape u).cls? = some k →
    t = u ∨ (c.shape t).hasParents = true ∧ (c.shape u).hasParents = true
  relatives : ∀ t, ∀ p ∈ c.declaredParents t, p.index < c.size
  ends : WellFounded fun p t => p ∈ c.declaredParents t

/-! ## Parents in a catalog without provisional types -/

theorem Plain.resolvedShape_eq (h : c.Plain) (t : Ty) : c.resolvedShape t = c.shape t := by
  rw [resolvedShape, h.resolve_eq]

theorem Plain.declaredParents_eq (h : c.Plain) (t : Ty) :
    c.declaredParents t = if (c.shape t).hasParents then
      ((c.shape t).cls?.map fun k => (c.classTable k).relatives).getD [] else [] := by
  rw [declaredParents_eq_if, tableOf, h.cls?_eq, h.resolvedShape_eq, Option.map_map]
  rfl

theorem Plain.declaredParents_of_cls? (h : c.Plain) (hk : (c.shape t).cls? = some k)
    (hparents : (c.shape t).hasParents = true) :
    c.declaredParents t = (c.classTable k).relatives := by
  rw [h.declaredParents_eq, if_pos hparents, hk]
  rfl

theorem Plain.parents_of_metaclass (h : c.Plain) (ht : c.shape t = .metaclass k u) :
    c.parents t = (c.declaredParents u).filterMap c.metaclass? := by
  rw [parents, h.resolvedShape_eq, ht]

theorem Plain.parents_of_not_metaclass (h : c.Plain) (ht : ∀ k u, c.shape t ≠ .metaclass k u) :
    c.parents t = c.declaredParents t := by
  rw [parents, h.resolvedShape_eq]
  split
  · next heq => exact absurd heq (ht _ _)
  · rfl

theorem Plain.declaredParents_of_metaclass (h : c.Plain) (ht : c.shape t = .metaclass k u) :
    c.declaredParents t = [] := by
  rw [h.declaredParents_eq, ht]
  rfl

theorem metaclass?_spec (h : c.metaclass? t = some u) :
    ∃ k, c.shape u = .metaclass k (c.metaclassHolder t) := by
  unfold metaclass? at h
  dsimp only at h
  split at h
  · next k s hs =>
    split at h
    · next heq =>
      cases h
      exact ⟨k, heq ▸ hs⟩
    · cases h
  · cases h

/-- Parents are metaclasses, or parents by declaration. -/
theorem Plain.declaredParents_subset (h : c.Plain) {p : Ty} (hp : p ∈ c.declaredParents t) :
    p ∈ c.parents t := by
  rwa [h.parents_of_not_metaclass fun k u ht => by
    rw [h.declaredParents_of_metaclass ht] at hp
    cases hp]

/-- What leads up to a type that is no metaclass leads up to it by declaration. -/
theorem Plain.reaches_declared (h : c.Plain) (hu : ∀ k v, c.shape u ≠ .metaclass k v)
    (hreach : Reaches c.parents t u) : Reaches c.declaredParents t u := by
  induction hreach using ReflTransGen.head_induction_on with
  | refl => exact .refl
  | @head a b hab _ ih =>
    by_cases hmeta : ∃ k v, c.shape a = .metaclass k v
    · -- a metaclass leads to metaclasses only, and these have no declared parents
      obtain ⟨k, v, hv⟩ := hmeta
      have hab' : b ∈ c.parents a := hab
      rw [h.parents_of_metaclass hv] at hab'
      obtain ⟨p, -, hp⟩ := List.mem_filterMap.mp hab'
      obtain ⟨l, hb⟩ := metaclass?_spec hp
      rcases ih.cases_head with rfl | ⟨d, hd, -⟩
      · exact absurd hb (hu _ _)
      · have hd' : d ∈ c.declaredParents b := hd
        rw [h.declaredParents_of_metaclass hb] at hd'
        cases hd'
    · have hab' : b ∈ c.parents a := hab
      rw [h.parents_of_not_metaclass fun k v hv => hmeta ⟨k, v, hv⟩] at hab'
      exact .head hab' ih

namespace Layered

/-- Types with one class table have the same parents. -/
theorem declaredParents_congr (hc : c.Layered) (ht : (c.shape t).cls? = some k)
    (hu : (c.shape u).cls? = some k) : c.declaredParents t = c.declaredParents u := by
  rcases hc.shared t u k ht hu with rfl | ⟨hpt, hpu⟩
  · rfl
  · rw [hc.plain.declaredParents_of_cls? ht hpt, hc.plain.declaredParents_of_cls? hu hpu]

/-- A metaclass belongs to a type with the same parents. -/
theorem declaredParents_holder (hc : c.Layered) (t : Ty) :
    c.declaredParents (c.metaclassHolder t) = c.declaredParents t := by
  unfold metaclassHolder
  rw [hc.plain.resolve_eq, hc.plain.resolvedShape_eq]
  split
  · next o ho =>
    cases htemplate : o.template with
    | none => rfl
    | some u =>
      obtain ⟨-, o', ho', hcls⟩ := hc.orderly.copies t o u ho htemplate
      refine hc.declaredParents_congr (k := o.cls) ?_ ?_
      · rw [Option.getD_some, ho', Shape.cls?, hcls]
      · rw [ho, Shape.cls?]
  · next pointee hp =>
    refine hc.declaredParents_congr (k := .pointer) ?_ ?_
    · rw [hc.pointer, Shape.cls?]
    · rw [hp, Shape.cls?]
  · rfl

/-- Going up ends for a metaclass as it does for what it belongs to. -/
theorem acc_metaclass (hc : c.Layered) (owner : Ty) : ∀ t k u, c.shape t = .metaclass k u →
    c.declaredParents u = c.declaredParents owner → Acc (fun p t => p ∈ c.parents t) t := by
  induction owner using hc.ends.induction with
  | h owner ih =>
    intro t k u ht heq
    refine Acc.intro t fun v hv => ?_
    rw [hc.plain.parents_of_metaclass ht, heq] at hv
    obtain ⟨p, hp, hmeta⟩ := List.mem_filterMap.mp hv
    obtain ⟨l, hl⟩ := metaclass?_spec hmeta
    exact ih p hp v l _ hl (hc.declaredParents_holder p)

theorem wellFounded (hc : c.Layered) : WellFounded fun p t => p ∈ c.parents t := by
  refine ⟨fun t => ?_⟩
  induction t using hc.ends.induction with
  | h t ih =>
    by_cases hmeta : ∃ k u, c.shape t = .metaclass k u
    · obtain ⟨k, u, hu⟩ := hmeta
      exact hc.acc_metaclass u t k u hu rfl
    · refine Acc.intro t fun p hp => ih p ?_
      rwa [hc.plain.parents_of_not_metaclass fun k u hu => hmeta ⟨k, u, hu⟩] at hp

theorem parents_entered (hc : c.Layered) : ∀ t ∈ c.entered, ∀ p ∈ c.parents t, p ∈ c.entered := by
  intro t _ p hp
  rw [mem_entered]
  by_cases hmeta : ∃ k u, c.shape t = .metaclass k u
  · obtain ⟨k, u, hu⟩ := hmeta
    rw [hc.plain.parents_of_metaclass hu] at hp
    obtain ⟨v, -, hv⟩ := List.mem_filterMap.mp hp
    exact (definite_of_metaclass? hv).1
  · rw [hc.plain.parents_of_not_metaclass fun k u hu => hmeta ⟨k, u, hu⟩] at hp
    exact hc.relatives t p hp

/-- Without unions acceptance goes back to parents alone. -/
theorem climbs_eq (hc : c.Layered) (t : Ty) : c.climbs t = c.parents t := by
  unfold climbs
  rw [hc.plain.resolvedShape_eq]
  split
  · next members hmembers =>
    rcases Nat.lt_or_ge t.index c.size with hlt | hge
    · have := hc.single t hlt
      rw [hmembers] at this
      cases this
    · rw [shape_of_size_le hge] at hmembers
      cases hmembers
      rw [parents, declaredParents, hc.plain.resolvedShape_eq, shape_of_size_le hge]
  · rfl

theorem closed (hc : c.Layered) : c.Closed := by
  intro t ht u hu
  rw [hc.climbs_eq] at hu
  exact hc.parents_entered t ht u hu

end Layered

/-! ## Class tables -/

/-- Only types with parents of their own share a class table. -/
structure Allotted (c : Catalog) : Prop where
  pointer : c.shape .pointer = .pointer none
  tables : ∀ t k, (c.shape t).cls? = some k → k.index < c.classes.size
  shared : ∀ t u k, (c.shape t).cls? = some k → (c.shape u).cls? = some k →
    t = u ∨ (c.shape t).hasParents = true ∧ (c.shape u).hasParents = true

theorem Layered.allotted (hc : c.Layered) : c.Allotted := ⟨hc.pointer, hc.tables, hc.shared⟩

/-- A new type has a new class table of its own. -/
def OwnsTable (c c' : Catalog) (t : Ty) (k : ClassHandle) : Prop :=
  c.classes.size ≤ k.index ∧ k.index < c'.classes.size ∧ ∀ u, (c'.shape u).cls? = some k → t = u

/-- A new type has the class table of a type that was there before. -/
def SharesTable (c c' : Catalog) (t : Ty) (k : ClassHandle) : Prop :=
  (c'.shape t).hasParents = true ∧ ∃ u, (c.shape u).cls? = some k ∧ (c.shape u).hasParents = true

/-- Types are added, each with a class table of its own or that of another one. -/
structure AddsTables (c c' : Catalog) : Prop where
  grows : c.Grows c'
  classes : c.classes.size ≤ c'.classes.size
  tables : ∀ t k, c.size ≤ t.index → (c'.shape t).cls? = some k →
    c.OwnsTable c' t k ∨ c.SharesTable c' t k

namespace AddsTables

theorem cls?_eq (h : c.AddsTables c') (ht : t.index < c.size) :
    (c'.shape t).cls? = (c.shape t).cls? :=
  (h.grows.shape t ht).cls?_eq

theorem hasParents_eq (h : c.AddsTables c') (ht : t.index < c.size) :
    (c'.shape t).hasParents = (c.shape t).hasParents :=
  (h.grows.shape t ht).hasParents_eq

/-- The class table of a new type is its own, or of types with parents of their own. -/
theorem shared_of_new (h : c.AddsTables c') (hc : c.Allotted) (ht : c.size ≤ t.index)
    (htk : (c'.shape t).cls? = some k) (huk : (c'.shape u).cls? = some k) :
    t = u ∨ (c'.shape t).hasParents = true ∧ (c'.shape u).hasParents = true := by
  rcases h.tables t k ht htk with ⟨-, -, hown⟩ | ⟨htp, w, hw, hwp⟩
  · exact .inl (hown u huk)
  · rcases Nat.lt_or_ge u.index c.size with hlt | hge
    · rw [h.cls?_eq hlt] at huk
      rw [h.hasParents_eq hlt]
      rcases hc.shared u w k huk hw with rfl | ⟨hup, -⟩
      · exact .inr ⟨htp, hwp⟩
      · exact .inr ⟨htp, hup⟩
    · rcases h.tables u k hge huk with ⟨-, -, hown⟩ | ⟨hup, -⟩
      · exact .inl (hown t htk).symm
      · exact .inr ⟨htp, hup⟩

end AddsTables

theorem Allotted.grow (hc : c.Allotted) (h : c.AddsTables c') : c'.Allotted where
  pointer := by
    have hpointer : Ty.pointer.index < c.size :=
      lt_size_of_cls? (k := .pointer) (by rw [hc.pointer]; rfl)
    have hb := h.grows.shape _ hpointer
    rw [hc.pointer] at hb
    exact hb.eq_of_pointer
  tables t k hk := by
    rcases Nat.lt_or_ge t.index c.size with hlt | hge
    · exact Nat.lt_of_lt_of_le (hc.tables t k (h.cls?_eq hlt ▸ hk)) h.classes
    · rcases h.tables t k hge hk with ⟨-, hlt, -⟩ | ⟨-, u, hu, -⟩
      · exact hlt
      · exact Nat.lt_of_lt_of_le (hc.tables u k hu) h.classes
  shared t u k ht hu := by
    rcases Nat.lt_or_ge t.index c.size with htlt | htge
    · rcases Nat.lt_or_ge u.index c.size with hult | huge
      · rw [h.cls?_eq htlt] at ht
        rw [h.cls?_eq hult] at hu
        rw [h.hasParents_eq htlt, h.hasParents_eq hult]
        exact hc.shared t u k ht hu
      · exact (h.shared_of_new hc huge hu ht).imp Eq.symm And.symm
    · exact h.shared_of_new hc htge ht hu

/-! ## New types -/

/-- Types are added, and their parents were there before. The class tables that were there keep
their relatives. -/
structure Enlarges (c c' : Catalog) : Prop where
  follows : c.Follows c'
  steady : c.Steady c'
  classes : c.classes.size ≤ c'.classes.size
  kept : ∀ k : ClassHandle, k.index < c.classes.size →
    (c'.classTable k).relatives = (c.classTable k).relatives
  single : ∀ t, c.size ≤ t.index → t.index < c'.size → (c'.shape t).isUnion = false
  tables : ∀ t k, c.size ≤ t.index → (c'.shape t).cls? = some k →
    c.OwnsTable c' t k ∧ (∀ p ∈ (c'.classTable k).relatives, p.index < c.size) ∨
      c.SharesTable c' t k

namespace Enlarges

theorem added (h : c.Enlarges c') : c.AddsTables c' :=
  ⟨h.follows.grows, h.classes, fun t k ht hk => (h.tables t k ht hk).imp_left And.left⟩

theorem plain (h : c.Enlarges c') (hc : c.Layered) : c'.Plain := fun t => by
  cases hp : (c'.shape t).isProvisional with
  | false => rfl
  | true =>
    obtain ⟨p, hp⟩ := Shape.isProvisional_iff.mp hp
    have := hc.plain t
    rw [h.steady t p hp] at this
    cases this

/-- The types that were there keep their parents. -/
theorem declaredParents_eq (h : c.Enlarges c') (hc : c.Layered) (ht : t.index < c.size) :
    c'.declaredParents t = c.declaredParents t := by
  rw [(h.plain hc).declaredParents_eq, hc.plain.declaredParents_eq, h.added.cls?_eq ht,
    h.added.hasParents_eq ht]
  cases hk : (c.shape t).cls? with
  | none => rfl
  | some k => rw [Option.map_some, Option.map_some, h.kept k (hc.tables t k hk)]

/-- The parents of a new type were there before. -/
theorem lt_size_of_declaredParents (h : c.Enlarges c') (hc : c.Layered) (ht : c.size ≤ t.index) :
    ∀ p ∈ c'.declaredParents t, p.index < c.size := by
  intro p hp
  rw [(h.plain hc).declaredParents_eq] at hp
  split at hp
  · cases hk : (c'.shape t).cls? with
    | none => rw [hk] at hp; cases hp
    | some k =>
      rw [hk] at hp
      have hp : p ∈ (c'.classTable k).relatives := hp
      rcases h.tables t k ht hk with ⟨-, hrelatives⟩ | ⟨-, u, hu, hup⟩
      · exact hrelatives p hp
      · rw [h.kept k (hc.tables u k hu), ← hc.plain.declaredParents_of_cls? hu hup] at hp
        exact hc.relatives u p hp
  · cases hp

/-- From a new type one step leads to types that were there, and from there going up ends as it did
before. -/
theorem ends (h : c.Enlarges c') (hc : c.Layered) :
    WellFounded fun p t => p ∈ c'.declaredParents t := by
  have hends : ∀ t, t.index < c.size → Acc (fun p t => p ∈ c'.declaredParents t) t := by
    intro t
    induction t using hc.ends.induction with
    | h t ih =>
      refine fun ht => Acc.intro t fun p hp => ?_
      rw [h.declaredParents_eq hc ht] at hp
      exact ih p hp (hc.relatives t p hp)
  refine ⟨fun t => ?_⟩
  rcases Nat.lt_or_ge t.index c.size with hlt | hge
  · exact hends t hlt
  · exact Acc.intro t fun p hp => hends p (h.lt_size_of_declaredParents hc hge p hp)

end Enlarges

namespace Layered

/-- A layered catalog stays layered when types are added. -/
theorem grow (hc : c.Layered) (h : c.Enlarges c') : c'.Layered where
  orderly := h.follows.orderly hc.orderly
  plain := h.plain hc
  single t ht := by
    rcases Nat.lt_or_ge t.index c.size with hlt | hge
    · rw [(h.follows.grows.shape t hlt).isUnion_eq]
      exact hc.single t hlt
    · exact h.single t hge ht
  pointer := (hc.allotted.grow h.added).pointer
  tables := (hc.allotted.grow h.added).tables
  shared := (hc.allotted.grow h.added).shared
  relatives t p hp := by
    refine Nat.lt_of_lt_of_le ?_ h.follows.grows.size_le
    rcases Nat.lt_or_ge t.index c.size with hlt | hge
    · rw [h.declaredParents_eq hc hlt] at hp
      exact hc.relatives t p hp
    · exact h.lt_size_of_declaredParents hc hge p hp
  ends := h.ends hc

/-- Class tables may change, apart from their relatives, and methods may be added. -/
theorem of_shapes_eq (hc : c.Layered) (hshapes : c'.shapes = c.shapes)
    (hspecializations : c'.specializations = c.specializations)
    (hclasses : c'.classes.size = c.classes.size)
    (htables : ∀ k, (c'.classTable k).relatives = (c.classTable k).relatives) : c'.Layered := by
  have hsize := size_of_shapes_eq hshapes
  refine hc.grow ⟨.of_eq hshapes hspecializations, .of_shapes_eq hshapes, Nat.le_of_eq hclasses.symm,
    fun k _ => htables k, fun t ht hlt => absurd hlt (hsize ▸ Nat.not_lt.mpr ht),
    fun t k ht hk => ?_⟩
  rw [shape_of_shapes_eq hshapes, shape_of_size_le ht] at hk
  cases hk

theorem modifyClass (hc : c.Layered) (k : ClassHandle) {f : ClassTable → ClassTable}
    (hf : ∀ table, (f table).relatives = table.relatives) : (c.modifyClass k f).Layered := by
  refine hc.of_shapes_eq rfl rfl (Array.size_modify ..) fun l => ?_
  rw [classTable_modifyClass]
  split
  · exact hf _
  · rfl

theorem enterName (hc : c.Layered) (scope : Ty) (name : String) (t : Ty) :
    (c.enterName scope name t).Layered := by
  unfold Catalog.enterName
  split
  · exact hc.modifyClass _ fun _ => rfl
  · exact hc

theorem defineMethod (hc : c.Layered) (m : Method) : (c.defineMethod m).2.Layered := by
  have hpushed : Layered { c with methods := c.methods.push m } :=
    hc.of_shapes_eq rfl rfl rfl fun _ => rfl
  unfold Catalog.defineMethod
  dsimp only
  split
  · exact hpushed.modifyClass _ fun _ => rfl
  · exact hpushed

/-- A type may be added with a class table of its own. -/
theorem pushWithTable (hc : c.Layered) (hs : s.cls? = some ⟨c.classes.size⟩)
    (hprovisional : s.isProvisional = false) (hunion : s.isUnion = false)
    (htemplate : s.template? = none) (table : ClassTable)
    (htable : ∀ p ∈ table.relatives, p.index < c.size) :
    Layered { c with shapes := c.shapes.push s, classes := c.classes.push table } := by
  have hshape : ∀ t, shape { c with shapes := c.shapes.push s, classes := c.classes.push table } t =
      if t.index = c.size then s else c.shape t := shape_push c s
  refine hc.grow ⟨(follows_push_plain hunion hprovisional htemplate).trans (.of_eq rfl rfl),
    (Steady.push c hprovisional).trans (.of_shapes_eq rfl), by simp, fun k hk => ?_,
    fun t ht hlt => ?_, fun t k ht hk => ?_⟩
  · have htable := Sound.classTable_push c table k
    rw [if_neg (Nat.ne_of_lt hk)] at htable
    exact congrArg ClassTable.relatives htable
  · have hlt : t.index < c.shapes.size + 1 := Nat.lt_of_lt_of_eq hlt (Array.size_push s)
    have hindex : t.index = c.size := Nat.le_antisymm (Nat.le_of_lt_succ hlt) ht
    rw [hshape, if_pos hindex]
    exact hunion
  · rw [hshape] at hk
    split at hk
    · next hindex =>
      cases hs.symm.trans hk
      refine .inl ⟨⟨Nat.le_refl _, ?_, fun u hu => ?_⟩, fun p hp => ?_⟩
      · exact Nat.lt_of_lt_of_eq (Nat.lt_succ_self _) (Array.size_push table).symm
      · rw [hshape] at hu
        split at hu
        · next husize => exact Ty.eq_of_index (hindex.trans husize.symm)
        · exact absurd (hc.tables u _ hu) (Nat.lt_irrefl _)
      · have hclass := Sound.classTable_push c table ⟨c.classes.size⟩
        rw [if_pos rfl] at hclass
        exact htable p (congrArg ClassTable.relatives hclass ▸ hp)
    · rw [shape_of_size_le ht] at hk
      cases hk

/-- A type may be added with the class table of another one, or without. -/
theorem pushShared (hc : c.Layered) (hf : c.Follows c') (hsteady : c.Steady c')
    (hshapes : c'.shapes = c.shapes.push s) (hclasses : c'.classes = c.classes)
    (hunion : s.isUnion = false)
    (hs : ∀ k, s.cls? = some k → s.hasParents = true ∧
      ∃ u, (c.shape u).cls? = some k ∧ (c.shape u).hasParents = true) : c'.Layered := by
  have hshape : ∀ t, c'.shape t = if t.index = c.size then s else c.shape t := fun t => by
    unfold Catalog.shape
    rw [hshapes]
    exact shape_push c s t
  refine hc.grow ⟨hf, hsteady, Nat.le_of_eq (congrArg Array.size hclasses).symm, fun k _ => ?_,
    fun t ht hlt => ?_, fun t k ht hk => ?_⟩
  · unfold classTable
    rw [hclasses]
  · have hsize : c'.size = c.size + 1 := (congrArg Array.size hshapes).trans (Array.size_push s)
    have hindex : t.index = c.size := by omega
    rw [hshape, if_pos hindex]
    exact hunion
  · rw [hshape] at hk
    split at hk
    · next hindex =>
      refine .inr ⟨?_, (hs k hk).2⟩
      rw [hshape, if_pos hindex]
      exact (hs k hk).1
    · rw [shape_of_size_le ht] at hk
      cases hk

theorem newClassLike (hc : c.Layered) (name : String) {container superclass : Option Ty}
    (hsuper : ∀ u, superclass = some u → u.index < c.size) {shape : ClassHandle → Shape}
    (hshape : ∀ k, (shape k).cls? = some k ∧ (shape k).isProvisional = false ∧
      (shape k).isUnion = false ∧ (shape k).template? = none) :
    (c.newClassLike name container superclass shape).2.Layered := by
  have hpushed := hc.pushWithTable (hshape ⟨c.classes.size⟩).1 (hshape _).2.1 (hshape _).2.2.1
    (hshape _).2.2.2 (.bare name container superclass) fun p hp => by
      simp only [ClassTable.relatives, ClassTable.bare, List.nil_append, Option.mem_toList] at hp
      exact hsuper p hp
  have hentered : (c.enterType (.bare name container superclass) shape).Layered := by
    unfold enterType
    dsimp only
    split
    · exact hpushed.enterName _ _ _
    · exact hpushed
  have hmeta := hentered.pushWithTable (s := .metaclass
    ⟨(c.enterType (.bare name container superclass) shape).classes.size⟩ ⟨c.size⟩) rfl rfl rfl rfl
    (.bare (name ++ ":Class") container none) fun p hp => by cases hp
  exact (hmeta.defineMethod _).defineMethod _

theorem setSlot (hc : c.Layered) (t : Ty) (name : String) (u : Ty) :
    (c.setSlot t name u).Layered := by
  refine hc.grow ⟨follows_setSlot c t name u, steady_setSlot c t name u, ?_, fun k _ => ?_,
    fun v hv hlt => ?_, fun v k hv hk => ?_⟩
  all_goals unfold Catalog.setSlot at *
  · split <;> exact Nat.le_refl _
  · split <;> rfl
  · split at hlt
    · rw [size_setShape] at hlt
      exact absurd hlt (Nat.not_lt.mpr hv)
    · exact absurd hlt (Nat.not_lt.mpr hv)
  · split at hk
    · rw [shape_of_size_le (by rw [size_setShape]; exact hv)] at hk
      cases hk
    · rw [shape_of_size_le hv] at hk
      cases hk

theorem pointerFor (hc : c.Layered) (t : Ty) : (c.pointerFor t).2.Layered := by
  unfold Catalog.pointerFor
  dsimp only
  split
  · exact hc
  · refine hc.pushShared (follows_push_plain rfl rfl rfl) (.push c rfl) rfl rfl rfl
      fun k hk => ⟨rfl, .pointer, ?_⟩
    rw [hc.pointer]
    exact ⟨hk, rfl⟩

/-- The class table of an object may be shared by a copy. -/
theorem shared_copy {o : ObjectShape} {template : Ty} (ho : c.shape template = .object o)
    (bindings : List (String × Ty)) (k : ClassHandle)
    (hk : (Shape.object (copyOf template o bindings)).cls? = some k) :
    (Shape.object (copyOf template o bindings)).hasParents = true ∧
      ∃ u, (c.shape u).cls? = some k ∧ (c.shape u).hasParents = true := by
  refine ⟨rfl, template, ?_⟩
  rw [ho]
  exact ⟨hk, rfl⟩

theorem specialize (hc : c.Layered) (template : Ty) (bindings : List (String × Ty)) :
    (c.specialize template bindings).2.Layered := by
  have hf := follows_specialize c template bindings
  have hsteady := specialize_steady c template bindings
  by_cases hobject : ∃ o, c.shape template = .object o
  · obtain ⟨o, ho⟩ := hobject
    rw [specialize_of_object ho] at hf hsteady ⊢
    exact hc.pushShared hf hsteady rfl rfl rfl (shared_copy ho bindings)
  · unfold Catalog.specialize
    split
    · next o ho => exact absurd ⟨o, ho⟩ hobject
    · exact hc

theorem instantiate (hc : c.Layered) {bindings : List (String × Ty)} {target : Ty}
    (h : c.instantiate t bindings = .ok (target, c')) : c'.Layered := by
  have hf := hc.orderly.follows_instantiate h
  have hsteady := instantiate_steady h
  obtain ⟨template, -, ⟨-, rfl⟩ | ⟨o, ho, -, -, rfl⟩⟩ := hc.orderly.instantiate_ok h
  · exact hc
  · exact hc.pushShared hf hsteady rfl rfl rfl (shared_copy ho _)

theorem newConstant (hc : c.Layered) (name : String) (value : Expr) (container : Ty) :
    (c.newConstant name value container).2.Layered := by
  have hpushed : (c.push (.constant name container value)).2.Layered :=
    hc.pushShared (follows_push_plain rfl rfl rfl) (.push c rfl) rfl rfl rfl fun k hk => by cases hk
  exact hpushed.enterName _ _ _

/-! ## Inclusion -/

/-- What an inclusion that is not refused does. -/
theorem includeMixin_ok (h : c.includeMixin t included = .ok c') :
    c.descendsFrom included t = false ∧ ∃ k, c.cls? t = some k ∧
      c' = c.modifyClass k fun table =>
        if table.includes.contains included then table
        else { table with includes := table.includes ++ [included] } := by
  unfold Catalog.includeMixin at h
  split at h
  · cases h
  · next hno =>
    split at h
    · cases h
    · next k hk =>
      cases h
      exact ⟨Bool.eq_false_iff.mpr hno, k, hk, rfl⟩

/-- An inclusion adds the included type to the parents of all types with the class table, and
nothing else. -/
theorem parents_inclusion (hc : c.Layered) (h : c.includeMixin t included = .ok c') :
    ∃ k, (c.shape t).cls? = some k ∧ c'.Plain ∧
      (∀ v, ∀ p ∈ c'.declaredParents v,
        p ∈ c.declaredParents v ∨ p = included ∧ (c.shape v).cls? = some k) ∧
      (∀ v, ∀ p ∈ c.declaredParents v, p ∈ c'.declaredParents v) ∧
      ∀ v, (c.shape v).cls? = some k → (c.shape v).hasParents = true →
        included ∈ c'.declaredParents v := by
  obtain ⟨-, k, hk, rfl⟩ := includeMixin_ok h
  rw [hc.plain.cls?_eq] at hk
  have hplain : (c.modifyClass k fun table =>
      if table.includes.contains included then table
      else { table with includes := table.includes ++ [included] }).Plain := hc.plain
  generalize hd : (c.modifyClass k fun table =>
      if table.includes.contains included then table
      else { table with includes := table.includes ++ [included] }) = d at hplain ⊢
  have hshape : ∀ v, d.shape v = c.shape v := fun v => by rw [← hd]; rfl
  have htable : ∀ l, ∀ p, p ∈ (d.classTable l).relatives ↔
      p ∈ (c.classTable l).relatives ∨ p = included ∧ l = k := by
    intro l p
    rw [← hd, classTable_modifyClass]
    by_cases hl : l = k
    · subst hl
      rw [if_pos ⟨rfl, hc.tables t l hk⟩]
      split
      · next hin =>
        have hmem : included ∈ (c.classTable l).relatives :=
          List.mem_append_left _ (List.contains_iff_mem.mp hin)
        refine ⟨.inl, fun h => h.elim id fun h => h.1 ▸ hmem⟩
      · simp only [ClassTable.relatives, List.mem_append, List.mem_singleton, and_true]
        exact or_right_comm
    · rw [if_neg fun h => hl h.1]
      simp [hl]
  refine ⟨k, hk, hplain, fun v p hp => ?_, fun v p hp => ?_, fun v hv hhas => ?_⟩
  · rw [hplain.declaredParents_eq, hshape] at hp
    rw [hc.plain.declaredParents_eq]
    split at hp
    · next hhas =>
      rw [if_pos hhas]
      cases hv : (c.shape v).cls? with
      | none => rw [hv] at hp; cases hp
      | some l =>
        rw [hv] at hp
        rcases (htable l p).mp hp with hp | ⟨hp, rfl⟩
        · exact .inl hp
        · exact .inr ⟨hp, rfl⟩
    · cases hp
  · rw [hc.plain.declaredParents_eq] at hp
    rw [hplain.declaredParents_eq, hshape]
    split at hp
    · next hhas =>
      rw [if_pos hhas]
      cases hv : (c.shape v).cls? with
      | none => rw [hv] at hp; cases hp
      | some l =>
        rw [hv] at hp
        exact (htable l p).mpr (.inl hp)
    · cases hp
  · rw [hplain.declaredParents_of_cls? (by rw [hshape]; exact hv) (by rw [hshape]; exact hhas)]
    exact (htable k included).mpr (.inr ⟨rfl, rfl⟩)

/-- What an inclusion is refused for: the type is an ancestor of what it would include. -/
theorem descendsFrom_of_reaches (hc : c.Layered) (hincluded : included.index < c.size)
    (h : Reaches c.parents included t) : c.descendsFrom included t = true := by
  unfold Catalog.descendsFrom
  rw [hc.plain.resolve_eq, hc.plain.resolve_eq, List.contains_iff_mem]
  exact mem_preorder_of_reaches hc.parents_entered (mem_entered.mpr hincluded)
    (by rw [length_entered]; exact Nat.le_succ _) h

/-- An inclusion keeps a catalog layered if no ancestor of what is included, other than the type
itself, has the class table of the type. -/
theorem inclusion (hc : c.Layered) (hincluded : included.index < c.size)
    (h : c.includeMixin t included = .ok c')
    (hother : ∀ u, u ≠ t → c.sameClass t u = true → ¬ Reaches c.parents included u) :
    c'.Layered := by
  obtain ⟨k, hk, hplain, hadded, hkept, hall⟩ := hc.parents_inclusion h
  obtain ⟨hrefused, l, hl, hc'⟩ := includeMixin_ok h
  have hclasses : c'.classes.size = c.classes.size := by rw [hc']; exact Array.size_modify ..
  have hshapes : c'.shapes = c.shapes := by rw [hc']; rfl
  have hshape := shape_of_shapes_eq hshapes
  have hsize := size_of_shapes_eq hshapes
  -- the parents of what is included and of its ancestors are what they were
  have hfree : ∀ v, Reaches c.parents included v → (c.shape v).cls? ≠ some k := by
    intro v hv hcls
    by_cases heq : v = t
    · subst heq
      rw [hc.descendsFrom_of_reaches hincluded hv] at hrefused
      cases hrefused
    · refine hother v heq ?_ hv
      rw [sameClass, hc.plain.cls?_eq, hc.plain.cls?_eq, hk, hcls]
      exact beq_self_eq_true k
  have habove : ∀ v, Reaches c.parents included v → Acc (fun p t => p ∈ c'.declaredParents t) v := by
    intro v
    induction v using hc.ends.induction with
    | h v ih =>
      refine fun hv => Acc.intro v fun p hp => ?_
      have hp := (hadded v p hp).resolve_right fun h => hfree v hv h.2
      exact ih p hp (hv.tail (hc.plain.declaredParents_subset hp))
  refine ⟨(follows_includeMixin h).orderly hc.orderly, hplain, fun v hv => ?_, ?_, fun v l hv => ?_,
    fun v w l hv hw => ?_, fun v p hp => ?_, ⟨fun v => ?_⟩⟩
  · rw [hshape]
    exact hc.single v (hsize ▸ hv)
  · rw [hshape]
    exact hc.pointer
  · rw [hclasses]
    exact hc.tables v l (hshape v ▸ hv)
  · rw [hshape] at hv hw ⊢
    rw [hshape]
    exact hc.shared v w l hv hw
  · rw [hsize]
    exact (hadded v p hp).elim (hc.relatives v p) fun h => h.1 ▸ hincluded
  · induction v using hc.ends.induction with
    | h v ih =>
      refine Acc.intro v fun p hp => ?_
      exact (hadded v p hp).elim (ih p) fun h => h.1 ▸ habove included .refl

/-- Any other inclusion closes a circle. -/
theorem cyclic_of_evades (hc : c.Layered) (h : c.includeMixin t included = .ok c')
    (hother : u ≠ t) (hsame : c.sameClass t u = true) (hreach : Reaches c.parents included u) :
    TransGen (fun t p => p ∈ c'.parents t) included included := by
  obtain ⟨k, hk, hplain, -, hkept, hall⟩ := hc.parents_inclusion h
  have hu : (c.shape u).cls? = some k := by
    rw [sameClass, hc.plain.cls?_eq, hc.plain.cls?_eq, hk] at hsame
    split at hsame
    · next a b ha hb =>
      rw [hb, ← eq_of_beq hsame, ha]
    · cases hsame
  have hhas : (c.shape u).hasParents = true :=
    ((hc.shared u t k hu hk).resolve_left hother).1
  have hup : Reaches c'.declaredParents included u :=
    ReflTransGen.mono (fun v p hp => hkept v p hp) _ _
      (hc.plain.reaches_declared (fun l v hv => by rw [hv] at hhas; cases hhas) hreach)
  have hback : TransGen (fun t p => p ∈ c'.declaredParents t) included included :=
    TransGen.tail' hup (hall u hu hhas)
  exact TransGen.mono (fun v p hp => hplain.declaredParents_subset hp) _ _ hback

end Layered

/-- The superclass of a built-in type comes before it. -/
theorem layered_seeded : seeded.Layered := by
  have hbefore : ∀ i < seeded.size, ∀ p ∈ seeded.declaredParents ⟨i⟩, p.index < i := by
    decide +kernel
  have hplain := elementary_seeded.plain
  have hpointer : seeded.shape .pointer = .pointer none :=
    Shape.eq_of_isPointerTemplate (by decide +kernel)
  have hparent : ∀ t, ∀ p ∈ seeded.declaredParents t, p.index < t.index := by
    intro t p hp
    rcases Nat.lt_or_ge t.index seeded.size with hlt | hge
    · exact hbefore t.index hlt p hp
    · rw [hplain.declaredParents_eq, shape_of_size_le hge] at hp
      cases hp
  refine ⟨Store.orderly_of_elementary elementary_seeded, hplain, fun t ht => ?_, hpointer,
    tabled_seeded.entered, fun t u k ht hu => .inl (tabled_seeded.own t u k ht hu), fun t p hp => ?_,
    Subrelation.wf (fun {p t} hp => hparent t p hp) (measure Ty.index).wf⟩
  · cases hs : (seeded.shape t).isUnion with
    | false => rfl
    | true =>
      cases hshape : seeded.shape t with
      | union members => exact absurd hshape (elementary_seeded.not_union ht members)
      | _ => rw [hshape] at hs; cases hs
  · rcases Nat.lt_or_ge t.index seeded.size with hlt | hge
    · exact Nat.lt_trans (hparent t p hp) hlt
    · rw [hplain.declaredParents_eq, shape_of_size_le hge] at hp
      cases hp

/-! ## Sequences of requests -/

/-- An inclusion evades its check if an ancestor of what is included has the class table of the
type, but is not the type itself. -/
def Evades (c : Catalog) : Request → Prop
  | .inclusion t included =>
    ∃ u, u ≠ t ∧ c.sameClass t u = true ∧ Reaches c.parents included u
  | _ => False

/-- No type is among its own ancestors. -/
def Acyclic (c : Catalog) : Prop := ∀ t, ¬ TransGen (fun t p => p ∈ c.parents t) t t

theorem Layered.acyclic (hc : c.Layered) : c.Acyclic := fun _ => not_reaches_self hc.wellFounded

theorem Layered.defineFields (hc : c.Layered) (t : Ty) (fields : List (String × Ty)) :
    (fields.foldl (defineField t) c).Layered :=
  List.foldlRecOn fields _ hc fun _ hd _ _ => (hd.defineMethod _).defineMethod _

theorem Layered.perform (hc : c.Layered) {r : Request} (hmerge : ∀ ts, r ≠ .merge ts)
    (hr : c.Knows r) (hevades : ¬ c.Evades r) : (c.perform r).Layered := by
  cases r with
  | mixin name container =>
    exact hc.newClassLike name (fun _ h => by cases h) fun _ => ⟨rfl, rfl, rfl, rfl⟩
  | primitive name superclass width container =>
    refine hc.newClassLike name (fun u hu => ?_) fun _ => ⟨rfl, rfl, rfl, rfl⟩
    obtain rfl : superclass = u := Option.some.inj hu
    exact hr superclass List.mem_cons_self
  | object name superclass container generic =>
    have hsuper : ∀ u, superclass = some u → u.index < c.size := fun u hu =>
      hr u (List.mem_append_left _ (Option.mem_toList.mpr hu))
    show (c.newObject name superclass container generic).2.Layered
    rw [newObject_eq]
    exact (hc.newClassLike name hsuper fun _ => ⟨rfl, rfl, rfl, rfl⟩).defineMethod _
  | record name fields container =>
    show (c.newRecord name (.ofList fields) container).2.Layered
    rw [newRecord_eq]
    exact ((hc.newClassLike name (fun _ h => by cases h) fun _ =>
      ⟨rfl, rfl, rfl, rfl⟩).defineFields _ _).defineMethod _
  | constant name value container => exact hc.newConstant name value container
  | name scope name t => exact hc.enterName scope name t
  | method m => exact hc.defineMethod m
  | inclusion t included =>
    show ((c.includeMixin t included).toOption.getD c).Layered
    cases h : c.includeMixin t included with
    | error e => exact hc
    | ok c' =>
      have hincluded : included.index < c.size :=
        hr included (List.mem_cons_of_mem _ List.mem_cons_self)
      exact hc.inclusion hincluded h fun u hne hsame hreach => hevades ⟨u, hne, hsame, hreach⟩
  | slot t name u => exact hc.setSlot t name u
  | merge ts => exact absurd rfl (hmerge ts)
  | pointer t => exact hc.pointerFor t
  | copy template bindings => exact hc.specialize template bindings
  | specialization t bindings =>
    show (((c.instantiate t bindings).toOption.map (·.2)).getD c).Layered
    cases h : c.instantiate t bindings with
    | error e => exact hc
    | ok made => exact hc.instantiate h

/-- What a hierarchy is made by, without inclusions that evade their check. -/
def Plainly (c : Catalog) (r : Request) : Prop :=
  (∀ ts, r ≠ .merge ts) ∧ c.Knows r ∧ ¬ c.Evades r

theorem Reached.layered (h : c.Reached Plainly) : c.Layered := by
  induction h with
  | start => exact layered_seeded
  | step _ r hr ih => exact ih.perform hr.1 hr.2.1 hr.2.2

/-- In a hierarchy that is made by declarations, names, specializations, pointer types and
inclusions of entered types, none of which evades its check, no type is among its own ancestors.
Acceptance and selection go back to parents again and again, and that ends: what they give is what
plain recursion over the parents gives. Of the next inclusions exactly those that evade the check
close a circle. -/
theorem ancestry_ends (h : c.Reached Plainly) :
    c.Acyclic ∧ (WellFounded fun u t => u ∈ c.climbs t) ∧
      (∀ r t, c.accepts r t = (c.resolve r == c.resolve t ||
        if (c.resolvedShape t).isUnion then (c.climbs t).all (c.accepts r)
        else c.sameClass r t || (c.climbs t).any (c.accepts r))) ∧
      (∀ owner q, owner.index < c.size → c.select owner q =
        Verdict.orElse (c.found q [owner])
          (if q.name = "new" ∧ c.isMeta q.receiver then .error .undefined
            else (c.parents owner).foldr (fun p rest => Verdict.orElse (c.select p q) rest)
              (.error .undefined))) ∧
      ∀ t included c', included.index < c.size → c.includeMixin t included = .ok c' →
        (c'.Acyclic ↔ ¬ c.Evades (.inclusion t included)) := by
  have hc := h.layered
  have hclimbs : (fun u t => u ∈ c.climbs t) = fun p t => p ∈ c.parents t := by
    funext u t
    rw [hc.climbs_eq]
  refine ⟨hc.acyclic, hclimbs ▸ hc.wellFounded, hc.closed.accepts_eq, fun owner q howner => ?_,
    fun t included c' hincluded hok => ⟨fun hacyclic hevades => ?_, fun hevades => ?_⟩⟩
  · exact select_eq_climbing hc.parents_entered (fun _ => hc.plain.resolve_eq) hc.wellFounded howner
  · obtain ⟨u, hother, hsame, hreach⟩ := hevades
    exact hacyclic included (hc.cyclic_of_evades hok hother hsame hreach)
  · exact (hc.inclusion hincluded hok fun u hother hsame hreach =>
      hevades ⟨u, hother, hsame, hreach⟩).acyclic

theorem ancestry_ends_included :
    let named := seeded.perform (.mixin "Named" (some .main))
    let copied := named.perform (.copy .array [])
    let c := copied.perform (.inclusion ⟨38⟩ ⟨36⟩)
    c.Reached Plainly ∧ c.parents .array = [⟨36⟩, .object] ∧ c.Acyclic ∧
      WellFounded fun u t => u ∈ c.climbs t := by
  intro named copied c
  have hparents : c.parents .array = [⟨36⟩, .object] := by decide +kernel
  have hknown : seeded.Knows (.mixin "Named" (some .main)) ∧ named.Knows (.copy .array []) ∧
      copied.Knows (.inclusion ⟨38⟩ ⟨36⟩) := by decide +kernel
  have hevades : ¬ copied.Evades (.inclusion ⟨38⟩ ⟨36⟩) := by
    rintro ⟨u, -, hsame, hreach⟩
    have hnone : copied.parents ⟨36⟩ = [] := by decide +kernel
    rcases hreach.cases_head with rfl | ⟨v, hv, -⟩
    · have hother : copied.sameClass ⟨38⟩ ⟨36⟩ = false := by decide +kernel
      rw [hother] at hsame
      cases hsame
    · have hv : v ∈ copied.parents ⟨36⟩ := hv
      rw [hnone] at hv
      cases hv
  have hreached : c.Reached Plainly :=
    .step (.step (.step .start _ ⟨fun _ h => by (cases h), hknown.1, fun h => h.elim⟩) _
      ⟨fun _ h => by (cases h), hknown.2.1, fun h => h.elim⟩) _
      ⟨fun _ h => by (cases h), hknown.2.2, hevades⟩
  exact ⟨hreached, hparents, (ancestry_ends hreached).1, (ancestry_ends hreached).2.1⟩

/-- An inclusion into a copy of `Array` changes the class table of `Array`, and is not refused if it
is `Array` that is included. -/
theorem ancestry_circles :
    let c := (seeded.perform (.copy .array [])).perform (.inclusion ⟨36⟩ .array)
    (c.Reached fun c r => (∀ ts, r ≠ .merge ts) ∧ c.Knows r) ∧
      c.parents .array = [.array, .object] ∧ ¬ c.Acyclic ∧
      ¬ WellFounded fun u t => u ∈ c.climbs t := by
  intro c
  have hparents : c.parents .array = [.array, .object] := by decide +kernel
  have hclimbs : Ty.array ∈ c.climbs .array := by decide +kernel
  have hknown : seeded.Knows (.copy .array []) ∧
      (seeded.perform (.copy .array [])).Knows (.inclusion ⟨36⟩ .array) := by decide +kernel
  refine ⟨.step (.step .start _ ⟨fun _ h => by (cases h), hknown.1⟩) _
    ⟨fun _ h => by (cases h), hknown.2⟩, hparents, fun hacyclic => ?_, fun hwf => ?_⟩
  · have hloop : Ty.array ∈ c.parents .array := by rw [hparents]; exact List.mem_cons_self
    exact hacyclic .array (.single hloop)
  · exact not_reaches_self hwf (.single hclimbs)

end Catalog

end FlowTyping
