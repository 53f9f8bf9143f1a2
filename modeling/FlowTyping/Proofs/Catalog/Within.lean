import FlowTyping.Inference.Declare
import FlowTyping.Inference.Dispatch
import FlowTyping.Proofs.Arenas
import FlowTyping.Proofs.Catalog.Callable
import FlowTyping.Proofs.Catalog.Declarations
import FlowTyping.Proofs.Preorder

/-
  Handles that a catalog stores

  A catalog stores handles in its shapes, class tables and methods, in the table
  of specializations and in the list of built-in types. It is within some arenas
  if all of these are below their lengths (`Catalog.Within`). The nodes that
  provisional types speak of stand outside of the catalog, and so their arena is
  not one of its own.

  What a catalog within some arenas is asked for types that are below the length
  of theirs, it answers with handles that are below the lengths of theirs again.
-/
namespace FlowTyping

/-! ## The handles that parts of a catalog store -/

/-- The type that a standing leads to. -/
def Standing.type : Standing → Ty
  | .pending t | .settled t | .superseded t => t

/-- The handles of a provisional type besides its template. -/
def Provisional.handles (p : Provisional) : List Handle :=
  .type p.standing.type :: .node p.holder :: p.observed.map fun binding => .node binding.2

def Shape.flowHandles : Shape → List Handle
  | .provisional p => p.handles
  | _ => []

def Shape.handles (s : Shape) : List Handle :=
  s.cls?.toList.map .cls ++ s.types.map .type ++ s.flowHandles

def MethodTable.ids (table : MethodTable) : List MethodHandle :=
  table.entries.flatMap fun entry => entry.2.entries.map (·.2)

def ClassTable.handles (table : ClassTable) : List Handle :=
  table.mentioned.map .type ++ (MethodTable.ids table.methods).map .method

/-- The handles in what a method is called with. -/
def Method.handles (m : Method) : List Handle :=
  (m.owner :: restrictedTypes (m.parameters.map (·.restriction))).map .type

/-- The handles of one entry of the table of specializations. -/
def specializationHandles (entry : (Ty × List (String × Ty)) × Ty) : List Handle :=
  .type entry.1.1 :: .type entry.2 :: entry.1.2.map fun binding => .type binding.2

namespace Catalog

/-- The handles in the entries of a catalog are below the lengths of some arenas. -/
structure StoresEntries (c : Catalog) (a : Arenas) : Prop where
  shapes : ∀ s ∈ c.shapes, a.Stores s.handles
  classes : ∀ table ∈ c.classes, a.Stores table.handles
  methods : ∀ m ∈ c.methods, a.Stores m.handles
  specializations : ∀ entry ∈ c.specializations.entries, a.Stores (specializationHandles entry)

/-- All handles that a catalog stores are below the lengths of some arenas. The results of builtin
methods are types that are built in, and all pointer types have one class table. -/
structure Within (c : Catalog) (a : Arenas) : Prop extends c.StoresEntries a where
  results : ∀ m ∈ c.methods, ∀ t ∈ m.body.types, t.index < a.types
  builtins : ∀ builtin ∈ Ty.builtins, builtin.2.index < a.types
  pointer : ClassHandle.pointer.index < a.classes

variable {c : Catalog} {a b : Arenas} {s : Shape} {t u : Ty} {table : ClassTable} {m : Method}

namespace Within

theorem mono (hle : a ≤ b) (h : c.Within a) : c.Within b where
  shapes s hs := (h.shapes s hs).mono hle
  classes table htable := (h.classes table htable).mono hle
  methods m hm := (h.methods m hm).mono hle
  specializations entry hentry := (h.specializations entry hentry).mono hle
  results m hm t ht := Nat.lt_of_lt_of_le (h.results m hm t ht) hle.types
  builtins builtin hbuiltin := Nat.lt_of_lt_of_le (h.builtins builtin hbuiltin) hle.types
  pointer := Nat.lt_of_lt_of_le h.pointer hle.classes

/-! ## Reading entries -/

theorem shape (h : c.Within a) (t : Ty) : a.Stores (c.shape t).handles := by
  rcases shape_mem_or_default c t with hmem | hle
  · exact h.shapes _ (Array.mem_def.mpr hmem)
  · rw [shape_of_size_le hle]
    simp [Shape.handles, Shape.cls?, Shape.types, Shape.flowHandles]

theorem lt_of_types (h : c.Within a) (hu : u ∈ (c.shape t).types) : u.index < a.types := by
  have hshape := h.shape t
  simp only [Shape.handles, Arenas.stores_append, Arenas.stores_map] at hshape
  exact hshape.1.2 u hu

theorem lt_of_cls (h : c.Within a) {k : ClassHandle} (hk : (c.shape t).cls? = some k) :
    k.index < a.classes := by
  have hshape := h.shape t
  simp only [Shape.handles, Arenas.stores_append, Arenas.stores_map] at hshape
  exact hshape.1.1 k (by simp [hk])

theorem provisional (h : c.Within a) {p : Provisional} (hp : c.shape t = .provisional p) :
    a.Stores p.handles := by
  have hshape := h.shape t
  rw [hp] at hshape
  simp only [Shape.handles, Arenas.stores_append] at hshape
  exact hshape.2

theorem classTable (h : c.Within a) (k : ClassHandle) : a.Stores (c.classTable k).handles := by
  unfold Catalog.classTable
  cases hk : c.classes[k.index]? with
  | none => simp [default, ClassTable.handles, ClassTable.mentioned, ClassTable.bare, Table.empty,
      MethodTable.types, MethodTable.ids]
  | some table => exact h.classes table (Array.mem_of_getElem? hk)

theorem mentioned (h : c.Within a) {k : ClassHandle} (hu : u ∈ (c.classTable k).mentioned) :
    u.index < a.types := by
  have htable := h.classTable k
  simp only [ClassTable.handles, Arenas.stores_append, Arenas.stores_map] at htable
  exact htable.1 u hu

theorem builtin (h : c.Within a) (ht : t ∈ Ty.builtins.map (·.2)) : t.index < a.types := by
  obtain ⟨builtin, hbuiltin, rfl⟩ := List.mem_map.mp ht
  exact h.builtins builtin hbuiltin

theorem stores_method : a.Stores m.handles ∧ (∀ t ∈ m.body.types, t.index < a.types) ↔
    ∀ t ∈ m.types, t.index < a.types := by
  simp only [Method.handles, Method.types, Arenas.stores_map, Arenas.holds_type, List.cons_append,
    List.forall_mem_cons, List.forall_mem_append, and_assoc]

theorem lt_of_method (h : c.Within a) {id : MethodHandle} (ht : t ∈ (c.method id).types) :
    t.index < a.types := by
  unfold Catalog.method at ht
  cases hid : c.methods[id.index]? with
  | none =>
    rw [hid] at ht
    obtain rfl | rfl : t = .main ∨ t = .nil := by
      simpa [default, Method.types, Body.types, Builtin.types, restrictedTypes] using ht
    · exact h.builtin (by decide)
    · exact h.builtin (by decide)
  | some m =>
    rw [hid] at ht
    have hmem := Array.mem_of_getElem? hid
    exact stores_method.mp ⟨h.methods m hmem, h.results m hmem⟩ t ht

/-! ## What types stand for -/

theorem lt_resolveWithin (h : c.Within a) (bound : Nat) (ht : t.index < a.types) :
    (c.resolveWithin bound t).index < a.types := by
  induction bound generalizing t with
  | zero => exact ht
  | succ bound ih =>
    unfold resolveWithin
    split
    · next p hp =>
      have hstands : p.standing.type.index < a.types := by
        have hhandles := h.provisional hp
        simp only [Provisional.handles, Arenas.stores_cons, Arenas.holds_type] at hhandles
        exact hhandles.1
      split
      · next hst => rwa [hst] at hstands
      · next hst => rwa [hst] at hstands
      · next hst => rw [hst] at hstands; exact ih hstands
    · exact ht

theorem lt_resolve (h : c.Within a) (ht : t.index < a.types) : (c.resolve t).index < a.types :=
  h.lt_resolveWithin _ ht

theorem lt_of_members (h : c.Within a) (ht : t.index < a.types) (hu : u ∈ c.members t) :
    u.index < a.types := by
  unfold members at hu
  split at hu
  · next ms hms =>
    apply h.lt_of_types (t := c.resolve t)
    rw [show c.shape (c.resolve t) = _ from hms]
    exact hu
  · obtain rfl := List.mem_singleton.mp hu
    exact h.lt_resolve ht

theorem lt_of_nilablePart (h : c.Within a) (hu : c.nilablePart t = some u) :
    u.index < a.types := by
  unfold nilablePart at hu
  split at hu
  · next l r hunion =>
    apply h.lt_of_types (t := c.resolve t)
    rw [show c.shape (c.resolve t) = _ from hunion]
    split at hu
    · cases hu
      simp [Shape.types]
    · split at hu
      · cases hu
        simp [Shape.types]
      · cases hu
  · cases hu

theorem lt_of_slot? (h : c.Within a) {name : String} (hu : c.slot? t name = some (some u)) :
    u.index < a.types := by
  have hmem := Table.mem_of_get? hu
  unfold slots at hmem
  apply h.lt_of_types (t := c.resolve t)
  split at hmem
  · next o ho =>
    rw [show c.shape (c.resolve t) = _ from ho]
    exact List.mem_append_left _ (List.mem_flatMap.mpr ⟨_, hmem, by simp⟩)
  · next k fields hfields =>
    rw [show c.shape (c.resolve t) = _ from hfields]
    obtain ⟨field, hfield, heq⟩ := List.mem_map.mp hmem
    simp only [Prod.mk.injEq, Option.some.injEq] at heq
    exact List.mem_map.mpr ⟨field, hfield, heq.2⟩
  · cases hmem

theorem lt_of_pointee? (h : c.Within a) (hu : c.pointee? t = some u) : u.index < a.types := by
  unfold pointee? at hu
  split at hu
  · next pointee hpointer =>
    apply h.lt_of_types (t := c.resolve t)
    rw [show c.shape (c.resolve t) = _ from hpointer]
    simp [Shape.types, hu]
  · cases hu

theorem lt_subject (h : c.Within a) (ht : t.index < a.types) : (c.subject t).index < a.types := by
  unfold subject
  split
  · next k subject hmeta =>
    apply h.lt_of_types (t := c.resolve t)
    rw [show c.shape (c.resolve t) = _ from hmeta]
    simp [Shape.types]
  · exact h.lt_resolve ht

theorem lt_of_templateOf (h : c.Within a) (ht : t.index < a.types) (hu : c.templateOf t = some u) :
    u.index < a.types := by
  unfold templateOf at hu
  split at hu
  · next o ho =>
    cases htemplate : o.template with
    | none =>
      rw [htemplate, Option.none_or] at hu
      split at hu
      · cases hu
        exact h.lt_resolve ht
      · cases hu
    | some template =>
      rw [htemplate, Option.some_or] at hu
      cases hu
      apply h.lt_of_types (t := c.resolve t)
      rw [show c.shape (c.resolve t) = _ from ho]
      simp [Shape.types, htemplate]
  · cases hu

/-! ## Ancestors and names -/

theorem lt_of_tableOf (h : c.Within a) (htable : c.tableOf t = some table)
    (hu : u ∈ table.mentioned) : u.index < a.types := by
  obtain ⟨k, -, rfl⟩ := Option.map_eq_some_iff.mp htable
  exact h.mentioned hu

theorem lt_of_declaredParents (h : c.Within a) (hu : u ∈ c.declaredParents t) :
    u.index < a.types := by
  have hparents : ∀ table, c.tableOf t = some table →
      u ∈ table.includes ++ table.superclass.toList → u.index < a.types := by
    intro table htable hu
    apply h.lt_of_tableOf htable
    simp only [ClassTable.mentioned, List.mem_append] at hu ⊢
    exact hu.elim (fun hu => .inl (.inl (.inr hu))) fun hu => .inl (.inl (.inl (.inr hu)))
  unfold declaredParents at hu
  split at hu
  case h_5 => cases hu
  all_goals
    split at hu
    · next table htable => exact hparents table htable hu
    · cases hu

theorem lt_of_metaclass? (hsize : c.size ≤ a.types) (hu : c.metaclass? t = some u) :
    u.index < a.types := by
  have hlt : u.index < c.size := by
    unfold metaclass? at hu
    dsimp only at hu
    split at hu
    · next k subject hmeta =>
      split at hu
      · cases hu
        refine Nat.lt_of_not_le fun hle => ?_
        rw [shape_of_size_le hle] at hmeta
        cases hmeta
      · cases hu
    · cases hu
  omega

theorem lt_of_parents (h : c.Within a) (hsize : c.size ≤ a.types) (hu : u ∈ c.parents t) :
    u.index < a.types := by
  unfold parents at hu
  split at hu
  · obtain ⟨p, -, hp⟩ := List.mem_filterMap.mp hu
    exact lt_of_metaclass? hsize hp
  · exact h.lt_of_declaredParents hu

theorem lt_of_nestedType (h : c.Within a) {scope : Ty} {name : String}
    (hu : c.nestedType scope name = some u) : u.index < a.types := by
  obtain ⟨table, htable, hget⟩ := Option.bind_eq_some_iff.mp hu
  apply h.lt_of_tableOf htable
  simp only [ClassTable.mentioned, List.mem_append, List.mem_map]
  exact .inl (.inr ⟨_, Table.mem_of_get? hget, rfl⟩)

theorem lt_of_descend (h : c.Within a) {path : List String} (ht : t.index < a.types)
    (hu : c.descend path t = some u) : u.index < a.types := by
  induction path generalizing t with
  | nil =>
    cases hu
    exact ht
  | cons name rest ih =>
    unfold descend at hu
    split at hu
    · next nested hnested => exact ih (h.lt_of_nestedType hnested) hu
    · cases hu

theorem lt_searched (h : c.Within a) (ht : t.index < a.types) : (c.searched t).index < a.types :=
  h.lt_resolve (h.lt_subject ht)

theorem lt_of_outward (h : c.Within a) (hsize : c.size ≤ a.types) (hu : u ∈ c.outward t) :
    u.index < a.types := by
  unfold outward at hu
  obtain ⟨p, hp, rfl⟩ := List.mem_map.mp hu
  apply h.lt_searched
  rcases List.mem_append.mp hp with hp | hp
  · exact h.lt_of_parents hsize hp
  · obtain ⟨table, htable, hcontainer⟩ := Option.bind_eq_some_iff.mp (Option.mem_toList.mp hp)
    apply h.lt_of_tableOf htable
    simp [ClassTable.mentioned, hcontainer]

/-- What a path leads to is entered, if the search for it begins at an entered type. -/
theorem lt_of_find (h : c.Within a) (hsize : c.size ≤ a.types) {path : List String}
    (ht : t.index < a.types) (hu : c.find path t = some u) : u.index < a.types := by
  obtain ⟨start, hstart, hdescend⟩ := List.exists_of_findSome?_eq_some hu
  refine h.lt_of_descend ?_ hdescend
  refine forall_mem_preorder (P := fun t => t.index < a.types) (fun t _ u hu => ?_)
    (fun u hu => ?_) start hstart
  · exact h.lt_of_outward hsize hu
  · obtain rfl := List.mem_singleton.mp hu
    exact h.lt_searched ht

/-! ## Overloads -/

theorem lt_of_ids (h : c.Within a) (htable : c.tableOf t = some table) {id : MethodHandle}
    (hid : id ∈ MethodTable.ids table.methods) : id.index < a.methods := by
  obtain ⟨k, -, rfl⟩ := Option.map_eq_some_iff.mp htable
  have hstores := h.classTable k
  simp only [ClassTable.handles, Arenas.stores_append, Arenas.stores_map] at hstores
  exact hstores.2 id hid

theorem mem_ids_of_definitions {overloads : Table MethodKey MethodHandle} {keep : MethodKey → Bool}
    {id : MethodHandle} (hid : id ∈ definitions overloads keep) :
    id ∈ overloads.entries.map (·.2) := by
  unfold definitions at hid
  obtain ⟨entry, hentry, rfl⟩ := List.mem_map.mp (List.mem_eraseDups.mp hid)
  exact List.mem_map.mpr ⟨entry, (List.mem_filter.mp hentry).1, rfl⟩

/-- What a table says to a call is about its own definitions. -/
theorem mem_ids_of_selectAmong {q : Query} {overloads : Table MethodKey MethodHandle}
    {id : MethodHandle} (h : c.selectAmong q overloads = .ok id ∨
      ∃ miss, c.selectAmong q overloads = .error miss ∧ id ∈ miss.candidates) :
    id ∈ overloads.entries.map (·.2) := by
  unfold selectAmong at h
  split at h
  · obtain h | ⟨miss, hmiss, hid⟩ := h
    · cases h
    · cases hmiss
      simp only [Miss.candidates] at hid
      split at hid <;> exact mem_ids_of_definitions hid
  · next applicable happlicable =>
    have hminimal : ∀ id ∈ c.mostSpecific q.receiver (definitions overloads (c.fits q)),
        id ∈ overloads.entries.map (·.2) :=
      fun id hid => mem_ids_of_definitions (List.mem_filter.mp hid).1
    split at h
    · next best hbest =>
      obtain h | ⟨miss, hmiss, hid⟩ := h
      · cases h
        exact hminimal _ (by simp [hbest])
      · cases hmiss
    · obtain h | ⟨miss, hmiss, hid⟩ := h
      · cases h
      · cases hmiss
        exact mem_ids_of_definitions hid
    · obtain h | ⟨miss, hmiss, hid⟩ := h
      · cases h
      · cases hmiss
        exact hminimal id hid

theorem exists_verdict_of_error {verdicts : List (Except Miss MethodHandle)} {miss : Miss}
    (h : firstSelected verdicts = .error miss) : miss = .undefined ∨ .error miss ∈ verdicts := by
  cases verdicts with
  | nil =>
    cases h
    exact .inl rfl
  | cons verdict rest =>
    cases verdict with
    | ok m => cases h
    | error first =>
      unfold firstSelected at h
      split at h
      · cases h
      · cases h
        exact .inr List.mem_cons_self

/-- A definition that is selected, or shown because none is, has been declared. -/
theorem lt_of_select (h : c.Within a) {owner : Ty} {q : Query} {id : MethodHandle}
    (hid : c.select owner q = .ok id ∨
      ∃ miss, c.select owner q = .error miss ∧ id ∈ miss.candidates) : id.index < a.methods := by
  have hverdict : ∃ verdict ∈ c.verdicts owner q, verdict = .ok id ∨
      ∃ miss, verdict = .error miss ∧ id ∈ miss.candidates := by
    obtain hok | ⟨miss, hmiss, hid⟩ := hid
    · exact ⟨_, mem_of_firstSelected hok, .inl rfl⟩
    · rcases exists_verdict_of_error hmiss with rfl | hmem
      · cases hid
      · exact ⟨_, hmem, .inr ⟨miss, rfl, hid⟩⟩
  obtain ⟨verdict, hmem, hsays⟩ := hverdict
  obtain ⟨t, -, hsaid⟩ := List.mem_filterMap.mp hmem
  obtain ⟨overloads, hoverloads, rfl⟩ := Option.map_eq_some_iff.mp hsaid
  obtain ⟨table, htable, hget⟩ := Option.bind_eq_some_iff.mp hoverloads
  apply h.lt_of_ids htable
  exact List.mem_flatMap.mpr ⟨_, Table.mem_of_get? hget, mem_ids_of_selectAmong hsays⟩

/-! ## Paths and builtin methods -/

section
variable {scope owner : Ty} {place : Place} {arguments : List Ty}

theorem lt_of_lookUp (h : c.Within a) (hsize : c.size ≤ a.types) (hscope : scope.index < a.types)
    {path : List String} {what : Sought} (ht : c.lookUp path scope what place = .ok t) : t.index < a.types := by
  unfold Catalog.lookUp at ht
  split at ht
  · next u hu =>
    cases ht
    exact h.lt_of_find hsize hscope hu
  · cases ht

theorem lt_of_writtenType (h : c.Within a) (hsize : c.size ≤ a.types)
    (hscope : scope.index < a.types) {written : TypeName} {receiver : Option Ty} (hreceiver : ∀ u, receiver = some u → u.index < a.types)
    (ht : c.writtenType written scope receiver place = .ok t) : t.index < a.types := by
  unfold Catalog.writtenType at ht
  split at ht
  · exact h.lt_of_lookUp hsize hscope ht
  · cases ht
    exact hreceiver t rfl
  · cases ht

theorem lt_of_declared (h : c.Within a) {name : String} (ht : c.declared scope name = .ok t) :
    t.index < a.types := by
  unfold Catalog.declared at ht
  split at ht
  · next u hu =>
    cases ht
    exact h.lt_of_nestedType hu
  · cases ht

/-- A builtin method called on entered types gives an entered type. -/
theorem lt_of_builtinType (h : c.Within a) {name : String}
    {b : Builtin} (howner : owner.index < a.types) (harguments : ∀ t ∈ arguments, t.index < a.types)
    (hb : ∀ t ∈ b.types, t.index < a.types)
    (ht : c.builtinType owner name b arguments place = .ok t) : t.index < a.types := by
  unfold Catalog.builtinType at ht
  cases b with
  | fixed u =>
    cases ht
    exact hb _ (List.mem_singleton_self _)
  | allocate =>
    cases ht
    exact h.lt_subject howner
  | slot slot =>
    dsimp only at ht
    split at ht
    · next u hu =>
      cases ht
      exact h.lt_of_slot? (Option.join_eq_some_iff.mp hu)
    · cases ht
  | pointee =>
    dsimp only at ht
    split at ht
    · next u hu =>
      cases ht
      exact h.lt_of_pointee? hu
    · cases ht
  | firstArgument =>
    cases arguments with
    | nil => cases ht
    | cons u rest =>
      cases ht
      exact harguments _ List.mem_cons_self
  | element =>
    dsimp only at ht
    split at ht
    · next u hu =>
      cases ht
      obtain ⟨buffer, -, hbuffer⟩ := Option.bind_eq_some_iff.mp hu
      exact h.lt_of_pointee? hbuffer
    · cases ht

end

/-! ## All answers -/

end Within

/-- Something that is asked about some handles is answered with another one. -/
inductive Answers (c : Catalog) : List Handle → Handle → Prop
  | resolve (t : Ty) : Answers c [.type t] (.type (c.resolve t))
  | cls {t : Ty} {k : ClassHandle} (h : c.cls? t = some k) : Answers c [.type t] (.cls k)
  | member {t u : Ty} (h : u ∈ c.members t) : Answers c [.type t] (.type u)
  | nilablePart {t u : Ty} (h : c.nilablePart t = some u) : Answers c [.type t] (.type u)
  | slot {t u : Ty} {name : String} (h : c.slot? t name = some (some u)) :
      Answers c [.type t] (.type u)
  | pointee {t u : Ty} (h : c.pointee? t = some u) : Answers c [.type t] (.type u)
  | subject (t : Ty) : Answers c [.type t] (.type (c.subject t))
  | template {t u : Ty} (h : c.templateOf t = some u) : Answers c [.type t] (.type u)
  | parent {t u : Ty} (h : u ∈ c.parents t) : Answers c [.type t] (.type u)
  | metaclass {t u : Ty} (h : c.metaclass? t = some u) : Answers c [.type t] (.type u)
  | nested {t u : Ty} {name : String} (h : c.nestedType t name = some u) :
      Answers c [.type t] (.type u)
  | found {t u : Ty} {path : List String} (h : c.find path t = some u) : Answers c [.type t] (.type u)
  | selected {owner : Ty} {q : Query} {id : MethodHandle} (h : c.select owner q = .ok id) :
      Answers c (.type owner :: .type q.receiver :: q.arguments.map .type) (.method id)
  | candidate {owner : Ty} {q : Query} {miss : Miss} {id : MethodHandle}
      (h : c.select owner q = .error miss) (hid : id ∈ miss.candidates) :
      Answers c (.type owner :: .type q.receiver :: q.arguments.map .type) (.method id)
  | uses {id : MethodHandle} {t : Ty} (h : t ∈ (c.method id).types) : Answers c [.method id] (.type t)
  | result {owner t : Ty} {id : MethodHandle} {b : Builtin} {name : String} {arguments : List Ty}
      {place : Place} (hbody : (c.method id).body = .builtin b)
      (h : c.builtinType owner name b arguments place = .ok t) :
      Answers c (.method id :: .type owner :: arguments.map .type) (.type t)

namespace Within

/-- What is asked about valid handles is answered with a valid handle. -/
theorem holds_of_answers (h : c.Within a) (hsize : c.size ≤ a.types) {given : List Handle}
    {answer : Handle} (hanswers : c.Answers given answer) (hgiven : a.Stores given) :
    a.Holds answer := by
  cases hanswers with
  | resolve t => exact h.lt_resolve (hgiven (.type t) List.mem_cons_self)
  | cls hk => exact h.lt_of_cls hk
  | member hu => exact h.lt_of_members (hgiven (.type _) List.mem_cons_self) hu
  | nilablePart hu => exact h.lt_of_nilablePart hu
  | slot hu => exact h.lt_of_slot? hu
  | pointee hu => exact h.lt_of_pointee? hu
  | subject t => exact h.lt_subject (hgiven (.type t) List.mem_cons_self)
  | template hu => exact h.lt_of_templateOf (hgiven (.type _) List.mem_cons_self) hu
  | parent hu => exact h.lt_of_parents hsize hu
  | metaclass hu => exact lt_of_metaclass? hsize hu
  | nested hu => exact h.lt_of_nestedType hu
  | found hu => exact h.lt_of_find hsize (hgiven (.type _) List.mem_cons_self) hu
  | selected hid => exact h.lt_of_select (.inl hid)
  | candidate hmiss hid => exact h.lt_of_select (.inr ⟨_, hmiss, hid⟩)
  | uses ht => exact h.lt_of_method ht
  | @result owner t id b name arguments place hbody ht =>
    simp only [Arenas.stores_cons, Arenas.stores_map] at hgiven
    obtain ⟨-, howner, harguments⟩ := hgiven
    have hmethod : ∀ u ∈ (c.method id).types, u.index < a.types := fun u hu => h.lt_of_method hu
    refine h.lt_of_builtinType howner harguments (fun u hu => hmethod u ?_) ht
    exact List.mem_append_right _ (by rw [hbody]; exact hu)

/-! ## Changing entries -/

theorem push (h : c.Within a) (hs : a.Stores s.handles) : (c.push s).2.Within a :=
  { h with shapes := Array.forall_mem_push.mpr ⟨hs, h.shapes⟩ }

theorem setShape (h : c.Within a) (hs : a.Stores s.handles) : (c.setShape t s).Within a :=
  { h with shapes := forall_mem_setIfInBounds t.index h.shapes hs }

theorem pushClass (h : c.Within a) (htable : a.Stores table.handles) :
    Within { c with classes := c.classes.push table } a :=
  { h with classes := Array.forall_mem_push.mpr ⟨htable, h.classes⟩ }

theorem modifyClass (h : c.Within a) {f : ClassTable → ClassTable}
    (hf : ∀ table : ClassTable, a.Stores table.handles → a.Stores (f table).handles)
    (k : ClassHandle) : (c.modifyClass k f).Within a :=
  { h with classes := forall_mem_modify k.index h.classes hf }

theorem pushMethod (h : c.Within a) (hm : ∀ t ∈ m.types, t.index < a.types) :
    Within { c with methods := c.methods.push m } a :=
  { h with
    methods := Array.forall_mem_push.mpr ⟨(stores_method.mpr hm).1, h.methods⟩
    results := Array.forall_mem_push.mpr ⟨(stores_method.mpr hm).2, h.results⟩ }

end Within

end Catalog

end FlowTyping
