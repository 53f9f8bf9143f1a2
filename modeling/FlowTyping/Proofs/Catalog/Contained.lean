import FlowTyping.Proofs.Catalog.Within
import FlowTyping.Proofs.Flow.Requests

/-
  Contained catalogs

  A catalog is contained if all handles that it stores are below the lengths of
  its own arenas, and of those of nodes and calls beside it
  (`Catalog.Contained`). Declarations, merges, pointer types and specializations
  keep it contained (`Contained.perform`), and its arenas only grow.
-/
namespace FlowTyping.Catalog

/-- The arenas of a catalog, with those of nodes and calls beside it. -/
def arenas (c : Catalog) (nodes sites : Nat) : Arenas :=
  ⟨c.shapes.size, c.classes.size, c.methods.size, nodes, sites⟩

/-- All handles that a catalog stores are below the lengths of their arenas. -/
def Contained (nodes sites : Nat) (c : Catalog) : Prop := c.Within (c.arenas nodes sites)

/-- The arenas of the second catalog are no shorter, and it is contained. -/
structure Carries (nodes sites : Nat) (c c' : Catalog) : Prop where
  contained : c'.Contained nodes sites
  grown : c.arenas nodes sites ≤ c'.arenas nodes sites

variable {c c' c'' : Catalog} {a : Arenas} {nodes sites : Nat} {s : Shape} {t u : Ty}
  {table : ClassTable} {m : Method}

@[simp] theorem types_arenas : (c.arenas nodes sites).types = c.size := rfl

theorem arenas_mono {nodes' sites' : Nat} (hnodes : nodes ≤ nodes') (hsites : sites ≤ sites') :
    c.arenas nodes sites ≤ c.arenas nodes' sites' :=
  ⟨Nat.le_refl _, Nat.le_refl _, Nat.le_refl _, hnodes, hsites⟩

theorem Contained.beside {nodes' sites' : Nat} (h : c.Contained nodes sites) (hnodes : nodes ≤ nodes')
    (hsites : sites ≤ sites') : c.Contained nodes' sites' :=
  Within.mono (arenas_mono hnodes hsites) h

namespace Carries

theorem refl (h : c.Contained nodes sites) : c.Carries nodes sites c := ⟨h, le_refl _⟩

theorem trans (h : c.Carries nodes sites c') (h' : c'.Carries nodes sites c'') :
    c.Carries nodes sites c'' :=
  ⟨h'.contained, h.grown.trans h'.grown⟩

/-- Steps one after the other, each of which may rely on those before. -/
theorem foldl {α : Type} {f : Catalog → α → Catalog} {xs : List α} (h : c.Contained nodes sites)
    (hf : ∀ d, c.Carries nodes sites d → ∀ x ∈ xs, d.Carries nodes sites (f d x)) :
    c.Carries nodes sites (xs.foldl f c) := by
  refine List.foldlRecOn xs f (motive := c.Carries nodes sites) (.refl h) ?_
  intro d hd x hx
  exact hd.trans (hf d hd x hx)

end Carries

/-! ## Class tables -/

section
variable {id : MethodHandle} {name : String}

theorem mem_ids_enterMethod {methods : MethodTable} {other : MethodHandle}
    (h : other ∈ MethodTable.ids (enterMethod methods m id)) :
    other = id ∨ other ∈ MethodTable.ids methods := by
  unfold MethodTable.ids enterMethod at h
  obtain ⟨entry, hentry, hother⟩ := List.mem_flatMap.mp h
  obtain ⟨overload, hoverload, rfl⟩ := List.mem_map.mp hother
  rcases Table.mem_put hentry with rfl | hentry
  · rcases Table.mem_putAll hoverload with hoverload | hoverload
    · obtain ⟨key, -, rfl⟩ := List.mem_map.mp hoverload
      exact .inl rfl
    · cases hold : methods.get? m.name with
      | none => simp [hold, Table.empty] at hoverload
      | some overloads =>
        rw [hold] at hoverload
        exact .inr (List.mem_flatMap.mpr ⟨_, Table.mem_of_get? hold,
          List.mem_map.mpr ⟨overload, hoverload, rfl⟩⟩)
  · exact .inr (List.mem_flatMap.mpr ⟨entry, hentry, List.mem_map.mpr ⟨overload, hoverload, rfl⟩⟩)

theorem stores_table : a.Stores table.handles ↔ (∀ u ∈ table.mentioned, u.index < a.types) ∧
    ∀ id ∈ MethodTable.ids table.methods, id.index < a.methods := by
  simp [ClassTable.handles]

theorem stores_enterMethod (htable : a.Stores table.handles)
    (hm : ∀ u ∈ m.types, u.index < a.types) (hid : id.index < a.methods) :
    a.Stores ({ table with methods := enterMethod table.methods m id } : ClassTable).handles := by
  obtain ⟨htypes, hids⟩ := stores_table.mp htable
  refine stores_table.mpr ⟨fun u hu => ?_, fun other hother => ?_⟩
  · exact (Sound.mentioned_methods hu).elim (hm u) (htypes u)
  · rcases mem_ids_enterMethod hother with rfl | hother
    · exact hid
    · exact hids other hother

theorem stores_names (htable : a.Stores table.handles) (ht : t.index < a.types) :
    a.Stores ({ table with types := table.types.put name t } : ClassTable).handles := by
  obtain ⟨htypes, hids⟩ := stores_table.mp htable
  refine stores_table.mpr ⟨fun u hu => ?_, hids⟩
  rcases Sound.mentioned_names hu with rfl | hu
  · exact ht
  · exact htypes u hu

theorem stores_bare (name : String) {container superclass : Option Ty}
    (hcontainer : ∀ u, container = some u → u.index < a.types)
    (hsuper : ∀ u, superclass = some u → u.index < a.types) :
    a.Stores (ClassTable.bare name container superclass).handles := by
  refine stores_table.mpr ⟨fun u hu => ?_, fun id hid => ?_⟩
  · exact (Sound.mentioned_bare hu).elim (hcontainer u) (hsuper u)
  · simp [ClassTable.bare, MethodTable.ids, Table.empty] at hid

end

/-! ## Declarations -/

namespace Contained

theorem builtin (h : c.Contained nodes sites) (ht : t ∈ Ty.builtins.map (·.2)) : t.index < c.size :=
  Within.builtin h ht

theorem modifyClass (h : c.Contained nodes sites) {f : ClassTable → ClassTable}
    (hf : ∀ table : ClassTable, (c.arenas nodes sites).Stores table.handles →
      (c.arenas nodes sites).Stores (f table).handles) (k : ClassHandle) :
    c.Carries nodes sites (c.modifyClass k f) := by
  have hsame : (c.modifyClass k f).arenas nodes sites = c.arenas nodes sites := by
    simp [Catalog.modifyClass, arenas]
  refine ⟨?_, by rw [hsame]⟩
  rw [Contained, hsame]
  exact Within.modifyClass h hf k

theorem enterName (h : c.Contained nodes sites) (scope : Ty) (name : String)
    (ht : t.index < c.size) : c.Carries nodes sites (c.enterName scope name t) := by
  unfold Catalog.enterName
  split
  · exact h.modifyClass (fun table htable => stores_names htable ht) _
  · exact .refl h

theorem defineMethod (h : c.Contained nodes sites) (hm : ∀ u ∈ m.types, u.index < c.size) :
    c.Carries nodes sites (c.defineMethod m).2 := by
  have hgrown : c.arenas nodes sites ≤ ⟨c.shapes.size, c.classes.size, c.methods.size + 1, nodes, sites⟩ :=
    ⟨Nat.le_refl _, Nat.le_refl _, Nat.le_succ _, Nat.le_refl _, Nat.le_refl _⟩
  have hpushed : c.Carries nodes sites { c with methods := c.methods.push m } := by
    have harenas : arenas { c with methods := c.methods.push m } nodes sites =
        ⟨c.shapes.size, c.classes.size, c.methods.size + 1, nodes, sites⟩ := by
      simp [arenas]
    refine ⟨?_, harenas ▸ hgrown⟩
    rw [Contained, harenas]
    exact (h.mono hgrown).pushMethod hm
  unfold Catalog.defineMethod
  dsimp only
  split
  · refine hpushed.trans (hpushed.contained.modifyClass (fun table htable => ?_) _)
    refine stores_enterMethod htable (fun u hu => ?_) (by simp [arenas])
    exact Nat.lt_of_lt_of_le (hm u hu) hpushed.grown.types
  · exact hpushed

theorem defineBuiltin (h : c.Contained nodes sites) {owner : Ty} (howner : owner.index < c.size)
    (name : String) (parameters : List Parameter) (builtin : Builtin)
    (hparameters : ∀ u ∈ restrictedTypes (parameters.map (·.restriction)), u.index < c.size)
    (hbuiltin : ∀ u ∈ builtin.types, u.index < c.size) :
    c.Carries nodes sites (c.defineBuiltin owner name parameters builtin) := by
  apply h.defineMethod
  intro u hu
  simp only [Method.types, Body.types, List.cons_append, List.mem_cons, List.mem_append] at hu
  rcases hu with rfl | hu | hu
  · exact howner
  · exact hparameters u hu
  · exact hbuiltin u hu

/-- A builtin method whose types are built in. -/
theorem seedBuiltin (h : c.Contained nodes sites) {owner : Ty} (howner : owner.index < c.size)
    (name : String) (parameters : List Parameter) (builtin : Builtin)
    (hparameters : ∀ u ∈ restrictedTypes (parameters.map (·.restriction)), u ∈ Ty.builtins.map (·.2))
    (hbuiltin : ∀ u ∈ builtin.types, u ∈ Ty.builtins.map (·.2)) :
    c.Carries nodes sites (c.defineBuiltin owner name parameters builtin) :=
  h.defineBuiltin howner name parameters builtin (fun u hu => h.builtin (hparameters u hu))
    fun u hu => h.builtin (hbuiltin u hu)

/-- An entry and a class table are added together. -/
theorem pushWithTable (h : c.Contained nodes sites)
    (hs : ∀ a, c.arenas nodes sites ≤ a → c.classes.size < a.classes → a.Stores s.handles)
    (htable : (c.arenas nodes sites).Stores table.handles) :
    c.Carries nodes sites { c with shapes := c.shapes.push s, classes := c.classes.push table } := by
  have harenas : arenas { c with shapes := c.shapes.push s, classes := c.classes.push table } nodes sites =
      ⟨c.shapes.size + 1, c.classes.size + 1, c.methods.size, nodes, sites⟩ := by
    simp [arenas]
  have hgrown : c.arenas nodes sites ≤
      ⟨c.shapes.size + 1, c.classes.size + 1, c.methods.size, nodes, sites⟩ :=
    ⟨Nat.le_succ _, Nat.le_succ _, Nat.le_refl _, Nat.le_refl _, Nat.le_refl _⟩
  refine ⟨?_, harenas ▸ hgrown⟩
  rw [Contained, harenas]
  have hwithin := h.mono hgrown
  exact (hwithin.push (hs _ hgrown (Nat.lt_succ_self _))).pushClass (htable.mono hgrown)

theorem enterType (h : c.Contained nodes sites) {shape : ClassHandle → Shape}
    (hshape : ∀ k a, c.arenas nodes sites ≤ a → k.index < a.classes → a.Stores (shape k).handles)
    (htable : (c.arenas nodes sites).Stores table.handles) :
    c.Carries nodes sites (c.enterType table shape) := by
  have hpushed := h.pushWithTable (hshape ⟨c.classes.size⟩) htable
  unfold Catalog.enterType
  dsimp only
  split
  · refine hpushed.trans (hpushed.contained.enterName _ _ ?_)
    simp [size]
  · exact hpushed

theorem enterMetaclass (h : c.Contained nodes sites) (ht : t.index + 1 = c.size) (name : String)
    {container : Option Ty} (hcontainer : ∀ u, container = some u → u.index < c.size) :
    c.Carries nodes sites (c.enterMetaclass t name container) := by
  have htable : (c.arenas nodes sites).Stores
      (ClassTable.bare (name ++ ":Class") container none).handles :=
    stores_bare _ hcontainer (by simp)
  have hpushed := h.pushWithTable (s := .metaclass ⟨c.classes.size⟩ t)
    (fun a hle hk => by
      have htypes : c.size ≤ a.types := hle.types
      simp only [Shape.handles, Shape.cls?, Shape.types, Shape.flowHandles, Option.toList_some,
        List.map_cons, List.map_nil, List.append_nil, Arenas.stores_append, Arenas.stores_cons,
        Arenas.holds_cls, Arenas.holds_type, Arenas.stores_nil, and_true]
      exact ⟨hk, by omega⟩) htable
  -- the metaclass is the entry that was added last
  have hnext : ∀ {d : Catalog}, c.size < d.size → t.next.index < d.size := fun hd => by
    simp only [Ty.next]
    omega
  have hsize : c.size < size { c with
      shapes := c.shapes.push (.metaclass ⟨c.classes.size⟩ t)
      classes := c.classes.push (.bare (name ++ ":Class") container none) } := by
    simp [size]
  have hnamed := hpushed.contained.seedBuiltin (hnext hsize) "name" [] (.fixed .string) (by decide)
    (by decide)
  have hsimple := hnamed.contained.seedBuiltin
    (hnext (Nat.lt_of_lt_of_le hsize hnamed.grown.types)) "simple_name" [] (.fixed .string)
    (by decide) (by decide)
  exact hpushed.trans (hnamed.trans hsimple)

/-- A class-like type and its metaclass take two places. -/
theorem newClassLike (h : c.Contained nodes sites) (name : String) {container superclass : Option Ty}
    (hcontainer : ∀ u, container = some u → u.index < c.size)
    (hsuper : ∀ u, superclass = some u → u.index < c.size) {shape : ClassHandle → Shape}
    (hshape : ∀ k a, c.arenas nodes sites ≤ a → k.index < a.classes → a.Stores (shape k).handles) :
    c.Carries nodes sites (c.newClassLike name container superclass shape).2 := by
  have hentered := h.enterType hshape (stores_bare name hcontainer hsuper)
  refine hentered.trans (hentered.contained.enterMetaclass ?_ name fun u hu => ?_)
  · rw [Sound.size_enterType]
    rfl
  · exact Nat.lt_of_lt_of_le (hcontainer u hu) hentered.grown.types

theorem size_defineBuiltin (c : Catalog) (owner : Ty) (name : String) (parameters : List Parameter)
    (builtin : Builtin) : (c.defineBuiltin owner name parameters builtin).size = c.size := by
  simp only [Catalog.defineBuiltin, size, Sound.shapes_defineMethod]

theorem size_newClassLike (c : Catalog) (name : String) (container superclass : Option Ty)
    (shape : ClassHandle → Shape) :
    (c.newClassLike name container superclass shape).2.size = c.size + 2 := by
  have hmeta : ∀ (d : Catalog) (t : Ty), (d.enterMetaclass t name container).size = d.size + 1 := by
    intro d t
    simp only [Catalog.enterMetaclass, size_defineBuiltin]
    exact Array.size_push _
  simp only [Catalog.newClassLike, hmeta, Sound.size_enterType]

theorem newMixin (h : c.Contained nodes sites) (name : String) {container : Option Ty}
    (hcontainer : ∀ u, container = some u → u.index < c.size) :
    c.Carries nodes sites (c.newMixin name container).2 := by
  apply h.newClassLike name hcontainer (by simp)
  intro k a _ hk
  simpa [Shape.handles, Shape.cls?, Shape.types, Shape.flowHandles] using hk

theorem newPrimitive (h : c.Contained nodes sites) (name : String) {superclass container : Ty}
    (hsuper : superclass.index < c.size) (width : Nat) (hcontainer : container.index < c.size) :
    c.Carries nodes sites (c.newPrimitive name superclass width container).2 := by
  apply h.newClassLike name (by simpa using hcontainer) (by simpa using hsuper)
  intro k a _ hk
  simpa [Shape.handles, Shape.cls?, Shape.types, Shape.flowHandles] using hk

/-- The metaclass that stands next to a new type can be given a method. -/
theorem allocates {made : Catalog} (h : c.Carries nodes sites made) (hsize : c.size + 2 ≤ made.size)
    (name : String) :
    c.Carries nodes sites (made.defineBuiltin (Ty.next ⟨c.size⟩) name [] .allocate) := by
  refine h.trans (h.contained.defineBuiltin ?_ name [] .allocate (by simp [restrictedTypes])
    (by simp [Builtin.types]))
  simp only [Ty.next]
  omega

theorem size_newObject (c : Catalog) (name : String) (superclass : Option Ty) (container : Ty)
    (generic : Bool) : (c.newObject name superclass container generic).2.size = c.size + 2 := by
  rw [newObject_eq, size_defineBuiltin, size_newClassLike]

theorem newObject (h : c.Contained nodes sites) (name : String) {superclass : Option Ty}
    (hsuper : ∀ u, superclass = some u → u.index < c.size) {container : Ty}
    (hcontainer : container.index < c.size) (generic : Bool) :
    c.Carries nodes sites (c.newObject name superclass container generic).2 := by
  have hmade : c.Carries nodes sites (c.newClassLike name (some container) superclass
      fun k => .object ⟨k, .empty, generic, none⟩).2 := by
    apply h.newClassLike name (by simpa using hcontainer) hsuper
    intro k a _ hk
    simpa [Shape.handles, Shape.cls?, Shape.types, Shape.flowHandles, Table.empty] using hk
  have hsize := size_newClassLike c name (some container) superclass
    fun k => .object ⟨k, .empty, generic, none⟩
  rw [newObject_eq]
  exact allocates hmade (Nat.le_of_eq hsize.symm) "allocate"

theorem defineField (h : c.Contained nodes sites) (ht : t.index < c.size) {field : String × Ty}
    (hfield : field.2.index < c.size) : c.Carries nodes sites (Catalog.defineField t c field) := by
  have hwrite := h.defineBuiltin ht (field.1 ++ "=") [⟨"value", some (.type field.2), none⟩]
    (.slot field.1) (by simpa [restrictedTypes, Restriction.types] using hfield)
    (by simp [Builtin.types])
  have ht' := Nat.lt_of_lt_of_le ht hwrite.grown.types
  exact hwrite.trans (hwrite.contained.defineBuiltin ht' field.1 [] (.slot field.1)
    (by simp [restrictedTypes]) (by simp [Builtin.types]))

theorem defineFields (h : c.Contained nodes sites) (ht : t.index < c.size)
    {fields : List (String × Ty)} (hfields : ∀ field ∈ fields, field.2.index < c.size) :
    c.Carries nodes sites (fields.foldl (Catalog.defineField t) c) := by
  apply Carries.foldl h
  intro d hd field hfield
  exact hd.contained.defineField (Nat.lt_of_lt_of_le ht hd.grown.types)
    (Nat.lt_of_lt_of_le (hfields field hfield) hd.grown.types)

theorem newRecord (h : c.Contained nodes sites) (name : String) {fields : Table String Ty}
    (hfields : ∀ field ∈ fields.entries, field.2.index < c.size) {container : Ty}
    (hcontainer : container.index < c.size) :
    c.Carries nodes sites (c.newRecord name fields container).2 := by
  have hmade : c.Carries nodes sites (c.newClassLike name (some container) none
      fun k => .record k fields).2 := by
    apply h.newClassLike name (by simpa using hcontainer) (by simp)
    intro k a hle hk
    simp only [Shape.handles, Shape.cls?, Shape.types, Shape.flowHandles, Option.toList_some,
      List.map_cons, List.map_nil, List.append_nil, List.map_map, Arenas.stores_append,
      Arenas.stores_cons, Arenas.stores_nil, Arenas.stores_map, and_true]
    exact ⟨hk, fun field hfield => Nat.lt_of_lt_of_le (hfields field hfield) hle.types⟩
  have hsize := size_newClassLike c name (some container) none fun k => .record k fields
  have hnew : c.size < (c.newClassLike name (some container) none fun k => .record k fields).2.size := by
    omega
  have hfilled := hmade.contained.defineFields (t := ⟨c.size⟩) hnew fun field hfield =>
    Nat.lt_of_lt_of_le (hfields field hfield) hmade.grown.types
  rw [newRecord_eq]
  exact allocates (hmade.trans hfilled)
    (Nat.le_trans (Nat.le_of_eq hsize.symm) hfilled.grown.types) "new"

theorem push (h : c.Contained nodes sites) (hs : (c.arenas nodes sites).Stores s.handles) :
    c.Carries nodes sites (c.push s).2 := by
  have harenas : (c.push s).2.arenas nodes sites =
      ⟨c.shapes.size + 1, c.classes.size, c.methods.size, nodes, sites⟩ := by
    simp [Catalog.push, arenas]
  have hgrown : c.arenas nodes sites ≤
      ⟨c.shapes.size + 1, c.classes.size, c.methods.size, nodes, sites⟩ :=
    ⟨Nat.le_succ _, Nat.le_refl _, Nat.le_refl _, Nat.le_refl _, Nat.le_refl _⟩
  refine ⟨?_, harenas ▸ hgrown⟩
  rw [Contained, harenas]
  exact Within.push (h.mono hgrown) (hs.mono hgrown)

theorem newConstant (h : c.Contained nodes sites) (name : String) (value : Expr) {container : Ty}
    (hcontainer : container.index < c.size) :
    c.Carries nodes sites (c.newConstant name value container).2 := by
  have hpushed := h.push (s := .constant name container value)
    (by simpa [Shape.handles, Shape.cls?, Shape.types, Shape.flowHandles] using hcontainer)
  refine hpushed.trans (hpushed.contained.enterName container name ?_)
  rw [size_push]
  exact Nat.lt_succ_self _

theorem includeMixin (h : c.Contained nodes sites) {included : Ty} (hincluded : included.index < c.size)
    (hok : c.includeMixin t included = .ok c') : c.Carries nodes sites c' := by
  unfold Catalog.includeMixin at hok
  split at hok
  · cases hok
  · split at hok
    · cases hok
    · cases hok
      refine h.modifyClass (fun table htable => ?_) _
      split
      · exact htable
      · obtain ⟨htypes, hids⟩ := stores_table.mp htable
        refine stores_table.mpr ⟨fun u hu => ?_, hids⟩
        simp only [ClassTable.mentioned, List.mem_append, List.mem_singleton] at hu htypes
        rcases hu with (((hu | hu) | hu | rfl) | hu) | hu
        · exact htypes u (.inl (.inl (.inl (.inl hu))))
        · exact htypes u (.inl (.inl (.inl (.inr hu))))
        · exact htypes u (.inl (.inl (.inr hu)))
        · exact hincluded
        · exact htypes u (.inl (.inr hu))
        · exact htypes u (.inr hu)

/-! ## Slots, merges and specializations -/

theorem setShape (h : c.Contained nodes sites) (hs : (c.arenas nodes sites).Stores s.handles) :
    c.Carries nodes sites (c.setShape t s) := by
  have harenas : (c.setShape t s).arenas nodes sites = c.arenas nodes sites := by
    simp [Catalog.setShape, arenas]
  refine ⟨?_, by rw [harenas]⟩
  rw [Contained, harenas]
  exact Within.setShape h hs

theorem setSlot (h : c.Contained nodes sites) (t : Ty) (name : String) (hu : u.index < c.size) :
    c.Carries nodes sites (c.setSlot t name u) := by
  unfold Catalog.setSlot
  split
  · next o ho =>
    apply h.setShape
    have hobject := Within.shape h (c.resolve t)
    rw [show c.shape (c.resolve t) = _ from ho] at hobject
    simp only [Shape.handles, Shape.cls?, Shape.types, Shape.flowHandles, Option.toList_some,
      List.map_cons, List.map_nil, List.append_nil, List.map_append, Arenas.stores_append,
      Arenas.stores_cons, Arenas.stores_nil, Arenas.stores_map, and_true] at hobject ⊢
    obtain ⟨hcls, hslots, htemplate⟩ := hobject
    refine ⟨hcls, fun v hv => ?_, htemplate⟩
    obtain ⟨slot, hslot, hv⟩ := List.mem_flatMap.mp hv
    rcases Table.mem_put hslot with rfl | hslot
    · obtain rfl : v = u := by simpa using hv
      exact hu
    · exact hslots v (List.mem_flatMap.mpr ⟨slot, hslot, hv⟩)
  · exact .refl h

theorem merge (h : c.Contained nodes sites) {ts : List Ty} (hts : ∀ t ∈ ts, t.index < c.size) :
    c.Carries nodes sites (c.merge ts).2 ∧
      ∀ t, (c.merge ts).1 = some t → t.index < (c.merge ts).2.size := by
  have hlive : ∀ t ∈ c.live ts, t.index < c.size := by
    intro t ht
    obtain ⟨u, hu, -, hmember⟩ := mem_live.mp ht
    exact Within.lt_of_members h (hts u hu) hmember
  unfold Catalog.merge
  split
  · exact ⟨.refl h, by simp⟩
  · next t ht =>
    refine ⟨.refl h, fun u hu => ?_⟩
    obtain rfl : t = u := by simpa using hu
    exact hlive t (by simp [ht])
  · unfold Catalog.union
    split
    · next i hi =>
      refine ⟨.refl h, fun u hu => ?_⟩
      obtain rfl : ⟨i⟩ = u := by simpa using hu
      exact (Array.findIdx?_eq_some_iff_findIdx_eq.mp hi).1
    · refine ⟨h.push ?_, fun u hu => ?_⟩
      · simpa [Shape.handles, Shape.cls?, Shape.types, Shape.flowHandles] using hlive
      · obtain rfl : ⟨c.shapes.size⟩ = u := by simpa [Catalog.push] using hu
        simp [Catalog.push, size]

theorem pointerFor (h : c.Contained nodes sites) (ht : t.index < c.size) :
    c.Carries nodes sites (c.pointerFor t).2 ∧ (c.pointerFor t).1.index < (c.pointerFor t).2.size := by
  unfold Catalog.pointerFor
  dsimp only
  split
  · next i hi => exact ⟨.refl h, (Array.findIdx?_eq_some_iff_findIdx_eq.mp hi).1⟩
  · refine ⟨h.push ?_, by simp [Catalog.push, size]⟩
    simp only [Shape.handles, Shape.cls?, Shape.types, Shape.flowHandles, Option.toList_some,
      List.map_cons, List.map_nil, List.append_nil, Arenas.stores_append, Arenas.stores_cons,
      Arenas.stores_nil, and_true]
    exact ⟨h.pointer, Within.lt_resolve h ht⟩

theorem specialize (h : c.Contained nodes sites) (ht : t.index < c.size)
    {bindings : List (String × Ty)} (hbindings : ∀ b ∈ bindings, b.2.index < c.size) :
    c.Carries nodes sites (c.specialize t bindings).2 ∧
      (c.specialize t bindings).1.index < (c.specialize t bindings).2.size := by
  unfold Catalog.specialize
  split
  · next o ho =>
    dsimp only
    refine ⟨h.push ?_, by simp [Catalog.push, size]⟩
    have hobject := Within.shape h t
    rw [ho] at hobject
    simp only [Shape.handles, Shape.cls?, Shape.types, Shape.flowHandles, Option.toList_some,
      List.map_cons, List.map_nil, List.append_nil, List.map_append, Arenas.stores_append,
      Arenas.stores_cons, Arenas.stores_nil, Arenas.stores_map, and_true] at hobject ⊢
    obtain ⟨hcls, hslots, -⟩ := hobject
    refine ⟨hcls, fun v hv => ?_, ht⟩
    obtain ⟨slot, hslot, hv⟩ := List.mem_flatMap.mp hv
    rcases Table.mem_putAll hslot with hslot | hslot
    · obtain ⟨binding, hbinding, rfl⟩ := List.mem_map.mp hslot
      obtain rfl : v = binding.2 := by simpa using hv
      exact hbindings binding hbinding
    · exact hslots v (List.mem_flatMap.mpr ⟨slot, hslot, hv⟩)
  · exact ⟨.refl h, ht⟩

theorem instantiate (h : c.Contained nodes sites) (ht : t.index < c.size)
    {bindings : List (String × Ty)} (hbindings : ∀ b ∈ bindings, b.2.index < c.size) {target : Ty}
    (hok : c.instantiate t bindings = .ok (target, c')) :
    c.Carries nodes sites c' ∧ target.index < c'.size := by
  unfold Catalog.instantiate at hok
  split at hok
  · cases hok
  · next template htemplate =>
    have htemplate := Within.lt_of_templateOf h ht htemplate
    have hkey : ∀ b ∈ c.bindingKey bindings, b.2.index < c.size := by
      intro b hb
      obtain ⟨binding, hbinding, rfl⟩ := List.mem_map.mp (mem_sortBindings.mp hb)
      exact Within.lt_resolve h (hbindings binding hbinding)
    dsimp only at hok
    split at hok
    · next known hknown =>
      cases hok
      have hstores := h.specializations _ (Table.mem_of_get? hknown)
      simp only [specializationHandles, Arenas.stores_cons, Arenas.holds_type] at hstores
      exact ⟨.refl h, hstores.2.1⟩
    · cases hok
      obtain ⟨hmade, htarget⟩ := h.specialize htemplate hkey
      refine ⟨⟨{ hmade.contained with specializations := fun entry hentry => ?_ }, hmade.grown⟩, htarget⟩
      rcases Table.mem_put hentry with rfl | hentry
      · simp only [specializationHandles, Arenas.stores_cons, Arenas.stores_map, Arenas.holds_type]
        exact ⟨Nat.lt_of_lt_of_le htemplate hmade.grown.types, htarget,
          fun b hb => Nat.lt_of_lt_of_le (hkey b hb) hmade.grown.types⟩
      · exact hmade.contained.specializations entry hentry

/-- A request about entered types. -/
theorem perform (h : c.Contained nodes sites) {r : Request} (hr : c.Knows r) :
    c.Carries nodes sites (c.perform r) := by
  cases r with
  | mixin name container => exact h.newMixin name fun u hu => hr u (Option.mem_toList.mpr hu)
  | primitive name superclass width container =>
    exact h.newPrimitive name (hr _ (by simp [Request.mentions])) width
      (hr _ (by simp [Request.mentions]))
  | object name superclass container generic =>
    refine h.newObject name (fun u hu => hr u ?_) (hr _ (by simp [Request.mentions])) generic
    exact List.mem_append_left _ (Option.mem_toList.mpr hu)
  | record name fields container =>
    refine h.newRecord name (fun field hfield => ?_) (hr _ (by simp [Request.mentions]))
    rcases Table.mem_putAll hfield with hfield | hfield
    · exact hr _ (List.mem_append_left _ (List.mem_map_of_mem hfield))
    · simp [Table.empty] at hfield
  | constant name value container => exact h.newConstant name value (hr _ List.mem_cons_self)
  | name scope name t => exact h.enterName scope name (hr t (by simp [Request.mentions]))
  | method m => exact h.defineMethod hr
  | inclusion t included =>
    show c.Carries nodes sites ((c.includeMixin t included).toOption.getD c)
    cases hok : c.includeMixin t included with
    | error e => exact .refl h
    | ok c' => exact h.includeMixin (hr included (by simp [Request.mentions])) hok
  | slot t name u => exact h.setSlot t name (hr u (by simp [Request.mentions]))
  | merge ts => exact (h.merge hr).1
  | pointer t => exact (h.pointerFor (hr t List.mem_cons_self)).1
  | copy template bindings =>
    refine (h.specialize (hr template List.mem_cons_self) fun b hb => hr b.2 ?_).1
    exact List.mem_cons_of_mem _ (List.mem_map_of_mem hb)
  | specialization t bindings =>
    show c.Carries nodes sites (((c.instantiate t bindings).toOption.map (·.2)).getD c)
    cases hok : c.instantiate t bindings with
    | error e => exact .refl h
    | ok made =>
      refine (h.instantiate (hr t List.mem_cons_self) (fun b hb => hr b.2 ?_) hok).1
      exact List.mem_cons_of_mem _ (List.mem_map_of_mem hb)

/-! ## The built-in types -/

theorem seedOperators (h : c.Contained nodes sites) (owner operand result : Ty) (names : List String)
    (hall : ∀ t ∈ [owner, operand, result], t ∈ Ty.builtins.map (·.2)) :
    c.Carries nodes sites (Catalog.seedOperators owner operand result names c) := by
  apply Carries.foldl h
  intro d hd name _
  apply hd.contained.seedBuiltin (hd.contained.builtin (hall owner (by simp)))
  · simpa [restrictedTypes, parameterOf, Restriction.types] using hall operand (by simp)
  · simpa [Builtin.types] using hall result (by simp)

theorem seedArithmetic (h : c.Contained nodes sites) {lhs rhs : Ty} (hlhs : lhs ∈ numbers)
    (hrhs : rhs ∈ numbers) : c.Carries nodes sites (Catalog.seedArithmetic lhs c rhs) := by
  have hnumbers : ∀ t ∈ numbers, t ∈ Ty.builtins.map (·.2) := by decide
  have hwider : wider lhs rhs ∈ numbers := by
    unfold wider
    split
    · exact hrhs
    · exact hlhs
  have hsums := h.seedOperators lhs rhs (wider lhs rhs) ["+", "-", "*", "/"]
    (by simpa only [List.forall_mem_cons] using
      ⟨hnumbers lhs hlhs, hnumbers rhs hrhs, hnumbers _ hwider, by simp⟩)
  have hcompared := hsums.contained.seedOperators lhs rhs .bool ["<", "<=", ">", ">=", "==", "!="]
    (by simpa only [List.forall_mem_cons] using
      ⟨hnumbers lhs hlhs, hnumbers rhs hrhs, by decide, by simp⟩)
  exact hsums.trans hcompared

theorem seedMethods (h : c.Contained nodes sites) :
    c.Carries nodes sites (Catalog.seedMethods c) := by
  have hnumbers : c.Carries nodes sites
      (numbers.foldl (fun c lhs => numbers.foldl (Catalog.seedArithmetic lhs) c) c) :=
    .foldl h fun d hd lhs hlhs => .foldl hd.contained fun e he rhs hrhs =>
      he.contained.seedArithmetic hlhs hrhs
  have hbool := hnumbers.trans
    (hnumbers.contained.seedOperators .bool .bool .bool ["==", "!="] (by decide))
  have hchar := hbool.trans
    (hbool.contained.seedOperators .char .char .bool ["==", "!="] (by decide))
  -- what is left are single methods of built-in types
  have hdefined : ∀ {d : Catalog}, c.Carries nodes sites d → ∀ (owner : Ty) (name : String)
      (parameters : List Parameter) (builtin : Builtin), owner ∈ Ty.builtins.map (·.2) →
      (∀ u ∈ restrictedTypes (parameters.map (·.restriction)), u ∈ Ty.builtins.map (·.2)) →
      (∀ u ∈ builtin.types, u ∈ Ty.builtins.map (·.2)) →
      c.Carries nodes sites (d.defineBuiltin owner name parameters builtin) :=
    fun hd _ name parameters builtin howner hparameters hbuiltin =>
      hd.trans (hd.contained.seedBuiltin (hd.contained.builtin howner) name parameters builtin
        hparameters hbuiltin)
  have hlength := hdefined hchar .string "length" [] (.fixed .int) (by decide) (by decide) (by decide)
  have hvalue := hdefined hlength .pointer "value" [] .pointee (by decide) (by decide) (by decide)
  have hassign := hdefined hvalue .pointer "value=" [⟨"value", none, none⟩] .firstArgument
    (by decide) (by simp [restrictedTypes]) (by decide)
  have hcount := hdefined hassign .array "length" [] (.fixed .int) (by decide) (by decide) (by decide)
  exact hdefined hcount .array "[]" [parameterOf "index" .int] .element (by decide)
    (by simp [restrictedTypes, parameterOf, Restriction.types, Ty.builtins]) (by decide)

end Contained

/-- The steps in which the built-in types are declared. -/
def seeding : List (Catalog → Catalog) :=
  [fun c => (c.newMixin "main" none).2, seedObject "Object" none false,
    seedObject "Value" (some .object) false, seedObject "Numeric" (some .value) false,
    seedPrimitive "Void" .value 1, seedPrimitive "Nil" .value 1, seedPrimitive "Bool" .value 1,
    seedPrimitive "Char" .value 1, seedPrimitive "Short" .value 2, seedPrimitive "Int" .numeric 4,
    seedPrimitive "Long" .numeric 8, seedPrimitive "Float" .numeric 4,
    seedPrimitive "Double" .numeric 8, seedPrimitive "Symbol" .value 4,
    fun c => (c.newPointerTemplate .value .main).2, seedObject "String" (some .object) false,
    seedObject "Array" (some .object) true, fun c => (c.newMixin "Math" (some .main)).2,
    seedSlots]

/-- The catalog after so many of these steps. -/
def seededWithin (count : Nat) : Catalog := (seeding.take count).foldl (fun c step => step c) .empty

theorem seededWithin_length : seededWithin seeding.length = seedSlots seedTypes := by
  rw [seededWithin, List.take_length]
  simp only [seeding, List.foldl_cons, List.foldl_nil, seedTypes]

theorem mem_scanl_seeding (count : Nat) :
    seededWithin count ∈ seeding.scanl (fun c step => step c) .empty := by
  apply List.mem_of_getElem? (i := min count seeding.length)
  rw [List.getElem?_scanl, if_pos (Nat.min_le_right ..), ← List.take_eq_take_min, seededWithin]

/-- While the built-in types are declared, what has been entered stores no handles of what has not.
The list of built-in types, and the builtin methods whose results are in it, can name types that are
yet to come. -/
theorem storesEntries_seededWithin (count : Nat) :
    (seededWithin count).StoresEntries ((seededWithin count).arenas 0 0) := by
  have hstates : ∀ c ∈ seeding.scanl (fun c step => step c) .empty,
      (∀ s ∈ c.shapes.toList, (c.arenas 0 0).Stores s.handles) ∧
      (∀ table ∈ c.classes.toList, (c.arenas 0 0).Stores table.handles) ∧
      (∀ m ∈ c.methods.toList, (c.arenas 0 0).Stores m.handles) ∧
      c.specializations.entries = [] := by decide +kernel
  obtain ⟨hshapes, hclasses, hmethods, hspecializations⟩ := hstates _ (mem_scanl_seeding count)
  refine ⟨fun s hs => hshapes s (Array.mem_toList_iff.mpr hs),
    fun table htable => hclasses table (Array.mem_toList_iff.mpr htable),
    fun m hm => hmethods m (Array.mem_toList_iff.mpr hm), fun entry hentry => ?_⟩
  simp [hspecializations] at hentry

theorem contained_seeded (nodes sites : Nat) : seeded.Contained nodes sites := by
  have hnamed : (∀ m ∈ (seededWithin seeding.length).methods.toList, ∀ t ∈ m.body.types,
        t.index < ((seededWithin seeding.length).arenas 0 0).types) ∧
      (∀ entry ∈ Ty.builtins, entry.2.index < ((seededWithin seeding.length).arenas 0 0).types) ∧
      ClassHandle.pointer.index < ((seededWithin seeding.length).arenas 0 0).classes := by
    decide +kernel
  have hdeclared : (seededWithin seeding.length).Contained 0 0 :=
    { storesEntries_seededWithin seeding.length with
      results := fun m hm => hnamed.1 m (Array.mem_toList_iff.mpr hm)
      builtins := hnamed.2.1
      pointer := hnamed.2.2 }
  rw [seeded, ← seededWithin_length]
  exact hdeclared.seedMethods.contained.beside (Nat.zero_le _) (Nat.zero_le _)

end FlowTyping.Catalog
