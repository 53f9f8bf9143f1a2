import FlowTyping.Catalog.Seed
import FlowTyping.Proofs.Catalog.Callable
import FlowTyping.Proofs.Catalog.Soundness

/-
  Declarations keep a catalog sound

  A declaration that mentions definite types keeps a catalog sound, lets it grow
  and adds no provisional type. So the catalog with the built-in types is sound.
-/
namespace FlowTyping

/-- The type that an object type specializes. -/
def Shape.template? : Shape → Option Ty
  | .object o => o.template
  | _ => none

namespace Catalog

variable {c c' d : Catalog}

/-- No entry is provisional. -/
def Plain (c : Catalog) : Prop := ∀ t, (c.shape t).isProvisional = false

/-- What a declaration does. -/
structure Declares (c c' : Catalog) : Prop where
  sound : c'.Sound
  grows : c.Grows c'
  plain : c.Plain → c'.Plain
  specializations : c'.specializations = c.specializations
  callable : c.Callable → c'.Callable

namespace Declares

theorem refl (hc : c.Sound) : c.Declares c := ⟨hc, .refl c, id, rfl, id⟩

theorem trans (h₁ : c.Declares c') (h₂ : c'.Declares d) : c.Declares d :=
  ⟨h₂.sound, h₁.grows.trans h₂.grows, fun h => h₂.plain (h₁.plain h),
    h₂.specializations.trans h₁.specializations, fun h => h₂.callable (h₁.callable h)⟩

theorem definite (h : c.Declares c') {t : Ty} (ht : c.Definite t) : c'.Definite t :=
  h.grows.definite ht

end Declares

theorem newObject_eq (c : Catalog) (name : String) (superclass : Option Ty) (container : Ty)
    (generic : Bool) : (c.newObject name superclass container generic).2 =
      (c.newClassLike name (some container) superclass
        fun k => .object ⟨k, .empty, generic, none⟩).2.defineBuiltin (Ty.next ⟨c.size⟩)
        "allocate" [] .allocate := by
  simp only [newObject, newClassLike, size]

theorem newRecord_eq (c : Catalog) (name : String) (fields : Table String Ty) (container : Ty) :
    (c.newRecord name fields container).2 =
      (fields.entries.foldl (defineField ⟨c.size⟩) (c.newClassLike name (some container) none
        (.record · fields)).2).defineBuiltin (Ty.next ⟨c.size⟩) "new" [] .allocate := by
  simp only [newRecord, newClassLike, size]

namespace Sound

variable {t u : Ty}

theorem builtin (hc : c.Sound) (h : t ∈ Ty.builtins.map (·.2)) : c.Definite t := by
  obtain ⟨entry, hentry, rfl⟩ := List.mem_map.mp h
  exact hc.builtins entry hentry

/-! ## Entries, class tables and methods -/

theorem definite_push (c : Catalog) {s : Shape} (hp : s.isProvisional = false) :
    (c.push s).2.Definite ⟨c.size⟩ := by
  refine ⟨by rw [size_push]; exact Nat.lt_succ_self _, ?_⟩
  rw [shape_push, if_pos rfl]
  exact hp

theorem declares_push (hc : c.Sound) {s : Shape} (hu : s.isUnion = false)
    (hp : s.isProvisional = false) (htypes : ∀ u ∈ s.types, c.Definite u) (hlinked : c.Linked s) :
    c.Declares (c.push s).2 := by
  refine ⟨hc.push ?_ htypes hlinked, .push c s, fun h t => ?_, rfl, fun h => ⟨h.keys, h.values⟩⟩
  · cases s <;> trivial
  · rw [shape_push]
    split
    · exact hp
    · exact h t

/-- A class table may change as long as it mentions definite types and its definitions stand under
their keys. -/
theorem declares_modifyClass (hc : c.Sound) (k : ClassHandle) {f : ClassTable → ClassTable}
    (hf : ∀ u ∈ (f (c.classTable k)).mentioned, c.Definite u)
    (hkeys : ∀ table, c.Keys table.methods → c.Keys (f table).methods) :
    c.Declares (c.modifyClass k f) :=
  ⟨hc.modifyClass k hf, .of_shapes_eq rfl, id, rfl, fun h => h.modifyClass k hkeys⟩

theorem classTable_push (c : Catalog) (table : ClassTable) (k : ClassHandle) :
    classTable { c with classes := c.classes.push table } k =
      if k.index = c.classes.size then table else c.classTable k := by
  unfold classTable
  rw [Array.getElem?_push]
  split <;> rfl

theorem declares_pushClass (hc : c.Sound) {table : ClassTable}
    (ht : ∀ u ∈ table.mentioned, c.Definite u) (hkeys : c.Keys table.methods) :
    c.Declares { c with classes := c.classes.push table } := by
  refine ⟨⟨hc.canonical.of_shapes_eq rfl, hc.shapes, fun k u hu => ?_, hc.methods, hc.links,
    hc.specializations, hc.builtins⟩, .of_shapes_eq rfl, id, rfl, fun h => ⟨fun k => ?_, h.values⟩⟩
  · rw [classTable_push] at hu
    split at hu
    · exact ht u hu
    · exact hc.classes k u hu
  · rw [classTable_push]
    split
    · exact hkeys
    · exact h.keys k

theorem method_push (c : Catalog) (m : Method) (id : MethodHandle) :
    method { c with methods := c.methods.push m } id =
      if id.index = c.methods.size then m else c.method id := by
  unfold method
  rw [Array.getElem?_push]
  split <;> rfl

theorem pushMethod (hc : c.Sound) {m : Method} (hm : ∀ u ∈ m.types, c.Definite u) :
    Sound { c with methods := c.methods.push m } := by
  refine ⟨hc.canonical.of_shapes_eq rfl, hc.shapes, hc.classes, fun id u hu => ?_, hc.links,
    hc.specializations, hc.builtins⟩
  rw [method_push] at hu
  split at hu
  · exact hm u hu
  · exact hc.methods id u hu

theorem callable_pushMethod (hc : c.Callable) {m : Method} (hm : m.AsksForValue) :
    Callable { c with methods := c.methods.push m } := by
  refine ⟨fun k entry hentry overload hoverload => ?_, fun id => ?_⟩
  · obtain ⟨hlt, hkey⟩ := hc.keys k entry hentry overload hoverload
    rw [method_push, if_neg (Nat.ne_of_lt hlt)]
    exact ⟨Nat.lt_of_lt_of_eq (Nat.lt_succ_of_lt hlt) (Array.size_push m).symm, hkey⟩
  · rw [method_push]
    split
    · exact hm
    · exact hc.values id

/-! ## Names and methods in class tables -/

theorem mentioned_names {table : ClassTable} {name : String}
    (h : u ∈ ({ table with types := table.types.put name t } : ClassTable).mentioned) :
    u = t ∨ u ∈ table.mentioned := by
  unfold ClassTable.mentioned at h ⊢
  simp only [List.mem_append] at h ⊢
  rcases h with (h | h) | h
  · exact .inr (.inl (.inl h))
  · obtain ⟨entry, hentry, rfl⟩ := List.mem_map.mp h
    rcases Table.mem_put hentry with rfl | hentry
    · exact .inl rfl
    · exact .inr (.inl (.inr (List.mem_map.mpr ⟨entry, hentry, rfl⟩)))
  · exact .inr (.inr h)

theorem declares_enterName (hc : c.Sound) (scope : Ty) (name : String) (ht : c.Definite t) :
    c.Declares (c.enterName scope name t) := by
  unfold enterName
  split
  · next k _ =>
    refine hc.declares_modifyClass k (fun u hu => ?_) fun _ h => h
    rcases mentioned_names hu with rfl | hu
    · exact ht
    · exact hc.classes k u hu
  · exact .refl hc

theorem mem_restrictedTypes {rs : List (Option Restriction)} :
    u ∈ restrictedTypes rs ↔ some (.type u) ∈ rs := by
  unfold restrictedTypes
  rw [List.mem_flatMap]
  constructor
  · rintro ⟨r, hr, hu⟩
    rcases r with _ | (v | _)
    · simp at hu
    · simp [Restriction.types] at hu; rwa [hu]
    · simp [Restriction.types] at hu
  · exact fun h => ⟨_, h, by simp [Restriction.types]⟩

theorem mentioned_methods {table : ClassTable} {m : Method} {id : MethodHandle}
    (h : u ∈ ({ table with methods := enterMethod table.methods m id } : ClassTable).mentioned) :
    u ∈ m.types ∨ u ∈ table.mentioned := by
  unfold ClassTable.mentioned at h ⊢
  simp only [List.mem_append] at h ⊢
  rcases h with h | h
  · exact .inr (.inl h)
  · unfold MethodTable.types at h ⊢
    obtain ⟨entry, hentry, hin⟩ := List.mem_flatMap.mp h
    obtain ⟨overload, hoverload, hu⟩ := List.mem_flatMap.mp hin
    rcases Table.mem_put hentry with rfl | hentry
    · rcases Table.mem_putAll hoverload with hoverload | hoverload
      · -- an overload that is new stands under a key of the method
        obtain ⟨key, hkey, rfl⟩ := List.mem_map.mp hoverload
        obtain ⟨cut, -, rfl⟩ := List.mem_map.mp hkey
        have := mem_restrictedTypes.mp hu
        refine .inl (List.mem_cons_of_mem _ (List.mem_append_left _ ?_))
        exact mem_restrictedTypes.mpr (List.mem_of_mem_take this)
      · cases hold : table.methods.get? m.name with
        | none => rw [hold] at hoverload; cases hoverload
        | some overloads =>
          rw [hold] at hoverload
          exact .inr (.inr (List.mem_flatMap.mpr ⟨_, Table.mem_of_get? hold,
            List.mem_flatMap.mpr ⟨overload, hoverload, hu⟩⟩))
    · exact .inr (.inr (List.mem_flatMap.mpr ⟨entry, hentry,
        List.mem_flatMap.mpr ⟨overload, hoverload, hu⟩⟩))

theorem shapes_defineMethod (c : Catalog) (m : Method) :
    (c.defineMethod m).2.shapes = c.shapes := by
  unfold defineMethod
  dsimp only
  split <;> rfl

theorem specializations_defineMethod (c : Catalog) (m : Method) :
    (c.defineMethod m).2.specializations = c.specializations := by
  unfold defineMethod
  dsimp only
  split <;> rfl

theorem defineMethod (hc : c.Sound) {m : Method} (hm : ∀ u ∈ m.types, c.Definite u) :
    (c.defineMethod m).2.Sound := by
  have hpushed := hc.pushMethod hm
  unfold Catalog.defineMethod
  dsimp only
  split
  · next k _ =>
    refine hpushed.modifyClass k fun u hu => ?_
    rcases mentioned_methods hu with hu | hu
    · exact hm u hu
    · exact hc.classes k u hu
  · exact hpushed

theorem callable_defineMethod (hc : c.Callable) {m : Method} (hm : m.AsksForValue) :
    (c.defineMethod m).2.Callable := by
  have hpushed := callable_pushMethod hc hm
  unfold Catalog.defineMethod
  dsimp only
  split
  · next k _ =>
    refine hpushed.modifyClass k fun table h => h.enterMethod ?_ ?_
    · exact Nat.lt_of_lt_of_eq (Nat.lt_succ_self _) (Array.size_push m).symm
    · rw [method_push, if_pos rfl]
  · exact hpushed

theorem declares_defineMethod (hc : c.Sound) {m : Method} (hm : ∀ u ∈ m.types, c.Definite u)
    (hvalue : m.AsksForValue) : c.Declares (c.defineMethod m).2 := by
  have hshapes := shapes_defineMethod c m
  refine ⟨hc.defineMethod hm, .of_shapes_eq hshapes, fun h t => ?_, specializations_defineMethod c m,
    fun h => callable_defineMethod h hvalue⟩
  rw [shape_of_shapes_eq hshapes]
  exact h t

theorem declares_defineBuiltin (hc : c.Sound) (name : String) {owner : Ty}
    (parameters : List Parameter) (builtin : Builtin) (howner : c.Definite owner)
    (hparameters : ∀ u ∈ restrictedTypes (parameters.map (·.restriction)), c.Definite u)
    (hbuiltin : ∀ u ∈ builtin.types, c.Definite u) (hvalue : (Body.builtin builtin).writes = false) :
    c.Declares (c.defineBuiltin owner name parameters builtin) := by
  refine hc.declares_defineMethod (fun u hu => ?_) fun h => by rw [hvalue] at h; cases h
  rcases List.mem_append.mp hu with hu | hu
  · rcases List.mem_cons.mp hu with rfl | hu
    · exact howner
    · exact hparameters u hu
  · exact hbuiltin u hu

/-! ## New types -/

theorem shape_enterName (c : Catalog) (scope : Ty) (name : String) (t u : Ty) :
    (c.enterName scope name t).shape u = c.shape u := by
  unfold enterName
  split <;> rfl

theorem size_enterName (c : Catalog) (scope : Ty) (name : String) (t : Ty) :
    (c.enterName scope name t).size = c.size := by
  unfold enterName
  split <;> rfl

theorem shape_enterType (c : Catalog) (table : ClassTable) (shape : ClassHandle → Shape) (t : Ty) :
    (c.enterType table shape).shape t =
      if t.index = c.size then shape ⟨c.classes.size⟩ else c.shape t := by
  unfold enterType
  dsimp only
  split
  · rw [shape_enterName]
    exact shape_push c _ t
  · exact shape_push c _ t

theorem size_enterType (c : Catalog) (table : ClassTable) (shape : ClassHandle → Shape) :
    (c.enterType table shape).size = c.size + 1 := by
  unfold enterType
  dsimp only
  split
  · rw [size_enterName]
    exact size_push c (shape ⟨c.classes.size⟩)
  · exact size_push c (shape ⟨c.classes.size⟩)

theorem declares_enterType (hc : c.Sound) (table : ClassTable) (shape : ClassHandle → Shape)
    (ht : ∀ u ∈ table.mentioned, c.Definite u)
    (hs : ∀ k, (shape k).isUnion = false ∧ (shape k).isProvisional = false ∧
      c.Linked (shape k) ∧ ∀ u ∈ (shape k).types, c.Definite u)
    (hkeys : ∀ c : Catalog, c.Keys table.methods) :
    c.Declares (c.enterType table shape) := by
  obtain ⟨hu, hp, hl, htypes⟩ := hs ⟨c.classes.size⟩
  have hpush := hc.declares_push hu hp htypes hl
  have hadded := hpush.trans
    (hpush.sound.declares_pushClass (fun u hu => hpush.definite (ht u hu)) (hkeys _))
  unfold enterType
  dsimp only
  split
  · refine hadded.trans (hadded.sound.declares_enterName _ _ ?_)
    exact (Grows.of_shapes_eq rfl).definite (definite_push c hp)
  · exact hadded

theorem mentioned_bare {name : String} {container superclass : Option Ty}
    (h : u ∈ (ClassTable.bare name container superclass).mentioned) :
    container = some u ∨ superclass = some u := by
  unfold ClassTable.mentioned ClassTable.bare at h
  simpa [MethodTable.types, Table.empty] using h

theorem declares_enterMetaclass (hc : c.Sound) (name : String) (container : Option Ty)
    (ht : c.Definite t) (hlast : t.index + 1 = c.size)
    (hplain : ∀ o, c.shape t = .object o → o.template = none)
    (hcontainer : ∀ u, container = some u → c.Definite u) :
    c.Declares (c.enterMetaclass t name container) ∧
      (c.enterMetaclass t name container).Definite t.next := by
  have hpush := hc.declares_push (s := .metaclass ⟨c.classes.size⟩ t) rfl rfl
    (fun u hu => by rw [List.mem_singleton.mp hu]; exact ht) hplain
  have hadded := hpush.trans (hpush.sound.declares_pushClass
    (show ∀ u ∈ (ClassTable.bare (name ++ ":Class") container none).mentioned, _ from fun u hu => by
      rcases mentioned_bare hu with hu | hu
      · exact hpush.definite (hcontainer u hu)
      · cases hu) (keys_empty _))
  have hnext : Definite { c with
      shapes := c.shapes.push (.metaclass ⟨c.classes.size⟩ t)
      classes := c.classes.push (.bare (name ++ ":Class") container none) } t.next := by
    rw [show t.next = ⟨c.size⟩ from Ty.eq_of_index hlast]
    exact (Grows.of_shapes_eq rfl).definite (definite_push c (s := .metaclass _ t) rfl)
  -- the metaclass gets two methods, one after the other
  have builtin : ∀ {d : Catalog}, d.Sound → d.Definite t.next → ∀ n,
      d.Declares (d.defineBuiltin t.next n [] (.fixed .string)) := fun hd hnext n =>
    hd.declares_defineBuiltin n [] _ hnext (fun u hu => by cases hu)
      (fun u hu => by rw [List.mem_singleton.mp hu]; exact hd.builtin (by decide)) rfl
  have hname := builtin hadded.sound hnext "name"
  have hsimple := builtin hname.sound (hname.definite hnext) "simple_name"
  exact ⟨hadded.trans (hname.trans hsimple), hsimple.definite (hname.definite hnext)⟩

/-- Declaring a class-like type that mentions definite types. Its metaclass comes right behind. -/
theorem declares_newClassLike (hc : c.Sound) (name : String) (container superclass : Option Ty)
    (shape : ClassHandle → Shape) (hcontainer : ∀ u, container = some u → c.Definite u)
    (hsuper : ∀ u, superclass = some u → c.Definite u)
    (hs : ∀ k, (shape k).isUnion = false ∧ (shape k).isProvisional = false ∧
      (∀ o, shape k = .object o → o.template = none) ∧ (∀ l u, shape k ≠ .metaclass l u) ∧
      ∀ u ∈ (shape k).types, c.Definite u) :
    c.Declares (c.newClassLike name container superclass shape).2 ∧
      (c.newClassLike name container superclass shape).2.Definite ⟨c.size⟩ ∧
      (c.newClassLike name container superclass shape).2.Definite (Ty.next ⟨c.size⟩) := by
  have htype := hc.declares_enterType (.bare name container superclass) shape
    (fun u hu => by
      rcases mentioned_bare hu with hu | hu
      · exact hcontainer u hu
      · exact hsuper u hu)
    (fun k => by
      obtain ⟨hu, hp, ho, hm, ht⟩ := hs k
      refine ⟨hu, hp, ?_, ht⟩
      cases hk : shape k with
      | object o =>
        intro u hu
        rw [ho o hk] at hu
        cases hu
      | metaclass l u => exact absurd hk (hm l u)
      | _ => trivial) keys_empty
  obtain ⟨-, hp, ho, -, -⟩ := hs ⟨c.classes.size⟩
  have hshape := shape_enterType c (.bare name container superclass) shape ⟨c.size⟩
  rw [if_pos rfl] at hshape
  have hid : (c.enterType (.bare name container superclass) shape).Definite ⟨c.size⟩ :=
    ⟨by rw [size_enterType]; exact Nat.lt_succ_self _, by rw [hshape]; exact hp⟩
  obtain ⟨hmeta, hnext⟩ := htype.sound.declares_enterMetaclass name container hid
    (size_enterType ..).symm (fun o h => ho o (hshape ▸ h))
    (fun u hu => htype.definite (hcontainer u hu))
  exact ⟨htype.trans hmeta, hmeta.definite hid, hnext⟩

theorem declares_newMixin (hc : c.Sound) (name : String) {container : Option Ty}
    (hcontainer : ∀ u, container = some u → c.Definite u) :
    c.Declares (c.newMixin name container).2 ∧ (c.newMixin name container).2.Definite ⟨c.size⟩ := by
  obtain ⟨h, hid, -⟩ := hc.declares_newClassLike name container none .mixin hcontainer
    (fun u hu => by cases hu) (fun k => ⟨rfl, rfl, fun o h => (by cases h),
      fun l u h => (by cases h), fun u hu => (by cases hu)⟩)
  exact ⟨h, hid⟩

theorem declares_newPrimitive (hc : c.Sound) (name : String) {superclass container : Ty}
    (width : Nat) (hsuper : c.Definite superclass) (hcontainer : c.Definite container) :
    c.Declares (c.newPrimitive name superclass width container).2 := by
  refine (hc.declares_newClassLike name _ _ (.primitive · width) (fun u hu => ?_)
    (fun u hu => ?_) (fun k => ⟨rfl, rfl, fun o h => (by cases h), fun l u h => (by cases h),
      fun u hu => (by cases hu)⟩)).1
  · cases hu; exact hcontainer
  · cases hu; exact hsuper

theorem declares_newObject (hc : c.Sound) (name : String) {superclass : Option Ty} {container : Ty}
    (generic : Bool) (hsuper : ∀ u, superclass = some u → c.Definite u)
    (hcontainer : c.Definite container) :
    c.Declares (c.newObject name superclass container generic).2 ∧
      (c.newObject name superclass container generic).2.Definite ⟨c.size⟩ := by
  obtain ⟨h, hid, hnext⟩ := hc.declares_newClassLike name (some container) superclass
    (fun k => .object ⟨k, .empty, generic, none⟩)
    (fun u hu => by cases hu; exact hcontainer) hsuper
    (fun k => ⟨rfl, rfl, fun o h => (by cases h; rfl), fun l u h => (by cases h),
      fun u hu => (by simp [Shape.types, Table.empty] at hu)⟩)
  rw [newObject_eq]
  have halloc := h.sound.declares_defineBuiltin "allocate" [] .allocate
    hnext (fun u hu => by cases hu) (fun u hu => by cases hu) rfl
  exact ⟨h.trans halloc, halloc.definite hid⟩

theorem declares_defineField (hc : c.Sound) {field : String × Ty} (ht : c.Definite t)
    (hfield : c.Definite field.2) : c.Declares (c.defineField t field) := by
  have hwrite := hc.declares_defineBuiltin (field.1 ++ "=")
    [⟨"value", some (.type field.2), none⟩] (.slot field.1) ht
    (fun u hu => by rw [List.mem_singleton.mp hu]; exact hfield) (fun u hu => by cases hu) rfl
  exact hwrite.trans (hwrite.sound.declares_defineBuiltin field.1 [] (.slot field.1)
    (hwrite.definite ht) (fun u hu => by cases hu) (fun u hu => by cases hu) rfl)

theorem declares_fields {fields : List (String × Ty)} (hc : c.Sound) (ht : c.Definite t)
    (hfields : ∀ field ∈ fields, c.Definite field.2) :
    c.Declares (fields.foldl (defineField t) c) := by
  induction fields generalizing c with
  | nil => exact .refl hc
  | cons field fields ih =>
    have hone := hc.declares_defineField ht (hfields field List.mem_cons_self)
    exact hone.trans (ih hone.sound (hone.definite ht) fun f hf =>
      hone.definite (hfields f (List.mem_cons_of_mem _ hf)))

theorem declares_newRecord (hc : c.Sound) (name : String) {fields : Table String Ty} {container : Ty}
    (hfields : ∀ field ∈ fields.entries, c.Definite field.2) (hcontainer : c.Definite container) :
    c.Declares (c.newRecord name fields container).2 := by
  obtain ⟨h, hid, hnext⟩ := hc.declares_newClassLike name (some container) none (.record · fields)
    (fun u hu => by cases hu; exact hcontainer)
    (fun u hu => by cases hu) (fun k => ⟨rfl, rfl, fun o h => (by cases h),
      fun l u h => (by cases h), fun u hu => (by
        obtain ⟨field, hfield, rfl⟩ := List.mem_map.mp hu
        exact hfields field hfield)⟩)
  have hfold := declares_fields h.sound hid fun field hf => h.definite (hfields field hf)
  have hnew := hfold.sound.declares_defineBuiltin "new" [] .allocate
    (hfold.definite hnext) (fun u hu => by cases hu) (fun u hu => by cases hu) rfl
  rw [newRecord_eq]
  exact h.trans (hfold.trans hnew)

theorem declares_newConstant (hc : c.Sound) (name : String) (value : Expr) {container : Ty}
    (hcontainer : c.Definite container) :
    c.Declares (c.newConstant name value container).2 := by
  have hpush := hc.declares_push (s := .constant name container value) rfl rfl
    (fun u hu => by rw [List.mem_singleton.mp hu]; exact hcontainer) trivial
  exact hpush.trans (hpush.sound.declares_enterName _ _ (definite_push c rfl))

theorem enterName_extends (c : Catalog) (scope : Ty) (name : String) (t : Ty) :
    c.Extends (c.enterName scope name t) := by
  unfold enterName
  split
  · next k _ =>
    refine ⟨.of_shapes_eq rfl, fun l => ?_, rfl, fun u hu => (Extends.refl c).entered u hu⟩
    unfold Catalog.modifyClass classTable
    rw [Array.getElem?_modify]
    split
    · cases c.classes[l.index]? with
      | none => exact ⟨_, rfl⟩
      | some table => exact ⟨table.types.put name t, rfl⟩
    · exact ⟨_, rfl⟩
  · exact .refl c

theorem newConstant_extends (c : Catalog) (name : String) (value : Expr) (container : Ty) :
    c.Extends (c.newConstant name value container).2 := by
  have hpush : c.Extends (c.push (.constant name container value)).2 :=
    .push c fun k u h => by cases h
  exact hpush.trans (enterName_extends _ _ _ _)

theorem declares_includeMixin (hc : c.Sound) {t included : Ty} (hincluded : c.Definite included)
    (h : c.includeMixin t included = .ok c') : c.Declares c' := by
  unfold includeMixin at h
  split at h
  · cases h
  · split at h
    · cases h
    · next k _ =>
      cases h
      refine hc.declares_modifyClass k (fun u hu => ?_) fun table h => by split <;> exact h
      split at hu
      · exact hc.classes k u hu
      · unfold ClassTable.mentioned at hu
        simp only [List.mem_append] at hu
        have hold := hc.classes k u
        unfold ClassTable.mentioned at hold
        simp only [List.mem_append] at hold
        rcases hu with (((hu | hu) | hu | hu) | hu) | hu
        · exact hold (.inl (.inl (.inl (.inl hu))))
        · exact hold (.inl (.inl (.inl (.inr hu))))
        · exact hold (.inl (.inl (.inr hu)))
        · rw [List.mem_singleton.mp hu]; exact hincluded
        · exact hold (.inl (.inr hu))
        · exact hold (.inr hu)

/-- Giving a slot a definite type. -/
theorem setSlot (hc : c.Sound) (t : Ty) (name : String) (hu : c.Definite u) :
    (c.setSlot t name u).Sound ∧ c.Extends (c.setSlot t name u) := by
  unfold Catalog.setSlot resolvedShape
  split
  · next o ho =>
    refine ⟨hc.setSlots ho fun v hv => ?_, .setShape (by rw [ho]; exact .slots o _)⟩
    obtain ⟨slot, hslot, hv⟩ := List.mem_flatMap.mp hv
    rcases Table.mem_put hslot with rfl | hslot
    · obtain rfl : v = u := by simpa using hv
      exact hu
    · refine hc.shapes (c.resolve t) v ?_
      rw [ho]
      exact List.mem_append_left _ (List.mem_flatMap.mpr ⟨slot, hslot, hv⟩)
  · exact ⟨hc, .refl c⟩

end Sound

/-! ## The built-in types -/

/-- What makes a catalog sound that has no unions, provisional types or specializations. -/
structure Elementary (c : Catalog) : Prop where
  shapes : ∀ s ∈ c.shapes.toList, s.isUnion = false ∧ s.isProvisional = false ∧
    s.template? = none ∧ ∀ u ∈ s.types, u.index < c.size
  classes : ∀ k ∈ c.classes.toList, ∀ u ∈ k.mentioned, u.index < c.size
  methods : ∀ m ∈ c.methods.toList, ∀ u ∈ m.types, u.index < c.size
  specializations : c.specializations.entries = []
  builtins : ∀ entry ∈ Ty.builtins, entry.2.index < c.size

theorem shape_mem_or_default (c : Catalog) (t : Ty) :
    c.shape t ∈ c.shapes.toList ∨ c.size ≤ t.index := by
  rcases Nat.lt_or_ge t.index c.shapes.size with h | h
  · left
    unfold shape
    rw [Array.getElem?_eq_getElem h]
    exact Array.getElem_mem_toList h
  · exact .inr h

theorem Elementary.plain (h : c.Elementary) : c.Plain := by
  intro t
  rcases shape_mem_or_default c t with hmem | hle
  · exact (h.shapes _ hmem).2.1
  · rw [shape_of_size_le hle]
    rfl

theorem Elementary.definite (h : c.Elementary) {t : Ty} (ht : t.index < c.size) : c.Definite t :=
  ⟨ht, h.plain t⟩

theorem Elementary.not_union (h : c.Elementary) {t : Ty} (ht : t.index < c.size) (ms : List Ty) :
    c.shape t ≠ .union ms := by
  intro hs
  rcases shape_mem_or_default c t with hmem | hle
  · have := (h.shapes _ hmem).1
    rw [hs] at this
    cases this
  · exact absurd ht (Nat.not_lt.mpr hle)

theorem Elementary.template_eq_none (h : c.Elementary) {t : Ty} {o : ObjectShape}
    (ho : c.shape t = .object o) : o.template = none := by
  rcases shape_mem_or_default c t with hmem | hle
  · have := (h.shapes _ hmem).2.2.1
    rw [ho] at this
    exact this
  · rw [shape_of_size_le hle] at ho
    cases ho

theorem Elementary.types (h : c.Elementary) (t u : Ty) (hu : u ∈ (c.shape t).types) :
    c.Definite u := by
  rcases shape_mem_or_default c t with hmem | hle
  · exact h.definite ((h.shapes _ hmem).2.2.2 u hu)
  · rw [shape_of_size_le hle] at hu
    cases hu

theorem Elementary.mentioned (h : c.Elementary) (k : ClassHandle) (u : Ty)
    (hu : u ∈ (c.classTable k).mentioned) : c.Definite u := by
  unfold classTable at hu
  cases hk : c.classes[k.index]? with
  | none =>
    rw [hk] at hu
    simp [ClassTable.mentioned, MethodTable.types, default, ClassTable.bare, Table.empty] at hu
  | some table =>
    rw [hk] at hu
    exact h.definite
      (h.classes table (Array.mem_toList_iff.mpr (Array.mem_of_getElem? hk)) u hu)

/-- A method that was never defined reads as one that mentions two built-in types. -/
theorem Elementary.methodTypes (h : c.Elementary) (m : MethodHandle) (u : Ty)
    (hu : u ∈ (c.method m).types) : c.Definite u := by
  unfold method at hu
  cases hm : c.methods[m.index]? with
  | none =>
    rw [hm] at hu
    have : u = .main ∨ u = .nil := by
      simpa [Method.types, default, restrictedTypes, Body.types, Builtin.types] using hu
    rcases this with rfl | rfl
    · exact h.definite (h.builtins ("main", .main) (by decide))
    · exact h.definite (h.builtins ("Nil", .nil) (by decide))
  | some method =>
    rw [hm] at hu
    exact h.definite
      (h.methods method (Array.mem_toList_iff.mpr (Array.mem_of_getElem? hm)) u hu)

theorem Elementary.canonical (h : c.Elementary) : c.Canonical := by
  refine ⟨fun t ms ht hms => absurd hms (h.not_union ht ms),
    fun t u ms ht _ hms => absurd hms (h.not_union ht ms), fun t p hp => ?_⟩
  have := h.plain t
  rw [hp] at this
  cases this

theorem Elementary.sound (h : c.Elementary) : c.Sound where
  canonical := h.canonical
  shapes := h.types
  classes := h.mentioned
  methods := h.methodTypes
  links t := by
    cases hs : c.shape t with
    | object o =>
      intro u hu
      rw [h.template_eq_none hs] at hu
      cases hu
    | metaclass k u => exact fun o ho => h.template_eq_none ho
    | _ => trivial
  specializations entry he := by
    rw [h.specializations] at he
    cases he
  builtins entry he := h.definite (h.builtins entry he)

/-- Class tables and methods that were never entered are no exception. -/
theorem callable_of_entered (hkeys : ∀ table ∈ c.classes.toList, c.Keys table.methods)
    (hvalues : ∀ m ∈ c.methods.toList, m.AsksForValue) : c.Callable := by
  refine ⟨fun k => ?_, fun id => ?_⟩
  · unfold classTable
    cases hk : c.classes[k.index]? with
    | none => exact keys_empty c
    | some table => exact hkeys table (Array.mem_toList_iff.mpr (Array.mem_of_getElem? hk))
  · unfold method
    cases hm : c.methods[id.index]? with
    | none => exact fun h => by cases h
    | some m => exact hvalues m (Array.mem_toList_iff.mpr (Array.mem_of_getElem? hm))

theorem elementary_seeded : seeded.Elementary where
  shapes := by decide +kernel
  classes := by decide +kernel
  methods := by decide +kernel
  specializations := by decide +kernel
  builtins := by decide +kernel

theorem callable_seeded : seeded.Callable :=
  callable_of_entered (by decide +kernel) (by decide +kernel)

end Catalog

end FlowTyping
