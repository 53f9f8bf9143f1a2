import FlowTyping.Proofs.Catalog.Selection

/-
  Where declarations are found

  As long as types are declared only, every type has a class table of its own,
  or is a constant and has none (`Catalog.Tabled`). So what is declared for one
  type is found at that type alone. A name goes on to mean what it means unless a
  record takes it over (`Catalog.Displaces`), and a method is found under its keys
  until a later one of the same name takes over a key (`Tabled.found_or_taken`).
-/
namespace FlowTyping.Catalog

variable {c c' d : Catalog} {t u scope owner : Ty} {name : String} {key : MethodKey} {m : Method}
  {k : ClassHandle} {displaced displaced' : List Ty}

/-! ## Class tables -/

/-- Every type has a class table of its own, or is a constant. -/
structure Tabled (c : Catalog) : Prop where
  entered : ∀ t k, (c.shape t).cls? = some k → k.index < c.classes.size
  own : ∀ t u k, (c.shape t).cls? = some k → (c.shape u).cls? = some k → t = u
  constant : ∀ t, t.index < c.size → (c.shape t).cls? = none →
    ∃ name container value, c.shape t = .constant name container value

theorem lt_size_of_cls? (h : (c.shape t).cls? = some k) : t.index < c.size := by
  refine Nat.lt_of_not_le fun hle => ?_
  rw [shape_of_size_le hle] at h
  cases h

namespace Tabled

/-- Tables may change, and methods may be added. -/
theorem of_shapes_eq (hc : c.Tabled) (hshapes : c'.shapes = c.shapes)
    (hclasses : c'.classes.size = c.classes.size) : c'.Tabled := by
  have hshape := shape_of_shapes_eq hshapes
  refine ⟨fun t k h => ?_, fun t u k ht hu => ?_, fun t ht hnone => ?_⟩
  · rw [hclasses]
    exact hc.entered t k (hshape t ▸ h)
  · exact hc.own t u k (hshape t ▸ ht) (hshape u ▸ hu)
  · rw [hshape] at hnone ⊢
    exact hc.constant t (Nat.lt_of_lt_of_eq ht (size_of_shapes_eq hshapes)) hnone

theorem modifyClass (hc : c.Tabled) (k : ClassHandle) (f : ClassTable → ClassTable) :
    (c.modifyClass k f).Tabled :=
  hc.of_shapes_eq rfl (Array.size_modify ..)

theorem enterName (hc : c.Tabled) (scope : Ty) (name : String) (t : Ty) :
    (c.enterName scope name t).Tabled := by
  unfold Catalog.enterName
  split
  · exact hc.modifyClass _ _
  · exact hc

theorem defineMethod (hc : c.Tabled) (m : Method) : (c.defineMethod m).2.Tabled := by
  have hpushed : Tabled { c with methods := c.methods.push m } := hc.of_shapes_eq rfl rfl
  unfold Catalog.defineMethod
  dsimp only
  split
  · exact hpushed.modifyClass _ _
  · exact hpushed

/-- A type is added with a class table that is new, or is a constant. -/
theorem push (hc : c.Tabled) {s : Shape} {classes : Array ClassTable}
    (hclasses : c.classes.size ≤ classes.size)
    (hs : ∀ k, s.cls? = some k → c.classes.size ≤ k.index ∧ k.index < classes.size)
    (hconstant : s.cls? = none → ∃ name container value, s = .constant name container value) :
    Tabled { c with shapes := c.shapes.push s, classes := classes } := by
  have hshape : ∀ t, shape { c with shapes := c.shapes.push s, classes := classes } t =
      if t.index = c.size then s else c.shape t := shape_push c s
  refine ⟨fun t k h => ?_, fun t u k ht hu => ?_, fun t ht hnone => ?_⟩
  · rw [hshape] at h
    split at h
    · exact (hs k h).2
    · exact Nat.lt_of_lt_of_le (hc.entered t k h) hclasses
  · rw [hshape] at ht hu
    split at ht <;> split at hu
    · next htsize husize => exact Ty.eq_of_index (htsize.trans husize.symm)
    · exact (Nat.not_le.mpr (hc.entered u k hu) (hs k ht).1).elim
    · exact (Nat.not_le.mpr (hc.entered t k ht) (hs k hu).1).elim
    · exact hc.own t u k ht hu
  · rw [hshape] at hnone ⊢
    split at hnone
    · next heq =>
      rw [if_pos heq]
      exact hconstant hnone
    · next hne =>
      rw [if_neg hne]
      have ht : t.index < c.shapes.size + 1 := Nat.lt_of_lt_of_eq ht (Array.size_push s)
      exact hc.constant t (Nat.lt_of_le_of_ne (Nat.le_of_lt_succ ht) hne) hnone

/-- A type and its class table are added together. -/
theorem pushWithTable (hc : c.Tabled) {s : Shape} (hs : s.cls? = some ⟨c.classes.size⟩)
    (table : ClassTable) :
    Tabled { c with shapes := c.shapes.push s, classes := c.classes.push table } := by
  have hsize : (c.classes.push table).size = c.classes.size + 1 := Array.size_push table
  refine hc.push (by omega) (fun k h => ?_) fun hnone => by cases hs.symm.trans hnone
  cases hs.symm.trans h
  exact ⟨Nat.le_refl _, Nat.lt_of_lt_of_eq (Nat.lt_succ_self _) hsize.symm⟩

theorem newClassLike (hc : c.Tabled) {shape : ClassHandle → Shape}
    (hshape : ∀ k, (shape k).cls? = some k) (name : String) (container superclass : Option Ty) :
    (c.newClassLike name container superclass shape).2.Tabled := by
  have hentered : (c.enterType (.bare name container superclass) shape).Tabled := by
    unfold enterType
    dsimp only
    split
    · exact (hc.pushWithTable (hshape _) _).enterName _ _ _
    · exact hc.pushWithTable (hshape _) _
  exact ((hentered.pushWithTable rfl _).defineMethod _).defineMethod _

theorem newObject (hc : c.Tabled) (name : String) (superclass : Option Ty) (container : Ty)
    (generic : Bool) : (c.newObject name superclass container generic).2.Tabled := by
  rw [newObject_eq]
  exact (hc.newClassLike (fun _ => rfl) _ _ _).defineMethod _

theorem newMixin (hc : c.Tabled) (name : String) (container : Option Ty) :
    (c.newMixin name container).2.Tabled := hc.newClassLike (fun _ => rfl) _ _ _

theorem newRecord (hc : c.Tabled) (name : String) (fields : Table String Ty) (container : Ty) :
    (c.newRecord name fields container).2.Tabled := by
  have hfields : ∀ {d : Catalog}, d.Tabled →
      (fields.entries.foldl (defineField ⟨c.size⟩) d).Tabled := fun hd =>
    List.foldlRecOn _ _ hd fun d hd field _ => (hd.defineMethod _).defineMethod _
  rw [newRecord_eq]
  exact (hfields (hc.newClassLike (fun _ => rfl) _ _ _)).defineMethod _

theorem newConstant (hc : c.Tabled) (name : String) (value : Expr) (container : Ty) :
    (c.newConstant name value container).2.Tabled :=
  Tabled.enterName (hc.push (Nat.le_refl _) (fun _ h => by cases h) fun _ => ⟨_, _, _, rfl⟩) _ _ _

theorem includeMixin (hc : c.Tabled) {included : Ty} (h : c.includeMixin t included = .ok c') :
    c'.Tabled := by
  unfold Catalog.includeMixin at h
  split at h
  · cases h
  · split at h
    · cases h
    · cases h
      exact hc.modifyClass _ _

end Tabled

/-- The built-in types have class tables in the same order. -/
theorem tabled_seeded : seeded.Tabled := by
  have hcls : ∀ i < seeded.size, (seeded.shape ⟨i⟩).cls? = some ⟨i⟩ := by decide +kernel
  have hclasses : seeded.classes.size = seeded.size := by decide +kernel
  have hown : ∀ t k, (seeded.shape t).cls? = some k → k = ⟨t.index⟩ := fun t k h =>
    Option.some.inj (h.symm.trans (hcls t.index (lt_size_of_cls? h)))
  refine ⟨fun t k h => ?_, fun t u k ht hu => ?_, fun t ht hnone => ?_⟩
  · rw [hown t k h, hclasses]
    exact lt_size_of_cls? h
  · have := (hown t k ht).symm.trans (hown u k hu)
    exact Ty.eq_of_index (congrArg ClassHandle.index this)
  · cases hnone.symm.trans (hcls t.index ht)

/-! ## Names -/

theorem classTable_modifyClass (c : Catalog) (k l : ClassHandle) (f : ClassTable → ClassTable) :
    (c.modifyClass k f).classTable l =
      if l = k ∧ k.index < c.classes.size then f (c.classTable l) else c.classTable l := by
  unfold modifyClass classTable
  rw [Array.getElem?_modify]
  by_cases h : k.index = l.index
  · obtain rfl : k = l := by cases k; cases l; simp_all
    by_cases hb : k.index < c.classes.size
    · simp [hb]
    · simp [hb]
  · have hne : ¬ l = k := fun e => h (by rw [e])
    simp [h, hne]

theorem resolve_of_cls? (h : (c.shape t).cls? = some k) : c.resolve t = t := by
  refine resolveWithin_of_not_provisional ?_ _
  cases hs : c.shape t with
  | provisional p => rw [hs] at h; cases h
  | _ => rfl

theorem cls?_of_shape (h : (c.shape t).cls? = some k) : c.cls? t = some k := by
  rw [cls?, resolvedShape, resolve_of_cls? h, h]

theorem nestedType_of_cls? (h : c.cls? scope = some k) (name : String) :
    c.nestedType scope name = (c.classTable k).types.get? name := by
  unfold nestedType tableOf
  rw [h]
  rfl

/-- What a namespace has under a name. -/
theorem mem_nestedType (hk : (c.shape scope).cls? = some k)
    (ht : (c.classTable k).types.get? name = some t) : t ∈ (c.nestedType scope name).toList := by
  rw [nestedType_of_cls? (cls?_of_shape hk), ht]
  exact List.mem_singleton_self t

/-- Names mean what they mean, unless it is one of `displaced` that they mean. -/
def Displaces (c : Catalog) (displaced : List Ty) (c' : Catalog) : Prop :=
  ∀ k name t, (c.classTable k).types.get? name = some t →
    (c'.classTable k).types.get? name = some t ∨ t ∈ displaced

namespace Displaces

theorem mono (h : c.Displaces displaced c') (hsub : displaced ⊆ displaced') :
    c.Displaces displaced' c' :=
  fun k name t ht => (h k name t ht).imp id fun hin => hsub hin

theorem trans (h₁ : c.Displaces displaced c') (h₂ : c'.Displaces displaced d) :
    c.Displaces displaced d :=
  fun k name t ht => (h₁ k name t ht).elim (h₂ k name t) .inr

theorem of_classes_eq (h : c'.classes = c.classes) : c.Displaces displaced c' := by
  intro k name t ht
  unfold classTable at ht ⊢
  rw [h]
  exact .inl ht

theorem refl (c : Catalog) : c.Displaces displaced c := .of_classes_eq rfl

theorem modifyClass (k : ClassHandle) {f : ClassTable → ClassTable}
    (hf : ∀ table, (f table).types = table.types) : c.Displaces displaced (c.modifyClass k f) := by
  intro l name t ht
  rw [classTable_modifyClass]
  split
  · rw [hf]
    exact .inl ht
  · exact .inl ht

theorem pushClass (c : Catalog) (shapes : Array Shape) (table : ClassTable) :
    c.Displaces displaced { c with shapes := shapes, classes := c.classes.push table } := by
  intro k name t ht
  have htable := Sound.classTable_push c table k
  split at htable
  · next hnew =>
    -- a handle that has not been given out has no names
    unfold classTable at ht
    rw [hnew, Array.getElem?_eq_none (Nat.le_refl _)] at ht
    cases ht
  · exact .inl ((congrArg (·.types.get? name) htable).trans ht)

theorem defineMethod (c : Catalog) (m : Method) : c.Displaces displaced (c.defineMethod m).2 := by
  have hpushed : c.Displaces displaced { c with methods := c.methods.push m } := .of_classes_eq rfl
  unfold Catalog.defineMethod
  dsimp only
  split
  · exact hpushed.trans (.modifyClass _ fun _ => rfl)
  · exact hpushed

/-- What had the name is displaced. -/
theorem enterName (h : ∀ k u, (c.shape scope).cls? = some k →
    (c.classTable k).types.get? name = some u → u ∈ displaced) (t : Ty) :
    c.Displaces displaced (c.enterName scope name t) := by
  unfold Catalog.enterName
  split
  · next k hk =>
    intro l other u hu
    rw [classTable_modifyClass]
    split
    · next hl =>
      rw [Table.get?_put]
      split
      · next hother => exact .inr (h k u hk (hl.1 ▸ hother ▸ hu))
      · exact .inl hu
    · exact .inl hu
  · exact .refl c

theorem enterMetaclass (c : Catalog) (t : Ty) (name : String) (container : Option Ty) :
    c.Displaces displaced (c.enterMetaclass t name container) :=
  (pushClass c _ _).trans ((defineMethod _ _).trans (defineMethod _ _))

end Displaces

/-- A namespace has the names that its class table has. -/
theorem nestedType_congr (hgrows : c.Grows c') (hscope : c.Definite scope)
    (htypes : ∀ k, c.cls? scope = some k → (c'.classTable k).types = (c.classTable k).types)
    (name : String) : c'.nestedType scope name = c.nestedType scope name := by
  unfold nestedType tableOf
  rw [hgrows.cls?_eq hscope]
  cases hk : c.cls? scope with
  | none => rfl
  | some k => exact congrArg (·.get? name) (htypes k hk)

theorem Tabled.entered_of_cls? (hc : c.Tabled) (hscope : c.Definite scope)
    (h : c.cls? scope = some k) : k.index < c.classes.size := by
  rw [cls?, resolvedShape, resolve_of_definite hscope] at h
  exact hc.entered scope k h

/-- A new type takes no name but the one that it is entered under. -/
theorem nestedType_pushed (hc : c.Tabled) (hscope : c.Definite scope) (s : Shape)
    (table : ClassTable) (name : String) :
    nestedType { c with shapes := c.shapes.push s, classes := c.classes.push table } scope name =
      c.nestedType scope name := by
  have hgrows : c.Grows { c with shapes := c.shapes.push s, classes := c.classes.push table } :=
    (Grows.push c s).trans (.of_shapes_eq rfl)
  refine nestedType_congr hgrows hscope (fun k hk => ?_) name
  have htable := Sound.classTable_push c table k
  rw [if_neg (Nat.ne_of_lt (hc.entered_of_cls? hscope hk))] at htable
  exact congrArg ClassTable.types htable

namespace Displaces

theorem newClassLike (hc : c.Tabled) (hscope : c.Definite scope) (name : String)
    (superclass : Option Ty) (shape : ClassHandle → Shape) :
    c.Displaces (c.nestedType scope name).toList
      (c.newClassLike name (some scope) superclass shape).2 := by
  let added : Catalog := { c with
    shapes := c.shapes.push (shape ⟨c.classes.size⟩)
    classes := c.classes.push (.bare name (some scope) superclass) }
  have hentered : added.Displaces (c.nestedType scope name).toList
      (added.enterName scope name ⟨c.size⟩) := enterName (fun k u hk hu => by
    rw [← nestedType_pushed hc hscope]
    exact mem_nestedType hk hu) _
  exact (pushClass c _ _).trans (hentered.trans (.enterMetaclass _ _ _ _))

theorem newObject (hc : c.Tabled) (hscope : c.Definite scope) (name : String)
    (superclass : Option Ty) (generic : Bool) :
    c.Displaces (c.nestedType scope name).toList (c.newObject name superclass scope generic).2 := by
  rw [newObject_eq]
  exact (newClassLike hc hscope name superclass _).trans (.defineMethod _ _)

theorem newMixin (hc : c.Tabled) (hscope : c.Definite scope) (name : String) :
    c.Displaces (c.nestedType scope name).toList (c.newMixin name (some scope)).2 :=
  newClassLike hc hscope name none _

theorem newRecord (hc : c.Tabled) (hscope : c.Definite scope) (name : String)
    (fields : Table String Ty) :
    c.Displaces (c.nestedType scope name).toList (c.newRecord name fields scope).2 := by
  have hfields : ∀ d : Catalog, d.Displaces (c.nestedType scope name).toList
      (fields.entries.foldl (defineField ⟨c.size⟩) d) := fun d =>
    List.foldlRecOn _ _ (motive := fun d' => d.Displaces _ d') (.refl d) fun d' hd field _ =>
      hd.trans ((defineMethod _ _).trans (defineMethod _ _))
  rw [newRecord_eq]
  exact ((newClassLike hc hscope name none _).trans (hfields _)).trans (.defineMethod _ _)

theorem newConstant (c : Catalog) (scope : Ty) (name : String) (value : Expr) :
    c.Displaces (c.nestedType scope name).toList (c.newConstant name value scope).2 := by
  refine .trans (show c.Displaces _ (c.push (.constant name scope value)).2 from .of_classes_eq rfl)
    (enterName (fun k u hk hu => ?_) _)
  -- the constant itself is no namespace
  rw [shape_push] at hk
  split at hk
  · cases hk
  · exact mem_nestedType hk hu

theorem includeMixin {included : Ty} (h : c.includeMixin t included = .ok c') :
    c.Displaces displaced c' := by
  unfold Catalog.includeMixin at h
  split at h
  · cases h
  · split at h
    · cases h
    · cases h
      refine .modifyClass _ fun table => ?_
      split <;> rfl

/-- A type of a namespace keeps its name or is displaced. -/
theorem nestedType (h : c.Displaces displaced c') (hgrows : c.Grows c') (hscope : c.Definite scope)
    (ht : c.nestedType scope name = some t) :
    c'.nestedType scope name = some t ∨ t ∈ displaced := by
  cases hk : c.cls? scope with
  | none =>
    unfold Catalog.nestedType tableOf at ht
    rw [hk] at ht
    cases ht
  | some k =>
    rw [nestedType_of_cls? hk] at ht
    rw [nestedType_of_cls? ((hgrows.cls?_eq hscope).trans hk)]
    exact h k name t ht

end Displaces

/-- A new type has its name, if that is in a namespace with a class table. -/
theorem types_newClassLike (hc : c.Tabled) (hk : (c.shape scope).cls? = some k) (name : String)
    (superclass : Option Ty) (shape : ClassHandle → Shape) :
    ((c.newClassLike name (some scope) superclass shape).2.classTable k).types.get? name =
      some ⟨c.size⟩ := by
  let added : Catalog := { c with
    shapes := c.shapes.push (shape ⟨c.classes.size⟩)
    classes := c.classes.push (.bare name (some scope) superclass) }
  have hadded : (added.shape scope).cls? = some k := by
    rw [show added.shape scope = _ from shape_push c _ scope,
      if_neg (Nat.ne_of_lt (lt_size_of_cls? hk))]
    exact hk
  have hlt : k.index < added.classes.size :=
    Nat.lt_of_lt_of_eq (Nat.lt_succ_of_lt (hc.entered scope k hk)) (Array.size_push _).symm
  have hentered : ((added.enterName scope name ⟨c.size⟩).classTable k).types.get? name =
      some ⟨c.size⟩ := by
    unfold Catalog.enterName
    rw [hadded]
    dsimp only
    rw [classTable_modifyClass, if_pos ⟨rfl, hlt⟩, Table.get?_put_self]
  have hkept : (added.enterName scope name ⟨c.size⟩).Displaces [] _ :=
    .enterMetaclass _ ⟨c.size⟩ name (some scope)
  exact (hkept k name _ hentered).resolve_right List.not_mem_nil

/-! ## Methods -/

/-- The definition that stands under a name and a key in the class table of a type. -/
def methodUnder (c : Catalog) (owner : Ty) (name : String) (key : MethodKey) :
    Option MethodHandle :=
  (c.tableOf owner).bind fun table => (table.methods.get? name).bind (·.get? key)

theorem Plain.cls?_eq (h : c.Plain) : c.cls? t = (c.shape t).cls? := by
  rw [Catalog.cls?, resolvedShape, h.resolve_eq]

theorem Plain.defineMethod (h : c.Plain) (m : Method) : (c.defineMethod m).2.Plain := by
  intro t
  rw [shape_of_shapes_eq (Sound.shapes_defineMethod c m)]
  exact h t

/-- A method that is entered is found under its keys; under others what was there is found. -/
theorem get?_enterMethod (table : MethodTable) (m : Method) (id : MethodHandle) (name : String)
    (key : MethodKey) :
    ((enterMethod table m id).get? name).bind (·.get? key) =
      if name = m.name ∧ key ∈ methodKeys m then some id
      else (table.get? name).bind (·.get? key) := by
  unfold enterMethod
  rw [Table.get?_put]
  by_cases hname : name = m.name
  · rw [if_pos hname, Option.bind_some, Table.get?_putAll_const]
    subst hname
    by_cases hkey : key ∈ methodKeys m
    · rw [if_pos hkey, if_pos ⟨rfl, hkey⟩]
    · rw [if_neg hkey, if_neg fun h => hkey h.2]
      cases table.get? m.name <;> rfl
  · rw [if_neg hname, if_neg fun h => hname h.1]

/-- A declared method is found under its keys at its owner, and what was found elsewhere still
is. -/
theorem Tabled.methodUnder_defineMethod (hc : c.Tabled) (hplain : c.Plain)
    (howner : c.cls? m.owner = some k) (owner : Ty) (name : String) (key : MethodKey) :
    (c.defineMethod m).2.methodUnder owner name key =
      if owner = m.owner ∧ name = m.name ∧ key ∈ methodKeys m then some ⟨c.methods.size⟩
      else c.methodUnder owner name key := by
  have hlt : k.index < c.classes.size := hc.entered m.owner k (hplain.cls?_eq ▸ howner)
  have hclass : ∀ l, (c.defineMethod m).2.classTable l =
      if l = k then { c.classTable l with
        methods := enterMethod (c.classTable l).methods m ⟨c.methods.size⟩ }
      else c.classTable l := fun l => by
    unfold Catalog.defineMethod
    rw [howner]
    dsimp only
    rw [classTable_modifyClass]
    simp only [hlt, and_true]
    rfl
  unfold methodUnder tableOf
  rw [cls?_of_shapes_eq (Sound.shapes_defineMethod c m)]
  cases hl : c.cls? owner with
  | none =>
    rw [if_neg]
    · rfl
    · rintro ⟨rfl, -⟩
      cases hl.symm.trans howner
  | some l =>
    show ((((c.defineMethod m).2.classTable l).methods.get? name).bind (·.get? key)) = _
    rw [hclass]
    by_cases hlk : l = k
    · rw [if_pos hlk]
      -- only the owner has the class table of the owner
      have hsame : owner = m.owner :=
        hc.own owner m.owner k (hplain.cls?_eq ▸ hlk ▸ hl) (hplain.cls?_eq ▸ howner)
      rw [get?_enterMethod]
      simp only [hsame, true_and]
      rfl
    · rw [if_neg hlk, if_neg]
      · rfl
      · rintro ⟨rfl, -⟩
        exact hlk (Option.some.inj (hl.symm.trans howner))

theorem methodUnder_of_no_table (howner : c.cls? m.owner = none) (owner : Ty)
    (name : String) (key : MethodKey) :
    (c.defineMethod m).2.methodUnder owner name key = c.methodUnder owner name key := by
  have hclasses : (c.defineMethod m).2.classes = c.classes := by
    unfold Catalog.defineMethod
    rw [howner]
  unfold methodUnder tableOf classTable
  rw [cls?_of_shapes_eq (Sound.shapes_defineMethod c m), hclasses]

theorem handle_defineMethod (c : Catalog) (m : Method) :
    (c.defineMethod m).1 = ⟨c.methods.size⟩ := by
  unfold Catalog.defineMethod
  dsimp only
  split <;> rfl

theorem methods_defineMethod (c : Catalog) (m : Method) :
    (c.defineMethod m).2.methods = c.methods.push m := by
  unfold Catalog.defineMethod
  dsimp only
  split <;> rfl

/-- Declares methods one after the other. -/
def defineAll (c : Catalog) (ms : List Method) : Catalog :=
  ms.foldl (fun c m => (c.defineMethod m).2) c

theorem defineAll_append (c : Catalog) (ms later : List Method) :
    c.defineAll (ms ++ later) = (c.defineAll ms).defineAll later := List.foldl_append

/-- The handles of methods are given out in order. -/
theorem methods_defineAll (c : Catalog) (ms : List Method) :
    (c.defineAll ms).methods = c.methods ++ ms.toArray := by
  induction ms generalizing c with
  | nil => exact Array.append_empty.symm
  | cons m ms ih =>
    show ((c.defineMethod m).2.defineAll ms).methods = _
    rw [ih, methods_defineMethod]
    simp

theorem Plain.defineAll (h : c.Plain) (ms : List Method) : (c.defineAll ms).Plain :=
  List.foldlRecOn ms _ h fun _ hd m _ => hd.defineMethod m

theorem Tabled.defineAll (hc : c.Tabled) (ms : List Method) : (c.defineAll ms).Tabled :=
  List.foldlRecOn ms _ hc fun _ hd m _ => hd.defineMethod m

theorem shapes_defineAll (c : Catalog) (ms : List Method) : (c.defineAll ms).shapes = c.shapes :=
  List.foldlRecOn ms _ (motive := fun d : Catalog => d.shapes = c.shapes) rfl
    fun _ hd m _ => (Sound.shapes_defineMethod _ m).trans hd

/-- What is found under a key is found there until a later method takes it over. -/
theorem Tabled.found_or_taken (hc : c.Tabled) (hplain : c.Plain) {id : MethodHandle}
    (hfound : c.methodUnder owner name key = some id) (ms : List Method) :
    (c.defineAll ms).methodUnder owner name key = some id ∨
      ∃ later ∈ ms, later.owner = owner ∧ later.name = name ∧ key ∈ methodKeys later := by
  induction ms generalizing c with
  | nil => exact .inl hfound
  | cons m ms ih =>
    by_cases htaken : owner = m.owner ∧ name = m.name ∧ key ∈ methodKeys m
    · exact .inr ⟨m, List.mem_cons_self, htaken.1.symm, htaken.2.1.symm, htaken.2.2⟩
    · have hkept : (c.defineMethod m).2.methodUnder owner name key = some id := by
        cases howner : c.cls? m.owner with
        | none => rw [methodUnder_of_no_table howner, hfound]
        | some k => rw [hc.methodUnder_defineMethod hplain howner, if_neg htaken, hfound]
      refine (ih (hc.defineMethod m) (hplain.defineMethod m) hkept).imp_right ?_
      exact fun ⟨later, hlater, htakes⟩ => ⟨later, List.mem_cons_of_mem m hlater, htakes⟩

/-- A method of an owner with a class table is found under each of its keys, unless a later method
takes that over. -/
theorem Tabled.methodUnder_defineAll (hc : c.Tabled) (hplain : c.Plain)
    (howner : c.cls? m.owner = some k) (hkey : key ∈ methodKeys m) (before after : List Method) :
    (c.defineAll (before ++ m :: after)).methodUnder m.owner m.name key =
        some ⟨c.methods.size + before.length⟩ ∨
      ∃ later ∈ after, later.owner = m.owner ∧ later.name = m.name ∧ key ∈ methodKeys later := by
  have hc' := hc.defineAll before
  have hplain' := hplain.defineAll before
  rw [defineAll_append]
  refine Tabled.found_or_taken (hc'.defineMethod m) (hplain'.defineMethod m) ?_ after
  have howner' := (cls?_of_shapes_eq (shapes_defineAll c before) m.owner).trans howner
  rw [hc'.methodUnder_defineMethod hplain' howner',
    if_pos ⟨rfl, rfl, hkey⟩, methods_defineAll]
  simp

theorem types_defineMethod (c : Catalog) (m : Method) (k : ClassHandle) :
    ((c.defineMethod m).2.classTable k).types = (c.classTable k).types := by
  unfold Catalog.defineMethod
  dsimp only
  split
  · rw [classTable_modifyClass]
    split <;> rfl
  · rfl

/-- Methods are no types. -/
theorem nestedType_defineAll (c : Catalog) (ms : List Method) (scope : Ty) (name : String) :
    (c.defineAll ms).nestedType scope name = c.nestedType scope name := by
  have htypes : ∀ k, ((c.defineAll ms).classTable k).types = (c.classTable k).types := fun k =>
    List.foldlRecOn ms _ (motive := fun d => (classTable d k).types = (c.classTable k).types) rfl
      fun d hd m _ => (types_defineMethod d m k).trans hd
  unfold nestedType tableOf
  rw [cls?_of_shapes_eq (shapes_defineAll c ms)]
  cases c.cls? scope with
  | none => rfl
  | some k => exact congrArg (·.get? name) (htypes k)

end FlowTyping.Catalog
