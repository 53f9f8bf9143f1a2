import FlowTyping.Proofs.Catalog.Indexing
import FlowTyping.Proofs.Inference.Reopening

/-
  Namespaces within namespaces

  What is declared in a class or module comes later in the catalog than that, and
  is no metaclass and no specialization (`Inward`). The type pass keeps it so
  (`inward_typePass`). So methods of a nested class or module are entered
  elsewhere than methods of the one around it.
-/
namespace FlowTyping

open Steps

/-- Entries that are no metaclass and stand for themselves only. -/
def Shape.standsAlone : Shape → Bool
  | .object o => o.template.isNone
  | .pointer pointee => pointee.isNone
  | .metaclass _ _ | .provisional _ | .union _ => false
  | _ => true

namespace Catalog

variable {c c' : Catalog} {t u scope : Ty} {k : ClassHandle} {s : Shape} {name : String}

/-- A type that is entered and stands for itself. -/
def Apart (c : Catalog) (t : Ty) : Prop := t.index < c.size ∧ (c.shape t).standsAlone = true

/-- The type `u` has a name in the class table of `t`. -/
def Nests (c : Catalog) (t u : Ty) : Prop :=
  ∃ k name, (c.shape t).cls? = some k ∧ (c.classTable k).types.get? name = some u

/-- Namespaces contain only what comes later, and what stands for itself. -/
structure Inward (c : Catalog) : Prop where
  tabled : c.Tabled
  main : c.Apart .main
  later : ∀ t u, c.Nests t u → t.index < u.index ∧ c.Apart u

theorem Apart.of_shapes_eq (h : c.Apart t) (hshapes : c'.shapes = c.shapes) : c'.Apart t := by
  unfold Apart shape size at h ⊢
  rwa [hshapes]

theorem Apart.push (h : c.Apart t) (s : Shape) (classes : Array ClassTable) :
    Apart { c with shapes := c.shapes.push s, classes := classes } t := by
  have hshape : shape { c with shapes := c.shapes.push s, classes := classes } t = c.shape t :=
    (shape_push c s t).trans (if_neg (Nat.ne_of_lt h.1))
  refine ⟨?_, hshape ▸ h.2⟩
  exact Nat.lt_trans h.1 (Nat.lt_of_lt_of_eq (Nat.lt_succ_self _) (Array.size_push s).symm)

theorem Apart.resolve_eq (h : c.Apart t) : c.resolve t = t := by
  refine resolveWithin_of_not_provisional ?_ _
  have halone := h.2
  cases hs : c.shape t with
  | provisional p => rw [hs] at halone; cases halone
  | _ => rfl

/-- The entry that is pushed last. -/
theorem apart_pushed (c : Catalog) (hs : s.standsAlone = true) (classes : Array ClassTable) :
    Apart { c with shapes := c.shapes.push s, classes := classes } ⟨c.size⟩ := by
  have hshape : shape { c with shapes := c.shapes.push s, classes := classes } ⟨c.size⟩ = s :=
    (shape_push c s _).trans (if_pos rfl)
  refine ⟨Nat.lt_of_lt_of_eq (Nat.lt_succ_self _) (Array.size_push s).symm, ?_⟩
  rw [hshape]
  exact hs

/-- A new class-like type stands for itself if its entry does. -/
theorem apart_newClassLike (c : Catalog) (name : String) (container superclass : Option Ty)
    (shape : ClassHandle → Shape) (halone : ∀ k, (shape k).standsAlone = true) :
    (c.newClassLike name container superclass shape).2.Apart ⟨c.size⟩ := by
  let entered := c.enterType (.bare name container superclass) shape
  have hentered : entered.Apart ⟨c.size⟩ := by
    refine ⟨?_, ?_⟩
    · rw [Sound.size_enterType]
      exact Nat.lt_succ_self _
    · rw [Sound.shape_enterType, if_pos rfl]
      exact halone _
  have hmeta := hentered.push (.metaclass ⟨entered.classes.size⟩ ⟨c.size⟩)
    (entered.classes.push (.bare (name ++ ":Class") container none))
  exact (hmeta.of_shapes_eq (Sound.shapes_defineMethod _ _)).of_shapes_eq
    (Sound.shapes_defineMethod _ _)

namespace Inward

/-- Class tables may change, but for the types that are named in them. -/
theorem of_shapes_eq (hc : c.Inward) (hshapes : c'.shapes = c.shapes)
    (hclasses : c'.classes.size = c.classes.size)
    (htypes : ∀ k, (c'.classTable k).types = (c.classTable k).types) : c'.Inward := by
  have hshape := shape_of_shapes_eq hshapes
  refine ⟨hc.tabled.of_shapes_eq hshapes hclasses, hc.main.of_shapes_eq hshapes,
    fun t u ⟨k, name, hk, hu⟩ => ?_⟩
  obtain ⟨hlt, hu⟩ := hc.later t u ⟨k, name, hshape t ▸ hk, htypes k ▸ hu⟩
  exact ⟨hlt, hu.of_shapes_eq hshapes⟩

theorem modifyClass (hc : c.Inward) (k : ClassHandle) {f : ClassTable → ClassTable}
    (hf : ∀ table, (f table).types = table.types) : (c.modifyClass k f).Inward := by
  refine hc.of_shapes_eq rfl (Array.size_modify ..) fun l => ?_
  rw [classTable_modifyClass]
  split
  · exact hf _
  · rfl

theorem defineMethod (hc : c.Inward) (m : Method) : (c.defineMethod m).2.Inward := by
  have hpushed : Inward { c with methods := c.methods.push m } :=
    hc.of_shapes_eq rfl rfl fun _ => rfl
  unfold Catalog.defineMethod
  dsimp only
  split
  · exact hpushed.modifyClass _ fun _ => rfl
  · exact hpushed

theorem defineBuiltin (hc : c.Inward) (owner : Ty) (name : String) (parameters : List Parameter)
    (builtin : Builtin) : (c.defineBuiltin owner name parameters builtin).Inward :=
  hc.defineMethod _

/-- A new entry without a class table. -/
theorem push (hc : c.Inward) (hs : s.cls? = none)
    (hconstant : ∃ name container value, s = .constant name container value) :
    Inward { c with shapes := c.shapes.push s, classes := c.classes } where
  tabled := hc.tabled.push (Nat.le_refl _) (fun k h => by rw [hs] at h; cases h) fun _ => hconstant
  main := hc.main.push s c.classes
  later t u := by
    rintro ⟨k, name, hk, hu⟩
    rw [show shape { c with shapes := c.shapes.push s, classes := c.classes } t = _ from
      shape_push c s t] at hk
    split at hk
    · rw [hs] at hk
      cases hk
    · obtain ⟨hlt, hu⟩ := hc.later t u ⟨k, name, hk, hu⟩
      exact ⟨hlt, hu.push s c.classes⟩

/-- A new entry with a class table of its own, in which nothing has a name. -/
theorem pushWithTable (hc : c.Inward) (hs : s.cls? = some ⟨c.classes.size⟩) (bareName : String)
    (container superclass : Option Ty) :
    Inward { c with
      shapes := c.shapes.push s
      classes := c.classes.push (.bare bareName container superclass) } where
  tabled := hc.tabled.pushWithTable hs _
  main := hc.main.push s _
  later t u := by
    rintro ⟨k, name, hk, hu⟩
    have htable := Sound.classTable_push c (.bare bareName container superclass) k
    rw [show (classTable { c with
        shapes := c.shapes.push s
        classes := c.classes.push (.bare bareName container superclass) } k) = _ from htable] at hu
    split at hu
    · cases hu
    · next hne =>
      rw [show shape { c with
          shapes := c.shapes.push s
          classes := c.classes.push (.bare bareName container superclass) } t = _ from
        shape_push c s t] at hk
      split at hk
      · exact absurd (congrArg ClassHandle.index (Option.some.inj (hs.symm.trans hk)).symm) hne
      · obtain ⟨hlt, hu⟩ := hc.later t u ⟨k, _, hk, hu⟩
        exact ⟨hlt, hu.push s _⟩

/-- A later type gets a name. -/
theorem enterName (hc : c.Inward) (hlt : scope.index < t.index) (ht : c.Apart t) (name : String) :
    (c.enterName scope name t).Inward := by
  unfold Catalog.enterName
  split
  · next k hk =>
    refine ⟨hc.tabled.modifyClass _ _, hc.main, fun v u ⟨l, other, hl, hu⟩ => ?_⟩
    rw [classTable_modifyClass] at hu
    split at hu
    · next hsame =>
      rw [Table.get?_put] at hu
      split at hu
      · -- only the scope has this class table
        obtain rfl := hc.tabled.own v scope k (hsame.1 ▸ hl) hk
        obtain rfl := Option.some.inj hu
        exact ⟨hlt, ht⟩
      · exact hc.later v u ⟨l, other, hl, hu⟩
    · exact hc.later v u ⟨l, other, hl, hu⟩
  · exact hc

/-- A new type that stands for itself gets a name in a namespace that is there. -/
theorem newClassLike (hc : c.Inward) (hscope : c.Apart scope) (name : String)
    (superclass : Option Ty) (shape : ClassHandle → Shape) (hshape : ∀ k, (shape k).cls? = some k)
    (halone : ∀ k, (shape k).standsAlone = true) :
    (c.newClassLike name (some scope) superclass shape).2.Inward := by
  have hadded := hc.pushWithTable (hshape ⟨c.classes.size⟩) name (some scope) superclass
  have hnamed := hadded.enterName (t := ⟨c.size⟩) hscope.1
    (apart_pushed c (halone _) _) name
  have hmeta := hnamed.pushWithTable (s := .metaclass ⟨_⟩ ⟨c.size⟩) rfl (name ++ ":Class")
    (some scope) none
  exact (hmeta.defineBuiltin _ _ _ _).defineBuiltin _ _ _ _

theorem newObject (hc : c.Inward) (hscope : c.Apart scope) (name : String)
    (superclass : Option Ty) (generic : Bool) :
    (c.newObject name superclass scope generic).2.Inward := by
  have hcreated := hc.newClassLike hscope name superclass
    (fun k => .object ⟨k, .empty, generic, none⟩) (fun _ => rfl) fun _ => rfl
  rw [newObject_eq]
  exact hcreated.defineBuiltin _ _ _ _

theorem newMixin (hc : c.Inward) (hscope : c.Apart scope) (name : String) :
    (c.newMixin name (some scope)).2.Inward :=
  hc.newClassLike hscope name none .mixin (fun _ => rfl) fun _ => rfl

theorem newRecord (hc : c.Inward) (hscope : c.Apart scope) (name : String)
    (fields : Table String Ty) : (c.newRecord name fields scope).2.Inward := by
  have hfields : ∀ {d : Catalog}, d.Inward →
      (fields.entries.foldl (defineField ⟨c.size⟩) d).Inward := fun hd =>
    List.foldlRecOn _ _ hd fun d hd field _ =>
      (hd.defineBuiltin _ _ _ _).defineBuiltin _ _ _ _
  rw [newRecord_eq]
  exact (hfields (hc.newClassLike hscope name none (.record · fields) (fun _ => rfl)
    fun _ => rfl)).defineBuiltin _ _ _ _

theorem newConstant (hc : c.Inward) (hscope : c.Apart scope) (name : String) (value : Expr) :
    (c.newConstant name value scope).2.Inward :=
  Inward.enterName (hc.push (s := .constant name scope value) rfl ⟨_, _, _, rfl⟩) hscope.1
    (apart_pushed c rfl _) name

theorem includeMixin (hc : c.Inward) {included : Ty} (h : c.includeMixin t included = .ok c') :
    c'.Inward := by
  unfold Catalog.includeMixin at h
  split at h
  · cases h
  · split at h
    · cases h
    · cases h
      refine hc.modifyClass _ fun table => ?_
      split <;> rfl

/-- What a namespace that stands for itself declares. -/
theorem nested (hc : c.Inward) (hscope : c.Apart scope) (h : c.nestedType scope name = some t) :
    scope.index < t.index ∧ c.Apart t := by
  unfold nestedType tableOf cls? resolvedShape at h
  rw [hscope.resolve_eq] at h
  cases hk : (c.shape scope).cls? with
  | none => rw [hk] at h; cases h
  | some k =>
    rw [hk] at h
    exact hc.later scope t ⟨k, name, hk, h⟩

end Inward

theorem Apart.definite (h : c.Apart t) : c.Definite t := by
  refine ⟨h.1, ?_⟩
  have halone := h.2
  cases hs : c.shape t with
  | provisional p => rw [hs] at halone; cases halone
  | _ => rfl

/-- Growing keeps types apart. -/
theorem Apart.grows (h : c.Apart t) (hgrows : c.Grows c') : c'.Apart t := by
  refine ⟨Nat.lt_of_lt_of_le h.1 hgrows.size_le, ?_⟩
  have hbecomes := hgrows.shape t h.1
  have halone := h.2
  generalize c.shape t = s at hbecomes halone
  generalize c'.shape t = s' at hbecomes
  cases hbecomes with
  | same => exact halone
  | slots => exact halone
  | standing => cases halone

/-- The built-in types are named in the outermost namespace, which comes first. -/
theorem inward_seeded : seeded.Inward := by
  have hcls : ∀ i < seeded.size, (seeded.shape ⟨i⟩).cls? = some ⟨i⟩ := by decide +kernel
  have hnames : ∀ i < seeded.size, ∀ entry ∈ (seeded.classTable ⟨i⟩).types.entries,
      i < entry.2.index ∧ entry.2.index < seeded.size ∧
        (seeded.shape entry.2).standsAlone = true := by decide +kernel
  refine ⟨tabled_seeded, ⟨by decide +kernel, by decide +kernel⟩, ?_⟩
  rintro t u ⟨k, name, hk, hu⟩
  have ht := lt_size_of_cls? hk
  obtain rfl : (⟨t.index⟩ : ClassHandle) = k := Option.some.inj ((hcls t.index ht).symm.trans hk)
  obtain ⟨hlt, hsize, halone⟩ := hnames t.index ht _ (Table.mem_of_get? hu)
  exact ⟨hlt, hsize, halone⟩

end Catalog

/-! ## The type pass -/

namespace DeclareM

open Catalog

variable {c c' : Catalog} {scope t : Ty} {place : Place} {name : String} {u : Unit}

theorem inward_openClass (hc : c.Inward) (hscope : c.Apart scope)
    {superclass : Option (List String)} {generic : Bool}
    (h : openClass scope name superclass generic place c = .ok t c') : c'.Inward ∧ c'.Apart t := by
  rcases openClass_cases h with ⟨hknown, rfl⟩ | ⟨-, parent, hnew⟩
  · exact ⟨hc, (hc.nested hscope hknown).2⟩
  · obtain ⟨rfl, rfl⟩ := Prod.ext_iff.mp hnew
    have hcreated := apart_newClassLike c name (some scope) (some parent)
      (fun k => .object ⟨k, .empty, generic, none⟩) fun _ => rfl
    exact ⟨hc.newObject hscope name (some parent) generic,
      hcreated.of_shapes_eq (Sound.shapes_defineMethod _ _)⟩

theorem inward_openModule (hc : c.Inward) (hscope : c.Apart scope)
    (h : openModule scope name c = .ok t c') : c'.Inward ∧ c'.Apart t := by
  rcases openModule_cases h with ⟨hknown, rfl⟩ | ⟨-, hnew⟩
  · exact ⟨hc, (hc.nested hscope hknown).2⟩
  · obtain ⟨rfl, rfl⟩ := Prod.ext_iff.mp hnew
    exact ⟨hc.newMixin hscope name, apart_newClassLike c name (some scope) none .mixin fun _ => rfl⟩

theorem inward_enterRecord (hc : c.Inward) (hscope : c.Apart scope)
    {fields : List (String × TypeName)} (h : enterRecord scope name fields place c = .ok u c') :
    c'.Inward := by
  obtain ⟨types, c₁, htypes, hmodify⟩ := bind_ok.mp (get_bind_ok.mp h)
  obtain ⟨-, rfl⟩ := ofExcept_ok.mp htypes
  obtain rfl := modify_ok.mp hmodify
  exact hc.newRecord hscope name _

theorem inward_enterInclusion (hc : c.Inward) {path : List String}
    (h : enterInclusion scope path place c = .ok u c') : c'.Inward := by
  obtain ⟨included, c₁, hincluded, hset⟩ := bind_ok.mp (get_bind_ok.mp h)
  obtain ⟨-, rfl⟩ := ofExcept_ok.mp hincluded
  replace hset := get_bind_ok.mp hset
  cases hmixin : c.includeMixin scope included with
  | error e =>
    rw [hmixin] at hset
    exact (throw_ok.mp hset).elim
  | ok d =>
    rw [hmixin] at hset
    cases hset
    exact hc.includeMixin hmixin

theorem inward_enterConstant (hc : c.Inward) (hscope : c.Apart scope) {value : Expr}
    (h : enterConstant scope name value c = .ok u c') : c'.Inward := by
  have hentered := modify_ok.mp h
  cases hname : c.nestedType scope name with
  | some known =>
    rw [hname] at hentered
    exact hentered ▸ hc
  | none =>
    rw [hname] at hentered
    exact hentered ▸ hc.newConstant hscope name value

theorem inward_enterConstants (hgood : declaring.Good c) (hc : c.Inward) (hscope : c.Apart scope)
    {mark : Mark} {targets : List Target} {values : List Expr}
    (h : enterConstants scope mark targets values c = .ok u c') : c'.Inward := by
  induction targets generalizing c values with
  | nil =>
    obtain ⟨-, rfl⟩ := pure_ok.mp h
    exact hc
  | cons target targets ih =>
    cases target with
    | constant name =>
      obtain ⟨_, c₁, hone, hrest⟩ := bind_ok.mp h
      obtain ⟨hgood₁, hdeclares, -⟩ := (keeps_enterConstant hscope.definite hgood).ok _ _ hone
      exact ih hgood₁ (inward_enterConstant hc hscope hone) (hscope.grows hdeclares.grows) hrest
    | localVar _ => exact ih hgood hc hscope h
    | slot _ => exact ih hgood hc hscope h

mutual

/-- In the type pass namespaces come to contain only what is later. -/
theorem inward_typePass {c c' : Catalog} {scope : Ty} {u : Unit} (hgood : declaring.Good c)
    (hc : c.Inward) (hscope : c.Apart scope) (e : Expr) (h : typePass scope e c = .ok u c') :
    c'.Inward := by
  cases e with
  | sequence mark items => exact inward_typePassAll hgood hc hscope items h
  | classDef mark name superclass generic body =>
    obtain ⟨t, c₁, hopen, hbody⟩ := bind_ok.mp h
    obtain ⟨hgood₁, -⟩ := (keeps_openClass hscope.definite hgood).ok _ _ hopen
    obtain ⟨hc₁, ht⟩ := inward_openClass hc hscope hopen
    exact inward_typePass hgood₁ hc₁ ht body hbody
  | moduleDef mark name body =>
    obtain ⟨t, c₁, hopen, hbody⟩ := bind_ok.mp h
    obtain ⟨hgood₁, -⟩ := (keeps_openModule hscope.definite hgood).ok _ _ hopen
    obtain ⟨hc₁, ht⟩ := inward_openModule hc hscope hopen
    exact inward_typePass hgood₁ hc₁ ht body hbody
  | recordDef mark name fields => exact inward_enterRecord hc hscope h
  | inclusion mark path => exact inward_enterInclusion hc h
  | assign mark target value =>
    cases target with
    | constant name => exact inward_enterConstant hc hscope h
    | localVar _ => exact (pure_ok.mp h).2 ▸ hc
    | slot _ => exact (pure_ok.mp h).2 ▸ hc
  | assignMany mark targets values => exact inward_enterConstants hgood hc hscope h
  | _ => exact (pure_ok.mp h).2 ▸ hc

theorem inward_typePassAll {c c' : Catalog} {scope : Ty} {u : Unit} (hgood : declaring.Good c)
    (hc : c.Inward) (hscope : c.Apart scope) (items : List Expr)
    (h : typePassAll scope items c = .ok u c') : c'.Inward := by
  cases items with
  | nil => exact (pure_ok.mp h).2 ▸ hc
  | cons item rest =>
    obtain ⟨_, c₁, hitem, hrest⟩ := bind_ok.mp h
    obtain ⟨hgood₁, hdeclares, -⟩ := (keeps_typePass hscope.definite item hgood).ok _ _ hitem
    exact inward_typePassAll hgood₁ (inward_typePass hgood hc hscope item hitem)
      (hscope.grows hdeclares.grows) rest hrest

end

end DeclareM

end FlowTyping
