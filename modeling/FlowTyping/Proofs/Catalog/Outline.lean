import FlowTyping.Inference.Dispatch
import FlowTyping.Proofs.Catalog.Merging

/-
  Outlines of catalogs

  The outline of a catalog is what is left of it without its methods and without
  the nodes of its provisional types. Names, ancestors, acceptance and the texts
  of types are read off the outline alone, and what is entered in a catalog while
  expressions are typed is found from its outline. So two catalogs with one
  outline answer alike, and go on to have one outline.
-/
namespace FlowTyping

/-- An entry without the nodes of a provisional type. -/
def Shape.outline : Shape → Shape
  | .provisional p => .provisional { p with observed := [], holder := default }
  | s => s

/-- A class table without methods. -/
def ClassTable.outline (table : ClassTable) : ClassTable := { table with methods := .empty }

namespace Catalog

/-- A catalog without its methods and the nodes of provisional types. -/
def outline (c : Catalog) : Catalog where
  shapes := c.shapes.map Shape.outline
  classes := c.classes.map ClassTable.outline
  methods := #[]
  specializations := c.specializations

variable {c c' : Catalog} {t u : Ty} {k : ClassHandle}

/-! ## Entries and class tables -/

@[simp] theorem size_outline (c : Catalog) : c.outline.size = c.size := Array.size_map

@[simp] theorem shape_outline (c : Catalog) (t : Ty) : c.outline.shape t = (c.shape t).outline := by
  unfold shape outline
  rw [Array.getElem?_map]
  cases c.shapes[t.index]? <;> rfl

@[simp] theorem classTable_outline (c : Catalog) (k : ClassHandle) :
    c.outline.classTable k = (c.classTable k).outline := by
  unfold classTable outline
  rw [Array.getElem?_map]
  cases c.classes[k.index]? <;> rfl

@[simp] theorem cls?_shape_outline (s : Shape) : s.outline.cls? = s.cls? := by cases s <;> rfl

@[simp] theorem resolveWithin_outline (c : Catalog) (bound : Nat) (t : Ty) :
    c.outline.resolveWithin bound t = c.resolveWithin bound t := by
  induction bound generalizing t with
  | zero => rfl
  | succ bound ih =>
    rw [resolveWithin, resolveWithin, shape_outline]
    cases c.shape t with
    | provisional p => cases hs : p.standing <;> simp only [Shape.outline, hs, ih]
    | _ => rfl

@[simp] theorem resolve_outline (c : Catalog) (t : Ty) : c.outline.resolve t = c.resolve t := by
  rw [resolve, resolve, size_outline, resolveWithin_outline]

@[simp] theorem resolvedShape_outline (c : Catalog) (t : Ty) :
    c.outline.resolvedShape t = (c.resolvedShape t).outline := by
  rw [resolvedShape, resolve_outline, shape_outline]
  rfl

@[simp] theorem cls?_outline (c : Catalog) (t : Ty) : c.outline.cls? t = c.cls? t := by
  rw [cls?, cls?, resolvedShape_outline, cls?_shape_outline]

@[simp] theorem tableOf_outline (c : Catalog) (t : Ty) :
    c.outline.tableOf t = (c.tableOf t).map ClassTable.outline := by
  rw [tableOf, tableOf, cls?_outline, Option.map_map]
  exact congrArg (Option.map · _) (funext (classTable_outline c))

@[simp] theorem standsForNil_outline (c : Catalog) (t : Ty) :
    c.outline.standsForNil t = c.standsForNil t := by
  rw [standsForNil, standsForNil, resolve_outline]

@[simp] theorem isMeta_outline (c : Catalog) (t : Ty) : c.outline.isMeta t = c.isMeta t := by
  rw [isMeta, isMeta, resolvedShape_outline]
  cases c.resolvedShape t <;> rfl

@[simp] theorem isSuperseded_outline (c : Catalog) (t : Ty) :
    c.outline.isSuperseded t = c.isSuperseded t := by
  rw [isSuperseded, isSuperseded, shape_outline]
  cases c.shape t <;> rfl

@[simp] theorem members_outline (c : Catalog) (t : Ty) : c.outline.members t = c.members t := by
  rw [members, members, resolvedShape_outline, resolve_outline]
  cases c.resolvedShape t <;> rfl

@[simp] theorem slots_outline (c : Catalog) (t : Ty) : c.outline.slots t = c.slots t := by
  rw [slots, slots, resolvedShape_outline]
  cases c.resolvedShape t <;> rfl

@[simp] theorem slot?_outline (c : Catalog) (t : Ty) (name : String) :
    c.outline.slot? t name = c.slot? t name := by
  rw [slot?, slot?, slots_outline]

@[simp] theorem pointee?_outline (c : Catalog) (t : Ty) : c.outline.pointee? t = c.pointee? t := by
  rw [pointee?, pointee?, resolvedShape_outline]
  cases c.resolvedShape t <;> rfl

/-! ## Ancestors and names -/

@[simp] theorem metaclassHolder_outline (c : Catalog) (t : Ty) :
    c.outline.metaclassHolder t = c.metaclassHolder t := by
  rw [metaclassHolder, metaclassHolder, resolvedShape_outline, resolve_outline]
  cases c.resolvedShape t <;> rfl

@[simp] theorem metaclass?_outline (c : Catalog) (t : Ty) :
    c.outline.metaclass? t = c.metaclass? t := by
  unfold metaclass?
  dsimp only
  rw [metaclassHolder_outline, shape_outline]
  cases c.shape (c.metaclassHolder t).next <;> rfl

@[simp] theorem subject_outline (c : Catalog) (t : Ty) : c.outline.subject t = c.subject t := by
  rw [subject, subject, resolvedShape_outline, resolve_outline]
  cases c.resolvedShape t <;> rfl

@[simp] theorem declaredParents_outline (c : Catalog) (t : Ty) :
    c.outline.declaredParents t = c.declaredParents t := by
  rw [declaredParents, declaredParents, resolvedShape_outline, tableOf_outline]
  cases c.resolvedShape t <;> cases c.tableOf t <;> rfl

@[simp] theorem parents_outline (c : Catalog) (t : Ty) : c.outline.parents t = c.parents t := by
  rw [parents, parents, resolvedShape_outline, declaredParents_outline,
    funext (metaclass?_outline c)]
  cases c.resolvedShape t with
  | metaclass k subject => exact congrArg (List.filterMap _) (declaredParents_outline c subject)
  | _ => rfl

@[simp] theorem descend_outline (c : Catalog) (path : List String) (t : Ty) :
    c.outline.descend path t = c.descend path t := by
  induction path generalizing t with
  | nil => rfl
  | cons name rest ih =>
    rw [descend, descend, tableOf_outline]
    cases c.tableOf t with
    | none => rfl
    | some table =>
      have htypes : table.outline.types = table.types := rfl
      rw [Option.map_some, Option.bind_some, Option.bind_some, htypes]
      cases table.types.get? name with
      | none => rfl
      | some nested => exact ih nested

@[simp] theorem searched_outline (c : Catalog) (t : Ty) : c.outline.searched t = c.searched t := by
  rw [searched, searched, subject_outline, resolve_outline]

@[simp] theorem outward_outline (c : Catalog) (t : Ty) : c.outline.outward t = c.outward t := by
  rw [outward, outward, parents_outline, tableOf_outline, funext (searched_outline c)]
  cases c.tableOf t <;> rfl

@[simp] theorem find_outline (c : Catalog) (path : List String) (t : Ty) :
    c.outline.find path t = c.find path t := by
  rw [find, find, funext (outward_outline c), size_outline, searched_outline,
    funext (descend_outline c path)]

@[simp] theorem nestedType_outline (c : Catalog) (scope : Ty) (name : String) :
    c.outline.nestedType scope name = c.nestedType scope name := by
  rw [nestedType, nestedType, tableOf_outline]
  cases c.tableOf scope <;> rfl

/-! ## Texts -/

@[simp] theorem isOutermost_outline (c : Catalog) (t : Ty) :
    c.outline.isOutermost t = c.isOutermost t := by
  rw [isOutermost, isOutermost, shape_outline, cls?_shape_outline]
  cases (c.shape t).cls? with
  | none => rfl
  | some k =>
    dsimp only
    rw [classTable_outline]
    rfl

@[simp] theorem nameAndContainer_outline (c : Catalog) (t : Ty) :
    c.outline.nameAndContainer t = c.nameAndContainer t := by
  rw [nameAndContainer, nameAndContainer, resolvedShape_outline, tableOf_outline, Option.map_map]
  cases c.resolvedShape t <;> rfl

@[simp] theorem qualifiedName_outline (c : Catalog) (render : Ty → String) (bound : Nat) (t : Ty) :
    c.outline.qualifiedName render bound t = c.qualifiedName render bound t := by
  induction bound generalizing t with
  | zero => rfl
  | succ bound ih =>
    rw [qualifiedName, qualifiedName, nameAndContainer_outline]
    rcases c.nameAndContainer t with _ | ⟨name, _ | container⟩
    · rfl
    · rfl
    · dsimp only
      rw [isOutermost_outline, ih]

@[simp] theorem elementType_outline (c : Catalog) (o : ObjectShape) :
    c.outline.elementType o = c.elementType o := by
  unfold elementType
  rw [classTable_outline, funext (pointee?_outline c)]
  rfl

@[simp] theorem bindingsText_outline (c : Catalog) (part : Ty → String) (s : Shape) :
    c.outline.bindingsText part s.outline = c.bindingsText part s := by
  cases s with
  | object o =>
    obtain ⟨cls, slots, generic, template⟩ := o
    cases template with
    | none => rfl
    | some template =>
      unfold Shape.outline bindingsText
      dsimp only
      rw [elementType_outline, classTable_outline]
      rfl
  | _ => rfl

@[simp] theorem displayWithin_outline (c : Catalog) (bound : Nat) (enclosing : List Ty) (t : Ty) :
    c.outline.displayWithin bound enclosing t = c.displayWithin bound enclosing t := by
  induction bound generalizing enclosing t with
  | zero => rfl
  | succ bound ih =>
    have hpart : ∀ enclosing, c.outline.displayWithin bound enclosing =
        c.displayWithin bound enclosing := fun enclosing => funext (ih enclosing)
    unfold displayWithin
    dsimp only
    rw [resolve_outline, hpart, hpart, shape_outline, qualifiedName_outline, size_outline]
    cases hs : c.shape (c.resolve t) with
    | pointer pointee =>
      simp only [Shape.outline]
      cases pointee <;> rfl
    | object o =>
      have := bindingsText_outline c (c.displayWithin bound (c.resolve t :: enclosing)) (.object o)
      simp only [Shape.outline] at this ⊢
      rw [this]
    | _ => rfl

@[simp] theorem display_outline (c : Catalog) (t : Ty) : c.outline.display t = c.display t := by
  rw [display, display, displayBound, displayBound, size_outline, displayWithin_outline]

@[simp] theorem memberName_outline (c : Catalog) (owner : Ty) (name : String) :
    c.outline.memberName owner name = c.memberName owner name := by
  rw [memberName, memberName, resolve_outline, resolvedShape_outline, display_outline]
  cases c.resolvedShape owner with
  | metaclass k subject =>
    show (if _ then _ else c.outline.display subject ++ "." ++ name) = _
    rw [display_outline]
  | _ => rfl

@[simp] theorem parameterText_outline (c : Catalog) (p : Parameter) :
    c.outline.parameterText p = c.parameterText p := by
  unfold parameterText
  rcases p.restriction with _ | _ | _
  · rfl
  · dsimp only
    rw [display_outline]
  · rfl

@[simp] theorem instanceText_outline (c : Catalog) (owner : Ty) (name : String)
    (arguments : List Ty) :
    c.outline.instanceText owner name arguments = c.instanceText owner name arguments := by
  rw [instanceText, instanceText, memberName_outline, funext (display_outline c)]

/-! ## Calls -/

@[simp] theorem sameClass_outline (c : Catalog) (t u : Ty) :
    c.outline.sameClass t u = c.sameClass t u := by
  rw [sameClass, sameClass, cls?_outline, cls?_outline]

@[simp] theorem acceptsWithin_outline (c : Catalog) (bound : Nat) (r t : Ty) :
    c.outline.acceptsWithin bound r t = c.acceptsWithin bound r t := by
  induction bound generalizing t with
  | zero => rfl
  | succ bound ih =>
    rw [acceptsWithin, acceptsWithin, resolve_outline, resolve_outline, resolvedShape_outline,
      parents_outline, sameClass_outline, funext ih]
    cases c.resolvedShape t <;> rfl

@[simp] theorem accepts_outline (c : Catalog) (r t : Ty) : c.outline.accepts r t = c.accepts r t := by
  rw [accepts, accepts, size_outline, acceptsWithin_outline]

@[simp] theorem acceptsArguments_outline (c : Catalog) (receiver : Ty)
    (rs : List (Option Restriction)) (ts : List Ty) :
    c.outline.acceptsArguments receiver rs ts = c.acceptsArguments receiver rs ts := by
  induction rs generalizing ts with
  | nil => cases ts <;> rfl
  | cons r rs ih =>
    cases ts with
    | nil => rfl
    | cons t ts =>
      rw [acceptsArguments, acceptsArguments, ih]
      cases r with
      | none => rfl
      | some r =>
        exact congrArg (· && _) (accepts_outline c _ t)

@[simp] theorem fits_outline (c : Catalog) (q : Query) (key : MethodKey) :
    c.outline.fits q key = c.fits q key := by
  rw [fits, fits, acceptsArguments_outline]

@[simp] theorem searchOrder_outline (c : Catalog) (owner : Ty) (q : Query) :
    c.outline.searchOrder owner q = c.searchOrder owner q := by
  rw [searchOrder, searchOrder, isMeta_outline, resolve_outline, size_outline,
    funext (parents_outline c), funext (resolve_outline c)]

@[simp] theorem moreGeneralParameter_outline (c : Catalog) (receiver : Ty) (p q : Parameter) :
    c.outline.moreGeneralParameter receiver p q = c.moreGeneralParameter receiver p q := by
  rw [moreGeneralParameter, moreGeneralParameter]
  cases p.restriction <;> cases q.restriction <;> simp only [accepts_outline]

/-! ## Two catalogs with one outline -/

theorem resolve_of_outline (h : c'.outline = c.outline) (t : Ty) : c'.resolve t = c.resolve t := by
  rw [← resolve_outline c', h, resolve_outline]

theorem cls?_of_outline (h : c'.outline = c.outline) (t : Ty) : c'.cls? t = c.cls? t := by
  rw [← cls?_outline c', h, cls?_outline]

theorem accepts_of_outline (h : c'.outline = c.outline) (r t : Ty) :
    c'.accepts r t = c.accepts r t := by
  rw [← accepts_outline c', h, accepts_outline]

theorem fits_of_outline (h : c'.outline = c.outline) (q : Query) : c'.fits q = c.fits q := by
  funext key
  rw [← fits_outline c', h, fits_outline]

theorem searchOrder_of_outline (h : c'.outline = c.outline) (owner : Ty) (q : Query) :
    c'.searchOrder owner q = c.searchOrder owner q := by
  rw [← searchOrder_outline c', h, searchOrder_outline]

/-- Definitions with the same parameters compare alike. -/
theorem moreGeneral_of_outline (h : c'.outline = c.outline) {m m' n n' : MethodHandle}
    (hm : c'.method m' = c.method m) (hn : c'.method n' = c.method n) (receiver : Ty) :
    c'.moreGeneral receiver m' n' = c.moreGeneral receiver m n := by
  unfold moreGeneral
  rw [hm, hn]
  refine congrArg (List.all _) (funext fun pair => ?_)
  rw [← moreGeneralParameter_outline c', h, moreGeneralParameter_outline]

@[simp] theorem isGeneric_outline (c : Catalog) (t : Ty) : c.outline.isGeneric t = c.isGeneric t := by
  rw [isGeneric, isGeneric, shape_outline]
  cases c.shape t <;> rfl

@[simp] theorem constructed_outline (c : Catalog) (owner : Ty) :
    c.outline.constructed owner = c.constructed owner := by
  rw [constructed, constructed, shape_outline]
  cases c.shape owner with
  | metaclass k t =>
    dsimp only [Shape.outline]
    rw [shape_outline]
    cases c.shape t <;> rfl
  | _ => rfl

@[simp] theorem builtinType_outline (c : Catalog) (owner : Ty) (name : String) (b : Builtin)
    (arguments : List Ty) (place : Place) :
    c.outline.builtinType owner name b arguments place =
      c.builtinType owner name b arguments place := by
  unfold builtinType
  rw [display_outline, subject_outline, funext (pointee?_outline c)]
  cases b <;> simp only [slot?_outline]

/-! ## What is entered -/

theorem findIdx?_outline (c : Catalog) {p : Shape → Bool} (hp : ∀ s : Shape, p s.outline = p s) :
    c.outline.shapes.findIdx? p = c.shapes.findIdx? p := by
  have hp : p ∘ Shape.outline = p := funext hp
  show (c.shapes.map Shape.outline).findIdx? p = _
  rw [Array.findIdx?_map, hp]

theorem push_outline (c : Catalog) (s : Shape) :
    c.outline.push s.outline = ((c.push s).1, (c.push s).2.outline) := by
  unfold push outline
  dsimp only
  rw [Array.size_map, Array.map_push]

theorem setShape_outline (c : Catalog) (t : Ty) (s : Shape) :
    c.outline.setShape t s.outline = (c.setShape t s).outline := by
  unfold setShape outline
  dsimp only
  rw [Array.map_setIfInBounds]

theorem intern_outline (c : Catalog) {p : Shape → Bool} (hp : ∀ s : Shape, p s.outline = p s)
    {s : Shape} (hs : s.outline = s) :
    c.outline.intern p s = ((c.intern p s).1, (c.intern p s).2.outline) := by
  unfold intern
  rw [findIdx?_outline c hp]
  cases c.shapes.findIdx? p with
  | some i => rfl
  | none =>
    have hpush := push_outline c s
    rwa [hs] at hpush

theorem live_outline (c : Catalog) (ts : List Ty) : c.outline.live ts = c.live ts := by
  rw [live, live, funext (isSuperseded_outline c), funext (members_outline c)]

theorem merge_outline (c : Catalog) (ts : List Ty) :
    c.outline.merge ts = ((c.merge ts).1, (c.merge ts).2.outline) := by
  unfold merge
  rw [live_outline]
  split
  · rfl
  · rfl
  · rw [union_eq_intern, union_eq_intern, intern_outline c (fun s => by cases s <;> rfl) rfl]
    rfl

theorem pointerFor_outline (c : Catalog) (t : Ty) :
    c.outline.pointerFor t = ((c.pointerFor t).1, (c.pointerFor t).2.outline) := by
  rw [pointerFor_eq_intern, pointerFor_eq_intern, resolve_outline]
  exact intern_outline c (fun s => by cases s <;> rfl) rfl

theorem specialize_outline (c : Catalog) (template : Ty) (bindings : List (String × Ty)) :
    c.outline.specialize template bindings =
      ((c.specialize template bindings).1, (c.specialize template bindings).2.outline) := by
  rw [specialize, specialize, shape_outline]
  cases c.shape template with
  | object o => exact push_outline c (.object _)
  | _ => rfl

@[simp] theorem templateOf_outline (c : Catalog) (t : Ty) :
    c.outline.templateOf t = c.templateOf t := by
  rw [templateOf, templateOf, resolvedShape_outline, resolve_outline]
  cases c.resolvedShape t <;> rfl

theorem instantiate_outline (c : Catalog) (t : Ty) (bindings : List (String × Ty)) :
    c.outline.instantiate t bindings =
      (c.instantiate t bindings).map fun result => (result.1, result.2.outline) := by
  unfold instantiate bindingKey
  rw [templateOf_outline, display_outline, resolve_outline, funext (resolve_outline c)]
  cases c.templateOf t with
  | none => rfl
  | some template =>
    dsimp only
    rw [show c.outline.specializations = c.specializations from rfl]
    cases c.specializations.get? _ with
    | some known => rfl
    | none =>
      dsimp only
      rw [specialize_outline]
      rfl

theorem enterName_outline (c : Catalog) (scope : Ty) (name : String) (t : Ty) :
    c.outline.enterName scope name t = (c.enterName scope name t).outline := by
  unfold enterName
  rw [shape_outline, cls?_shape_outline]
  cases (c.shape scope).cls? with
  | none => rfl
  | some k =>
    unfold modifyClass outline
    dsimp only
    congr 1
    refine Array.ext (by simp) fun i h₁ h₂ => ?_
    rw [Array.getElem_modify, Array.getElem_map, Array.getElem_map, Array.getElem_modify]
    split <;> rfl

theorem newConstant_outline (c : Catalog) (name : String) (value : Expr) (container : Ty) :
    c.outline.newConstant name value container =
      ((c.newConstant name value container).1, (c.newConstant name value container).2.outline) := by
  have hpush := push_outline c (.constant name container value)
  unfold newConstant
  rw [show (Shape.constant name container value).outline = .constant name container value from rfl]
    at hpush
  rw [hpush]
  dsimp only
  rw [enterName_outline]

theorem setSlot_outline (c : Catalog) (t : Ty) (name : String) (type : Ty) :
    c.outline.setSlot t name type = (c.setSlot t name type).outline := by
  unfold setSlot
  rw [resolvedShape_outline, resolve_outline]
  cases c.resolvedShape t with
  | object o => exact setShape_outline c _ (.object _)
  | _ => rfl

end Catalog

end FlowTyping
