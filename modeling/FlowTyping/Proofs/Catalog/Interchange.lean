import Mathlib.Data.List.Forall2
import FlowTyping.Catalog.Equality
import FlowTyping.Catalog.Overload
import FlowTyping.Catalog.Specialization
import FlowTyping.Catalog.Storage

/-
  Types that coincide

  Types coincide if they stand for one type. What a catalog tells of a type it
  reads off what the type stands for, there and wherever it comes upon a type
  on its way: among parents and members, in the name of a namespace, in a
  restriction, in an argument.

  Types that coincide are therefore interchangeable: each operation on types
  gives the same for the one as for the other, in every position that takes a
  type (`Coincide.interchangeable`). Overload selection is compared with all of
  its positions exchanged at once (`Coincide.select`).
-/
namespace FlowTyping

namespace Catalog

variable {c : Catalog} {p p' t t' u : Ty} {ts ts' : List Ty} {q q' : Query}

/-- Two types that stand for one type. -/
def Coincide (c : Catalog) (p t : Ty) : Prop := c.resolve p = c.resolve t

namespace Coincide

theorem refl (t : Ty) : c.Coincide t t := rfl

theorem resolve_eq (h : c.Coincide p t) : c.resolve p = c.resolve t := h

theorem shape_eq (h : c.Coincide p t) : c.resolvedShape p = c.resolvedShape t := congrArg c.shape h

/-! ## Kinds, members and slots -/

theorem cls? (h : c.Coincide p t) : c.cls? p = c.cls? t := congrArg Shape.cls? h.shape_eq

theorem tableOf (h : c.Coincide p t) : c.tableOf p = c.tableOf t := by
  rw [Catalog.tableOf, Catalog.tableOf, h.cls?]

theorem isMeta (h : c.Coincide p t) : c.isMeta p = c.isMeta t := by
  rw [Catalog.isMeta, Catalog.isMeta, h.shape_eq]

theorem standsForNil (h : c.Coincide p t) : c.standsForNil p = c.standsForNil t :=
  congrArg (· == Ty.nil) h.resolve_eq

theorem members (h : c.Coincide p t) : c.members p = c.members t := by
  rw [Catalog.members, Catalog.members, h.shape_eq, h.resolve_eq]

theorem canBeNilable (h : c.Coincide p t) : c.canBeNilable p = c.canBeNilable t := by
  rw [Catalog.canBeNilable, Catalog.canBeNilable, h.shape_eq, h.resolve_eq]

theorem nilablePart (h : c.Coincide p t) : c.nilablePart p = c.nilablePart t := by
  rw [Catalog.nilablePart, Catalog.nilablePart, h.shape_eq]

theorem slots (h : c.Coincide p t) : c.slots p = c.slots t := by
  rw [Catalog.slots, Catalog.slots, h.shape_eq]

theorem slot? (h : c.Coincide p t) (name : String) : c.slot? p name = c.slot? t name :=
  congrArg (·.get? name) h.slots

/-! ## Storage -/

theorem plainStorage (h : c.Coincide p t) (width : Nat) :
    c.plainStorage width p = c.plainStorage width t := by
  rw [Catalog.plainStorage, Catalog.plainStorage, h.shape_eq, h.slots]

theorem storage (h : c.Coincide p t) (width : Nat) : c.storage width p = c.storage width t := by
  have hreference : c.nilableReference p = c.nilableReference t := by
    rw [nilableReference, nilableReference, h.nilablePart]
  rw [Catalog.storage, Catalog.storage, h.shape_eq, hreference, h.plainStorage]

/-! ## Hierarchy and names -/

theorem metaclass? (h : c.Coincide p t) : c.metaclass? p = c.metaclass? t := by
  have hholder : c.metaclassHolder p = c.metaclassHolder t := by
    rw [metaclassHolder, metaclassHolder, h.shape_eq, h.resolve_eq]
  rw [Catalog.metaclass?, Catalog.metaclass?, hholder]

theorem subject (h : c.Coincide p t) : c.subject p = c.subject t := by
  rw [Catalog.subject, Catalog.subject, h.shape_eq, h.resolve_eq]

theorem parents (h : c.Coincide p t) : c.parents p = c.parents t := by
  have hdeclared : c.declaredParents p = c.declaredParents t := by
    rw [declaredParents, declaredParents, h.shape_eq, h.tableOf]
  rw [Catalog.parents, Catalog.parents, h.shape_eq, hdeclared]

theorem descendsFrom (h : c.Coincide p t) (h' : c.Coincide p' t') :
    c.descendsFrom p p' = c.descendsFrom t t' := by
  rw [Catalog.descendsFrom, Catalog.descendsFrom, h.resolve_eq, h'.resolve_eq]

theorem find (h : c.Coincide p t) (path : List String) : c.find path p = c.find path t := by
  have hsearched : c.searched p = c.searched t := congrArg c.resolve h.subject
  rw [Catalog.find, Catalog.find, hsearched]

theorem displayWithin (h : c.Coincide p t) (bound : Nat) (enclosing : List Ty) :
    c.displayWithin bound enclosing p = c.displayWithin bound enclosing t := by
  cases bound with
  | zero => rfl
  | succ bound => rw [Catalog.displayWithin, Catalog.displayWithin, h.resolve_eq]

theorem display (h : c.Coincide p t) : c.display p = c.display t := h.displayWithin _ _

theorem scopedName (h : c.Coincide p t) : c.scopedName p = c.scopedName t := by
  have hname : c.nameAndContainer p = c.nameAndContainer t := by
    rw [nameAndContainer, nameAndContainer, h.shape_eq, h.tableOf]
  rw [Catalog.scopedName, Catalog.scopedName, qualifiedName, qualifiedName, hname, h.display]

theorem memberName (h : c.Coincide p t) (name : String) : c.memberName p name = c.memberName t name := by
  rw [Catalog.memberName, Catalog.memberName, h.resolve_eq, h.shape_eq, h.display]

/-! ## Acceptance and equality -/

theorem acceptsWithin (h : c.Coincide p p') (h' : c.Coincide t t') (bound : Nat) :
    c.acceptsWithin bound p t = c.acceptsWithin bound p' t' := by
  induction bound generalizing t t' with
  | zero => rfl
  | succ bound ih =>
    -- what is asked of the members and parents of the second type is asked for the first one
    have hparts : c.acceptsWithin bound p = c.acceptsWithin bound p' := funext fun u => ih (.refl u)
    have hclass : c.sameClass p t = c.sameClass p' t' := by
      rw [sameClass, sameClass, h.cls?, h'.cls?]
    rw [Catalog.acceptsWithin, Catalog.acceptsWithin, hparts, hclass, h.resolve_eq, h'.resolve_eq,
      h'.shape_eq, h'.parents]

theorem accepts (h : c.Coincide p p') (h' : c.Coincide t t') : c.accepts p t = c.accepts p' t' :=
  h.acceptsWithin h' _

theorem equal (h : c.Coincide p p') (h' : c.Coincide t t') : c.equal p t = c.equal p' t' := by
  rw [Catalog.equal, Catalog.equal, equalWithin, equalWithin, h.resolve_eq, h'.resolve_eq, h.shape_eq,
    h'.shape_eq]

/-! ## Selection -/

theorem acceptsArgument (h : c.Coincide p p') (h' : c.Coincide t t') (r : Option Restriction) :
    c.acceptsArgument p r t = c.acceptsArgument p' r t' := by
  cases r with
  | none => rfl
  | some r =>
    cases r with
    | type restriction => exact (refl restriction).accepts h'
    | receiver => exact h.accepts h'

theorem acceptsArguments (h : c.Coincide p p') (hts : List.Forall₂ c.Coincide ts ts')
    (rs : List (Option Restriction)) : c.acceptsArguments p rs ts = c.acceptsArguments p' rs ts' := by
  induction hts generalizing rs with
  | nil => cases rs <;> rfl
  | cons ht _ ih =>
    cases rs with
    | nil => rfl
    | cons r rs =>
      rw [Catalog.acceptsArguments, Catalog.acceptsArguments, h.acceptsArgument ht, ih]

theorem moreGeneral (h : c.Coincide p p') (general specific : MethodHandle) :
    c.moreGeneral p general specific = c.moreGeneral p' general specific := by
  have htype : ∀ r : Restriction, c.Coincide (r.typeFor p) (r.typeFor p') := by
    intro r
    cases r with
    | type u => exact refl u
    | receiver => exact h
  have hparameter : c.moreGeneralParameter p = c.moreGeneralParameter p' := by
    funext general specific
    unfold moreGeneralParameter
    cases general.restriction with
    | none => rfl
    | some g =>
      cases specific.restriction with
      | none => rfl
      | some s => exact (htype g).accepts (htype s)
  rw [Catalog.moreGeneral, Catalog.moreGeneral, hparameter]

end Coincide

/-- Two queries that ask the same for types that coincide. -/
structure SameQuery (c : Catalog) (q q' : Query) : Prop where
  name : q.name = q'.name
  arguments : List.Forall₂ c.Coincide q.arguments q'.arguments
  yields : q.yields = q'.yields
  receiver : c.Coincide q.receiver q'.receiver

namespace SameQuery

theorem fits (h : c.SameQuery q q') : c.fits q = c.fits q' := by
  funext key
  rw [Catalog.fits, Catalog.fits, h.yields, h.receiver.acceptsArguments h.arguments]

theorem selectAmong (h : c.SameQuery q q') : c.selectAmong q = c.selectAmong q' := by
  have hspecific : c.mostSpecific q.receiver = c.mostSpecific q'.receiver := by
    funext candidates
    have hgeneral : c.moreGeneral q.receiver = c.moreGeneral q'.receiver := by
      funext general specific
      exact h.receiver.moreGeneral general specific
    rw [mostSpecific, mostSpecific, hgeneral]
  funext overloads
  rw [Catalog.selectAmong, Catalog.selectAmong, h.fits, hspecific, h.arguments.length_eq, h.yields]

end SameQuery

/-- Selection cannot tell types apart that coincide, be they owner, receiver or arguments. -/
theorem Coincide.select (h : c.Coincide p t) (hq : c.SameQuery q q') : c.select p q = c.select t q' := by
  have horder : c.searchOrder p q = c.searchOrder t q' := by
    rw [searchOrder, searchOrder, hq.name, hq.receiver.isMeta, h.resolve_eq]
  rw [Catalog.select, Catalog.select, verdicts, verdicts, horder, hq.selectAmong, hq.name]

/-! ## Pointer types and specializations -/

namespace Coincide

theorem pointerFor (h : c.Coincide p t) : c.pointerFor p = c.pointerFor t := by
  rw [Catalog.pointerFor, Catalog.pointerFor, h.resolve_eq]

theorem instantiate (h : c.Coincide p t) {bindings bindings' : List (String × Ty)}
    (hbindings : List.Forall₂ (fun b b' => b.1 = b'.1 ∧ c.Coincide b.2 b'.2) bindings bindings') :
    c.instantiate p bindings = c.instantiate t bindings' := by
  have htemplate : c.templateOf p = c.templateOf t := by
    rw [templateOf, templateOf, h.shape_eq, h.resolve_eq]
  have hresolved : bindings.map (fun b => (b.1, c.resolve b.2)) =
      bindings'.map fun b => (b.1, c.resolve b.2) := by
    induction hbindings with
    | nil => rfl
    | cons hb _ ih => rw [List.map_cons, List.map_cons, hb.1, hb.2.resolve_eq, ih]
  have hkey : c.bindingKey bindings = c.bindingKey bindings' := congrArg sortBindings hresolved
  rw [Catalog.instantiate, Catalog.instantiate, htemplate, h.resolve_eq, hkey]

end Coincide

/-! ## All operations -/

/-- No operation on types gives another result for `p` than for `t`. -/
structure Interchangeable (c : Catalog) (p t : Ty) : Prop where
  cls? : c.cls? p = c.cls? t
  parents : c.parents p = c.parents t
  metaclass? : c.metaclass? p = c.metaclass? t
  subject : c.subject p = c.subject t
  scopedName : c.scopedName p = c.scopedName t
  display : c.display p = c.display t
  members : c.members p = c.members t
  nilablePart : c.nilablePart p = c.nilablePart t
  canBeNilable : c.canBeNilable p = c.canBeNilable t
  standsForNil : c.standsForNil p = c.standsForNil t
  isMeta : c.isMeta p = c.isMeta t
  slot? : ∀ name, c.slot? p name = c.slot? t name
  storage : ∀ width, c.storage width p = c.storage width t
  find : ∀ path, c.find path p = c.find path t
  memberName : ∀ name, c.memberName p name = c.memberName t name
  descendant : ∀ u, c.descendsFrom p u = c.descendsFrom t u
  ancestor : ∀ u, c.descendsFrom u p = c.descendsFrom u t
  restriction : ∀ u, c.accepts p u = c.accepts t u
  accepted : ∀ u, c.accepts u p = c.accepts u t
  equal_left : ∀ u, c.equal p u = c.equal t u
  equal_right : ∀ u, c.equal u p = c.equal u t
  owner : ∀ q, c.select p q = c.select t q
  argument : ∀ owner (q : Query) before after,
    c.select owner { q with arguments := before ++ p :: after } =
      c.select owner { q with arguments := before ++ t :: after }
  receiver : ∀ owner (q : Query),
    c.select owner { q with receiver := p } = c.select owner { q with receiver := t }
  pointerFor : c.pointerFor p = c.pointerFor t
  instantiate : ∀ bindings, c.instantiate p bindings = c.instantiate t bindings
  binding : ∀ template name before after,
    c.instantiate template (before ++ (name, p) :: after) =
      c.instantiate template (before ++ (name, t) :: after)

/-- A list in which one item is exchanged. -/
theorem forall₂_exchange {α : Type} {R : α → α → Prop} (hrefl : ∀ a, R a a) {a b : α} (h : R a b)
    (before after : List α) : List.Forall₂ R (before ++ a :: after) (before ++ b :: after) := by
  induction before with
  | nil => exact .cons h (List.forall₂_same.mpr fun a _ => hrefl a)
  | cons head _ ih => exact .cons (hrefl head) ih

theorem Coincide.interchangeable (h : c.Coincide p t) : c.Interchangeable p t where
  cls? := h.cls?
  parents := h.parents
  metaclass? := h.metaclass?
  subject := h.subject
  scopedName := h.scopedName
  display := h.display
  members := h.members
  nilablePart := h.nilablePart
  canBeNilable := h.canBeNilable
  standsForNil := h.standsForNil
  isMeta := h.isMeta
  slot? := h.slot?
  storage := h.storage
  find := h.find
  memberName := h.memberName
  descendant u := h.descendsFrom (.refl u)
  ancestor u := (refl u).descendsFrom h
  restriction u := h.accepts (.refl u)
  accepted u := (refl u).accepts h
  equal_left u := h.equal (.refl u)
  equal_right u := (refl u).equal h
  owner _ := h.select ⟨rfl, List.forall₂_same.mpr fun _ _ => .refl _, rfl, .refl _⟩
  argument owner _ before after :=
    (refl owner).select ⟨rfl, forall₂_exchange .refl h before after, rfl, .refl _⟩
  receiver owner _ := (refl owner).select ⟨rfl, List.forall₂_same.mpr fun _ _ => .refl _, rfl, h⟩
  pointerFor := h.pointerFor
  instantiate _ := h.instantiate (List.forall₂_same.mpr fun _ _ => ⟨rfl, .refl _⟩)
  binding template _ before after :=
    (refl template).instantiate (forall₂_exchange (fun _ => ⟨rfl, .refl _⟩) ⟨rfl, h⟩ before after)

end Catalog

end FlowTyping
