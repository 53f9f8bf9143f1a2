import FlowTyping.Program
import FlowTyping.Table

/-
  The catalog of types

  Every type of a run is an entry of one array, its shape. Class-like types
  (primitives, objects, mixins, pointers, records and metaclasses) have a class
  table with their name, namespace, ancestors, nested types and methods; all
  specializations of a generic type share the class table of their template.

  A provisional type stands for a specialization whose bindings are still being
  inferred. `Catalog.resolve` goes from it to the type it stands for; most
  questions are asked of the resolved type.
-/
namespace FlowTyping

/-- The declared type of a parameter. -/
inductive Restriction where
  | type (type : Ty)
  /-- The type of the receiver at the call. -/
  | receiver
  deriving DecidableEq, Repr

structure Parameter where
  name : String
  restriction : Option Restriction
  fallback : Option Expr
  deriving Repr

/-- The methods that no program text defines. -/
inductive Builtin where
  /-- A result of one fixed type. -/
  | fixed (result : Ty)
  /-- A new instance of the type that the owner is the metaclass of. -/
  | allocate
  /-- A read or write of a slot of the owner. -/
  | slot (name : String)
  /-- A read through the owner, a pointer. -/
  | pointee
  /-- A write through the owner; its result is the argument. -/
  | firstArgument
  /-- A read of an element of the owner, an array. -/
  | element
  deriving DecidableEq, Repr

inductive Body where
  | code (expr : Expr)
  | builtin (builtin : Builtin)
  deriving Repr

/-- A method definition. -/
structure Method where
  name : String
  /-- The type whose class table holds the method. -/
  owner : Ty
  parameters : List Parameter
  yields : Bool
  body : Body
  place : Place
  deriving Repr

instance : Inhabited Method := ⟨⟨"", .main, [], false, .builtin (.fixed .nil), .synthesized⟩⟩

/-- What tells the definitions of one name apart: the restrictions and whether a block is taken. -/
structure MethodKey where
  restrictions : List (Option Restriction)
  yields : Bool
  deriving DecidableEq, Repr

/-- The definitions of one class table, by name and then by key. -/
abbrev MethodTable := Table String (Table MethodKey MethodHandle)

/-- What a class-like type shares with all of its specializations. -/
structure ClassTable where
  name : String
  /-- The enclosing namespace; only the root has none. -/
  container : Option Ty
  superclass : Option Ty
  includes : List Ty
  types : Table String Ty
  methods : MethodTable
  /-- The slot whose pointee is shown as the element type. -/
  elementSlot : Option String
  deriving Repr

/-- A class table without includes, nested types or methods. -/
def ClassTable.bare (name : String) (container superclass : Option Ty) : ClassTable :=
  ⟨name, container, superclass, [], .empty, .empty, none⟩

instance : Inhabited ClassTable := ⟨.bare "" none none⟩

/-- A declared object type, or a specialization of a generic one. -/
structure ObjectShape where
  cls : ClassHandle
  /-- The instance variables in order of declaration; a type is absent until it is inferred. -/
  slots : Table String (Option Ty)
  generic : Bool
  /-- The type that this one specializes. -/
  template : Option Ty
  deriving Repr

/-- What a provisional type stands for. -/
inductive Standing where
  /-- Some binding has no type yet; `target` is the specialization for the others. -/
  | pending (target : Ty)
  /-- Every binding has a type. -/
  | settled (target : Ty)
  /-- Another provisional type took its place. -/
  | superseded (successor : Ty)
  deriving DecidableEq, Repr

def Standing.target? : Standing → Option Ty
  | pending target => some target
  | settled target => some target
  | superseded _ => none

def Standing.isSuperseded : Standing → Bool
  | superseded _ => true
  | _ => false

/-- The type of a node that holds a specialization whose bindings are being inferred. -/
structure Provisional where
  template : Ty
  /-- The slots that are bound, each with the node that supplies its type. -/
  observed : List (String × Node)
  /-- The node that has this type. -/
  holder : Node
  standing : Standing
  /-- How many provisional types this one succeeds. -/
  generation : Nat
  deriving Repr

inductive Shape where
  /-- A value of a fixed width in bytes. -/
  | primitive (cls : ClassHandle) (width : Nat)
  | object (shape : ObjectShape)
  /-- A namespace that types can include. -/
  | mixin (cls : ClassHandle)
  /-- A pointer type, or the template of all pointer types where there is no pointee. -/
  | pointer (pointee : Option Ty)
  | record (cls : ClassHandle) (fields : Table String Ty)
  /-- One of several types, in increasing order. -/
  | union (members : List Ty)
  /-- The type of a type that is used as a value. -/
  | metaclass (cls : ClassHandle) (subject : Ty)
  | provisional (shape : Provisional)
  /-- A named value and the expression it has the type of. -/
  | constant (name : String) (container : Ty) (value : Expr)
  deriving Repr

instance : Inhabited Shape := ⟨.union []⟩

/-- The class table of a class-like shape. -/
def Shape.cls? : Shape → Option ClassHandle
  | primitive cls _ | mixin cls | record cls _ | metaclass cls _ => some cls
  | object o => some o.cls
  | pointer _ => some .pointer
  | union _ | provisional _ | constant _ _ _ => none

/-- All types of a run. -/
structure Catalog where
  shapes : Array Shape
  classes : Array ClassTable
  methods : Array Method
  /-- The specialization of each template for each list of bindings asked for so far. -/
  specializations : Table (Ty × List (String × Ty)) Ty
  deriving Repr

namespace Catalog

def empty : Catalog := ⟨#[], #[], #[], .empty⟩

/-- How many types there are. -/
def size (c : Catalog) : Nat := c.shapes.size

/-- The entry of a type itself, not of what it stands for. -/
def shape (c : Catalog) (t : Ty) : Shape := c.shapes[t.index]?.getD default

def classTable (c : Catalog) (k : ClassHandle) : ClassTable := c.classes[k.index]?.getD default

def method (c : Catalog) (m : MethodHandle) : Method := c.methods[m.index]?.getD default

/-- Adds an entry; its handle is the former size. -/
def push (c : Catalog) (s : Shape) : Ty × Catalog :=
  (⟨c.shapes.size⟩, { c with shapes := c.shapes.push s })

def setShape (c : Catalog) (t : Ty) (s : Shape) : Catalog :=
  { c with shapes := c.shapes.setIfInBounds t.index s }

def modifyClass (c : Catalog) (k : ClassHandle) (f : ClassTable → ClassTable) : Catalog :=
  { c with classes := c.classes.modify k.index f }

/-- Follows at most `bound` successors of a provisional type. -/
def resolveWithin (c : Catalog) : Nat → Ty → Ty
  | 0, t => t
  | bound + 1, t =>
    match c.shape t with
    | .provisional p =>
      match p.standing with
      | .pending target => target
      | .settled target => target
      | .superseded successor => c.resolveWithin bound successor
    | _ => t

/-- The type that `t` stands for; a type that is not provisional stands for itself. -/
def resolve (c : Catalog) (t : Ty) : Ty := c.resolveWithin (c.size + 1) t

/-- The shape of what `t` stands for. -/
def resolvedShape (c : Catalog) (t : Ty) : Shape := c.shape (c.resolve t)

def cls? (c : Catalog) (t : Ty) : Option ClassHandle := (c.resolvedShape t).cls?

def tableOf (c : Catalog) (t : Ty) : Option ClassTable := (c.cls? t).map c.classTable

def standsForNil (c : Catalog) (t : Ty) : Bool := c.resolve t == .nil

def isMeta (c : Catalog) (t : Ty) : Bool :=
  match c.resolvedShape t with
  | .metaclass _ _ => true
  | _ => false

def isSuperseded (c : Catalog) (t : Ty) : Bool :=
  match c.shape t with
  | .provisional p => p.standing.isSuperseded
  | _ => false

/-- The members of a union; any other type is its own only member. -/
def members (c : Catalog) (t : Ty) : List Ty :=
  match c.resolvedShape t with
  | .union members => members
  | _ => [c.resolve t]

/-- Whether `t` can be the other member of a union with `Nil` that is held as a reference or value
of its own: an object, pointer, record or primitive other than `Nil` and `Void`. -/
def canBeNilable (c : Catalog) (t : Ty) : Bool :=
  match c.resolvedShape t with
  | .object _ | .pointer _ | .record _ _ => true
  | .primitive _ _ => c.resolve t != .nil && c.resolve t != .void
  | _ => false

/-- The member beside `Nil` of a union of exactly these two. -/
def nilablePart (c : Catalog) (t : Ty) : Option Ty :=
  match c.resolvedShape t with
  | .union [a, b] =>
    if c.standsForNil a && c.canBeNilable b then some b
    else if c.standsForNil b && c.canBeNilable a then some a
    else none
  | _ => none

/-- The slots of an object or the fields of a record, each with its type if that is known. -/
def slots (c : Catalog) (t : Ty) : Table String (Option Ty) :=
  match c.resolvedShape t with
  | .object o => o.slots
  | .record _ fields => ⟨fields.entries.map fun field => (field.1, some field.2)⟩
  | _ => .empty

/-- A slot of `t`: absent, present without a type, or present with one. -/
def slot? (c : Catalog) (t : Ty) (name : String) : Option (Option Ty) := (c.slots t).get? name

/-- Gives a slot of an object a type; types of other shapes have no slots to set. -/
def setSlot (c : Catalog) (t : Ty) (name : String) (type : Ty) : Catalog :=
  match c.resolvedShape t with
  | .object o => c.setShape (c.resolve t) (.object { o with slots := o.slots.put name (some type) })
  | _ => c

/-- The type that a pointer type points to. -/
def pointee? (c : Catalog) (t : Ty) : Option Ty :=
  match c.resolvedShape t with
  | .pointer pointee => pointee
  | _ => none

end Catalog

end FlowTyping
