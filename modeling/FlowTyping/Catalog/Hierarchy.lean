import FlowTyping.Catalog.Basic
import FlowTyping.Preorder

/-
  Ancestors, metaclasses and name search

  The parents of a type are its includes and then its superclass, and the
  parents of a metaclass are the metaclasses of the parents of its instance.
  Ancestors are what parents lead to. A path of names is searched depth first
  from a type: in the type itself, then in its parents, then in its namespace.
-/
namespace FlowTyping.Catalog

/-- The type whose metaclass `t` has: the template of a specialization or pointer type, and any
other type itself. -/
def metaclassHolder (c : Catalog) (t : Ty) : Ty :=
  match c.resolvedShape t with
  | .object o => o.template.getD (c.resolve t)
  | .pointer (some _) => .pointer
  | _ => c.resolve t

/-- The metaclass of a class-like type. It stands next to the type it belongs to. -/
def metaclass? (c : Catalog) (t : Ty) : Option Ty :=
  let holder := c.metaclassHolder t
  match c.shape holder.next with
  | .metaclass _ subject => if subject = holder then some holder.next else none
  | _ => none

/-- The type that a metaclass belongs to; any other type is its own. -/
def subject (c : Catalog) (t : Ty) : Ty :=
  match c.resolvedShape t with
  | .metaclass _ subject => subject
  | _ => c.resolve t

/-- Includes and superclass of a primitive, object, mixin or pointer type. -/
def declaredParents (c : Catalog) (t : Ty) : List Ty :=
  match c.resolvedShape t with
  | .primitive _ _ | .object _ | .mixin _ | .pointer _ =>
    match c.tableOf t with
    | some table => table.includes ++ table.superclass.toList
    | none => []
  | _ => []

/-- The direct ancestors of a type, in the order in which they are searched. -/
def parents (c : Catalog) (t : Ty) : List Ty :=
  match c.resolvedShape t with
  | .metaclass _ subject => (c.declaredParents subject).filterMap c.metaclass?
  | _ => c.declaredParents t

/-- Whether `ancestor` is `t` or one of the types that parents lead to from it. -/
def descendsFrom (c : Catalog) (t ancestor : Ty) : Bool :=
  (preorder c.parents (c.size + 1) [] [c.resolve t]).contains (c.resolve ancestor)

/-- The type that a path names by going down nested types from `t`. -/
def descend (c : Catalog) : List String → Ty → Option Ty
  | [], t => some t
  | name :: rest, t =>
    match (c.tableOf t).bind (·.types.get? name) with
    | some nested => c.descend rest nested
    | none => none

/-- Where the search for a name looks: the type itself, or the instance of a metaclass. -/
def searched (c : Catalog) (t : Ty) : Ty := c.resolve (c.subject t)

/-- Where the search goes from a type: its parents, then its namespace. -/
def outward (c : Catalog) (t : Ty) : List Ty :=
  (c.parents t ++ ((c.tableOf t).bind (·.container)).toList).map c.searched

/-- The first type, depth first from `start`, from which the whole path can be gone down. -/
def find (c : Catalog) (path : List String) (start : Ty) : Option Ty :=
  (preorder c.outward (c.size + 1) [] [c.searched start]).findSome? (c.descend path)

/-- The type declared directly in the namespace `scope` under `name`. -/
def nestedType (c : Catalog) (scope : Ty) (name : String) : Option Ty :=
  (c.tableOf scope).bind (·.types.get? name)

/-- The types declared directly in a namespace, in order of declaration. -/
def nested (c : Catalog) (scope : Ty) : List Ty :=
  match c.tableOf scope with
  | some table => table.types.entries.map (·.2)
  | none => []

/-- All types declared in the root namespace or in one below it, depth first, without the built-in
ones. -/
def declaredTypes (c : Catalog) : List Ty :=
  (preorder c.nested (c.size + 1) [] [.main]).filter fun t =>
    !(Ty.builtins.map (·.2)).contains t

end FlowTyping.Catalog
