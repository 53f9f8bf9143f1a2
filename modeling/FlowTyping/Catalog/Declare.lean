import FlowTyping.Catalog.Naming

/-
  Declarations

  Declaring a class-like type adds a class table and an entry for the type, a
  class table and an entry for its metaclass right behind them, and the name in
  the namespace it is declared in. Declaring a method adds it to the class table
  of its owner, once for each number of arguments it can be called with.
-/
namespace FlowTyping.Catalog

/-- Enters a type under a name in a namespace; a namespace without a class table takes no names. -/
def enterName (c : Catalog) (scope : Ty) (name : String) (t : Ty) : Catalog :=
  match (c.shape scope).cls? with
  | some k => c.modifyClass k fun table => { table with types := table.types.put name t }
  | none => c

/-- How many parameters at the end of the list have a default. -/
def trailingDefaults (parameters : List Parameter) : Nat :=
  (parameters.reverse.takeWhile (·.fallback.isSome)).length

/-- The keys under which a method is found: all of its restrictions, and these without the last
one, two and so on as far as the parameters have defaults. -/
def methodKeys (m : Method) : List MethodKey :=
  let restrictions := m.parameters.map (·.restriction)
  (List.range (trailingDefaults m.parameters + 1)).map fun cut =>
    ⟨restrictions.take (restrictions.length - cut), m.yields⟩

/-- Enters a method under its keys; one that was there under the same key is replaced. -/
def enterMethod (table : MethodTable) (m : Method) (id : MethodHandle) : MethodTable :=
  let overloads := (table.get? m.name).getD .empty
  table.put m.name (overloads.putAll ((methodKeys m).map fun key => (key, id)))

/-- Declares a method on its owner; an owner without a class table is not changed. -/
def defineMethod (c : Catalog) (m : Method) : MethodHandle × Catalog :=
  let id : MethodHandle := ⟨c.methods.size⟩
  let pushed := { c with methods := c.methods.push m }
  match c.cls? m.owner with
  | some k =>
    (id, pushed.modifyClass k fun table => { table with methods := enterMethod table.methods m id })
  | none => (id, pushed)

/-- Declares a method that no program text defines. -/
def defineBuiltin (c : Catalog) (owner : Ty) (name : String) (parameters : List Parameter)
    (builtin : Builtin) : Catalog :=
  (c.defineMethod ⟨name, owner, parameters, false, .builtin builtin, .synthesized⟩).2

/-- Adds the entry and the class table of a type, with its name in the container. -/
def enterType (c : Catalog) (table : ClassTable) (shape : ClassHandle → Shape) : Catalog :=
  let id : Ty := ⟨c.shapes.size⟩
  let added := { c with
    shapes := c.shapes.push (shape ⟨c.classes.size⟩)
    classes := c.classes.push table }
  match table.container with
  | some container => added.enterName container table.name id
  | none => added

/-- Adds the metaclass of `t`, the last type so far, with the methods every type has. -/
def enterMetaclass (c : Catalog) (t : Ty) (name : String) (container : Option Ty) : Catalog :=
  let added := { c with
    shapes := c.shapes.push (.metaclass ⟨c.classes.size⟩ t)
    classes := c.classes.push (.bare (name ++ ":Class") container none) }
  (added.defineBuiltin t.next "name" [] (.fixed .string)).defineBuiltin t.next "simple_name" []
    (.fixed .string)

/-- Declares a class-like type and its metaclass. -/
def newClassLike (c : Catalog) (name : String) (container superclass : Option Ty)
    (shape : ClassHandle → Shape) : Ty × Catalog :=
  let id : Ty := ⟨c.shapes.size⟩
  (id, (c.enterType (.bare name container superclass) shape).enterMetaclass id name container)

def newMixin (c : Catalog) (name : String) (container : Option Ty) : Ty × Catalog :=
  c.newClassLike name container none .mixin

def newPrimitive (c : Catalog) (name : String) (superclass : Ty) (width : Nat) (container : Ty) :
    Ty × Catalog :=
  c.newClassLike name (some container) (some superclass) (.primitive · width)

/-- Declares an object type, whose metaclass can allocate it. -/
def newObject (c : Catalog) (name : String) (superclass : Option Ty) (container : Ty)
    (generic : Bool) : Ty × Catalog :=
  let (id, added) := c.newClassLike name (some container) superclass
    fun k => .object ⟨k, .empty, generic, none⟩
  (id, added.defineBuiltin id.next "allocate" [] .allocate)

/-- Declares a method to write a field and one to read it. -/
def defineField (t : Ty) (c : Catalog) (field : String × Ty) : Catalog :=
  (c.defineBuiltin t (field.1 ++ "=") [⟨"value", some (.type field.2), none⟩]
    (.slot field.1)).defineBuiltin t field.1 [] (.slot field.1)

/-- Declares a record, whose fields can be read and written and whose metaclass can allocate it. -/
def newRecord (c : Catalog) (name : String) (fields : Table String Ty) (container : Ty) :
    Ty × Catalog :=
  let (id, added) := c.newClassLike name (some container) none (.record · fields)
  (id, (fields.entries.foldl (defineField id) added).defineBuiltin id.next "new" [] .allocate)

/-- Declares the template of all pointer types. -/
def newPointerTemplate (c : Catalog) (superclass container : Ty) : Ty × Catalog :=
  c.newClassLike "Pointer" (some container) (some superclass) fun _ => .pointer none

def newConstant (c : Catalog) (name : String) (value : Expr) (container : Ty) : Ty × Catalog :=
  let (id, added) := c.push (.constant name container value)
  (id, added.enterName container name id)

/-- Adds a module to the includes of a type. It is refused if the type is among the ancestors of
the module, and changes nothing if the module is already included. -/
def includeMixin (c : Catalog) (t included : Ty) : Except TypingError Catalog :=
  if c.descendsFrom included t then
    .error (.root (.cyclicAncestry (c.scopedName t) (c.scopedName included)) none)
  else
    match c.cls? t with
    | none => .error (.fault (.cannotInclude (c.display t)))
    | some k => .ok (c.modifyClass k fun table =>
        if table.includes.contains included then table
        else { table with includes := table.includes ++ [included] })

end FlowTyping.Catalog
