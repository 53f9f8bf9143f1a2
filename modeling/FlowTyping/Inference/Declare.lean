import FlowTyping.Catalog.Seed
import FlowTyping.Inference.State

/-
  Declarations of a program

  Two passes over the statements of the program and of its classes and modules,
  before any expression is typed: one for types, includes and constants, in the
  order of the text, and one for methods. So a call can come before the method
  it calls, and a restriction before the type it names.
-/
namespace FlowTyping

/-- Steps that declare something and can fail. -/
abbrev DeclareM := EStateM TypingError Catalog

/-- The error of a path that leads nowhere. -/
def TypingError.unresolved (what : Sought) (path : List String) (place : Place) : TypingError :=
  .located (.unresolved what (String.intercalate "::" path)) place

namespace Catalog

def lookUp (c : Catalog) (path : List String) (scope : Ty) (what : Sought) (place : Place) :
    Except TypingError Ty :=
  match c.find path scope with
  | some t => .ok t
  | none => .error (.unresolved what path place)

/-- The type that is written in `scope`; `self` is the receiver where there is one. -/
def writtenType (c : Catalog) (written : TypeName) (scope : Ty) (receiver : Option Ty)
    (place : Place) : Except TypingError Ty :=
  match written, receiver with
  | .path path, _ => c.lookUp path scope .constant place
  | .receiver, some t => .ok t
  | .receiver, none => .error (.unresolved .constant ["self"] place)

/-- The type that the type pass declared in `scope` under `name`. -/
def declared (c : Catalog) (scope : Ty) (name : String) : Except TypingError Ty :=
  match c.nestedType scope name with
  | some t => .ok t
  | none => .error (.fault (.undeclared name))

end Catalog

/-- A `nil` in the place of the value that a multiple assignment lacks. -/
def Expr.missing (mark : Mark) : Expr := .literal mark .nil

namespace DeclareM

def ofExcept {α : Type} : Except TypingError α → DeclareM α
  | .ok a => pure a
  | .error e => throw e

/-- The module named by a path, for an include. -/
def includedModule (c : Catalog) (path : List String) (scope : Ty) (place : Place) :
    Except TypingError Ty := do
  let t ← c.lookUp path scope .moduleName place
  match c.shape t with
  | .mixin _ => .ok t
  | _ => .error (.unresolved .moduleName path place)

/-- Declares a class, or finds the type that is declared under its name. -/
def openClass (scope : Ty) (name : String) (superclass : Option (List String)) (generic : Bool)
    (place : Place) : DeclareM Ty := do
  let c ← get
  match c.nestedType scope name with
  | some known => pure known
  | none =>
    let parent ← match superclass with
      | some path => ofExcept (c.lookUp path scope .constant place)
      | none => pure .object
    modifyGet (·.newObject name (some parent) scope generic)

/-- Declares a module, or finds the type that is declared under its name. -/
def openModule (scope : Ty) (name : String) : DeclareM Ty := do
  match (← get).nestedType scope name with
  | some known => pure known
  | none => modifyGet (·.newMixin name (some scope))

/-- The types of the fields as written. -/
def fieldTypes (c : Catalog) (scope : Ty) (place : Place) (fields : List (String × TypeName)) :
    Except TypingError (List (String × Ty)) :=
  fields.mapM fun field => (c.writtenType field.2 scope none place).map fun t => (field.1, t)

def enterRecord (scope : Ty) (name : String) (fields : List (String × TypeName))
    (place : Place) : DeclareM Unit := do
  let types ← ofExcept (fieldTypes (← get) scope place fields)
  modify fun c => (c.newRecord name (.ofList types) scope).2

def enterInclusion (scope : Ty) (path : List String) (place : Place) : DeclareM Unit := do
  let included ← ofExcept (includedModule (← get) path scope place)
  match (← get).includeMixin scope included with
  | .ok c => set c
  | .error e => throw (e.withPlace place)

/-- Declares a constant unless its name is taken. -/
def enterConstant (scope : Ty) (name : String) (value : Expr) : DeclareM Unit :=
  modify fun c =>
    match c.nestedType scope name with
    | some _ => c
    | none => (c.newConstant name value scope).2

/-- Declares the constants among the targets of a multiple assignment. -/
def enterConstants (scope : Ty) (mark : Mark) : List Target → List Expr → DeclareM Unit
  | [], _ => pure ()
  | target :: targets, values => do
    match target with
    | .constant name => enterConstant scope name (values.headD (.missing mark))
    | _ => pure ()
    enterConstants scope mark targets values.tail

mutual

/-- The type pass over one statement. -/
def typePass (scope : Ty) : Expr → DeclareM Unit
  | .sequence _ items => typePassAll scope items
  | .classDef mark name superclass generic body => do
    let t ← openClass scope name superclass generic mark.place
    typePass t body
  | .moduleDef _ name body => do
    let t ← openModule scope name
    typePass t body
  | .recordDef mark name fields => enterRecord scope name fields mark.place
  | .inclusion mark path => enterInclusion scope path mark.place
  | .assign _ (.constant name) value => enterConstant scope name value
  | .assignMany mark targets values => enterConstants scope mark targets values
  | _ => pure ()

def typePassAll (scope : Ty) : List Expr → DeclareM Unit
  | [] => pure ()
  | item :: rest => do
    typePass scope item
    typePassAll scope rest

end

/-- The restriction of a parameter as written. -/
def restriction (c : Catalog) (scope : Ty) (place : Place) :
    Option TypeName → Except TypingError (Option Restriction)
  | none => .ok none
  | some .receiver => .ok (some .receiver)
  | some (.path path) => (c.lookUp path scope .constant place).map fun t => some (.type t)

/-- The parameters of a method as written. -/
def parameters (c : Catalog) (scope : Ty) (place : Place) (params : List (WrittenParameter Expr)) :
    Except TypingError (List Parameter) :=
  params.mapM fun p =>
    (restriction c scope place p.type).map fun r => ⟨p.name, r, p.fallback⟩

/-- The type that a method belongs to: the one it is written in, or its metaclass. -/
def methodOwner (c : Catalog) (scope : Ty) (onMetaclass : Bool) : Except TypingError Ty :=
  if onMetaclass then
    match c.metaclass? scope with
    | some t => .ok t
    | none => .error (.fault (.noMetaclass (c.display scope)))
  else .ok scope

def enterMethodOf (scope : Ty) (name : String) (onMetaclass : Bool)
    (params : List (WrittenParameter Expr)) (body : Expr) (place : Place) : DeclareM Unit := do
  let c ← get
  let owner ← ofExcept (methodOwner c scope onMetaclass)
  let parameters ← ofExcept (parameters c scope place params)
  modify fun c => (c.defineMethod ⟨name, owner, parameters, body.yields, .code body, place⟩).2

mutual

/-- The method pass over one statement. -/
def methodPass (scope : Ty) : Expr → DeclareM Unit
  | .sequence _ items => methodPassAll scope items
  | .classDef _ name _ _ body => do
    let t ← ofExcept ((← get).declared scope name)
    methodPass t body
  | .moduleDef _ name body => do
    let t ← ofExcept ((← get).declared scope name)
    methodPass t body
  | .methodDef mark name onMetaclass params body =>
    enterMethodOf scope name onMetaclass params body mark.place
  | _ => pure ()

def methodPassAll (scope : Ty) : List Expr → DeclareM Unit
  | [] => pure ()
  | item :: rest => do
    methodPass scope item
    methodPassAll scope rest

end

/-- Both passes over a whole program. -/
def declareProgram (program : Expr) : DeclareM Unit := do
  typePass .main program
  methodPass .main program

end DeclareM

end FlowTyping
