import FlowTyping.Inference.Call
import FlowTyping.Inference.Declare

/-
  Expressions

  Every expression has a node. Typing an expression types its parts, in the
  order of the text, and binds its node to theirs. Expressions within a body are
  typed by recursion on the body; the bodies of methods and the values of
  constants are typed when they are needed, by the `typer` that is passed down.
-/
namespace FlowTyping

namespace RunM

/-- The node of a constant, whose value is typed the first time. The node is there before the value
is typed, so a constant can refer to itself. -/
def constantNode (typer : Typer) (active : List Frame) (t : Ty) : RunM Node := do
  match (← get).constantNodes.get? t with
  | some known => pure known
  | none =>
    let c ← catalog
    match c.shape t with
    | .constant _ container value =>
      let n ← freshNode value.place
      modify fun r => { r with constantNodes := r.constantNodes.put t n }
      let valueNode ← inFreshScopes (typer ⟨.main, container, none, false, active⟩ value)
      bind n valueNode
      pure n
    | _ => fail (.fault (.notConstant (c.display t)))

/-- The node of the constant `name` of a namespace, declared with `value` if it is not there. -/
def constantFor (typer : Typer) (ctx : Context) (name : String) (value : Expr) : RunM Node := do
  let t ← match (← catalog).nestedType ctx.home name with
    | some known => pure known
    | none => modifyGet fun r => (r.catalog.newConstant name value ctx.home).map id r.withCatalog
  constantNode typer ctx.active t

/-- The node of a path: of the constant it names, or of the type it names used as a value. -/
def pathNode (typer : Typer) (ctx : Context) (path : List String) (place : Place) : RunM Node := do
  let c ← catalog
  let t ← ofExcept (c.lookUp path ctx.home .constant place)
  match c.shape t with
  | .constant _ _ _ => constantNode typer ctx.active t
  | _ =>
    match c.metaclass? t with
    | some metaclass => sharedNode metaclass
    | none => fail (.unresolved .constant path place)

/-- The node of an instance variable that is read. -/
def readSlot (owner : Ty) (name : String) (place : Place) : RunM Node := do
  modify fun r => { r with slotReads := r.slotReads.push ⟨owner, name, place⟩ }
  slotNode owner name

/-- A new node that depends on others. -/
def joinNode (place : Place) (dependencies : List Node) : RunM Node := do
  let n ← freshNode place
  dependencies.forM (bind n)
  pure n

/-- The node of an array with elements of the type of `element`. -/
def arrayNode (place : Place) (element : Node) : RunM Node := do
  let buffer ← freshAddress place
  bind buffer element
  let holder ← freshNode place
  discard (onStore (Store.install .array [("@buffer", buffer)] holder))
  pure holder

/-- Binds the parameters of a block to the arguments of a `yield`; missing arguments are `nil`. -/
def bindBlock : List Node → List Node → RunM Unit
  | [], _ => pure ()
  | parameter :: parameters, arguments => do
    let value ← match arguments with
      | n :: _ => pure n
      | [] => sharedNil
    bind parameter value
    bindBlock parameters arguments.tail

end RunM

namespace TypingM

open RunM

/-- Runs `act` in a new innermost scope, which is closed at the end even if `act` fails. -/
def inScope {α : Type} (act : TypingM α) : TypingM α := fun s =>
  let close (s : Typing) : Typing := ⟨s.scopes.pop?.getD s.scopes, s.run⟩
  match act ⟨s.scopes.push, s.run⟩ with
  | .ok a s => .ok a (close s)
  | .error halt s => .error halt (close s)

/-- The node of a local variable that is read. -/
def readVariable (name : String) (place : Place) : TypingM Node := do
  match (← get).scopes.find name with
  | some n => pure n
  | none => fail (.located (.unresolved .localVariable name) place)

/-- The node of a local variable that is written, which is new if the name is. -/
def writtenVariable (name : String) : TypingM Node := do
  match (← get).scopes.find name with
  | some n => pure n
  | none =>
    let n ← RunM.freshNode .synthesized
    modify fun s => { s with scopes := s.scopes.define name n }
    pure n

/-- Binds the target of an assignment to its value. -/
def assign (ctx : Context) (target : Target) (value : Node) : TypingM Unit := do
  match target with
  | .localVar name => RunM.bind (← writtenVariable name) value
  | .slot name => RunM.bind (← slotNode ctx.receiver name) value
  | .constant _ => pure ()

/-- Assigns `nil` to the targets that have no value. -/
def assignMissing (typer : Typer) (ctx : Context) (mark : Mark) : List Target → TypingM Unit
  | [] => pure ()
  | .constant name :: targets => do
    discard (constantFor typer ctx name (.missing mark))
    assignMissing typer ctx mark targets
  | target :: targets => do
    assign ctx target (← sharedNil)
    assignMissing typer ctx mark targets

/-- New nodes for the parameters of a block, named in the innermost scope. -/
def blockParameters (place : Place) : List String → TypingM (List Node)
  | [] => pure []
  | name :: names => do
    let n ← RunM.freshNode place
    modify fun s => { s with scopes := s.scopes.define name n }
    return n :: (← blockParameters place names)

/-- Keeps the node of an expression for the result if the context asks for it. -/
def record (ctx : Context) (mark : Mark) (n : Node) : TypingM Node := do
  if ctx.records then
    modify fun s => { s with run := { s.run with recorded := s.run.recorded.put mark.id n } }
  pure n

/-- The context of the body of a class or module: `self` is its metaclass. -/
def declarationContext (ctx : Context) (c : Catalog) (t : Ty) : Context :=
  ⟨(c.metaclass? t).getD t, t, none, ctx.records, ctx.active⟩

/-- Types the body of a class or module with the type `name` declared there as its context. -/
def inDeclaration (ctx : Context) (name : String) (typeBody : Context → TypingM Node) :
    TypingM Node := do
  let c ← RunM.catalog
  let t ← ofExcept (c.declared ctx.home name)
  let _ ← inFreshScopes (typeBody (declarationContext ctx c t))
  sharedNil

mutual

/-- The node of an expression. -/
def nodeOf (typer : Typer) (ctx : Context) : Expr → TypingM Node
  | .literal mark kind => do record ctx mark (← sharedNode kind.type)
  | .localVar mark name => do record ctx mark (← readVariable name mark.place)
  | .slot mark name => do record ctx mark (← readSlot ctx.receiver name mark.place)
  | .self mark => do record ctx mark (← sharedNode ctx.receiver)
  | .path mark names => do record ctx mark (← pathNode typer ctx names mark.place)
  | .assign mark (.constant name) value => do
    record ctx mark (← constantFor typer ctx name value)
  | .assign mark target value => do
    let n ← nodeOf typer ctx value
    assign ctx target n
    record ctx mark n
  | .assignMany mark targets values => do
    assignEach typer ctx mark targets values
    record ctx mark (← sharedNil)
  | .sequence mark items => do
    let nodes ← nodesOf typer ctx items
    match nodes.getLast? with
    | some n => record ctx mark n
    | none => record ctx mark (← sharedNil)
  | .branch mark condition accepted refused => do
    let _ ← nodeOf typer ctx condition
    let a ← nodeOf typer ctx accepted
    let b ← nodeOrNil typer ctx refused
    record ctx mark (← joinNode mark.place [a, b])
  | .loop mark condition body => do
    let _ ← nodeOf typer ctx condition
    let _ ← nodeOf typer ctx body
    record ctx mark (← sharedNil)
  | .call mark receiver name arguments block => do
    let receiver ← nodeOfOption typer ctx receiver
    let arguments ← nodesOf typer ctx arguments
    let block ← blockOf typer ctx mark.place block
    let result ← RunM.freshNode mark.place
    enterCall typer
      ⟨name, mark.place, receiver, arguments, block, ctx.receiver, result, [], ctx.active⟩
    record ctx mark result
  | .yielding mark arguments => do
    match ctx.block with
    | none => fail (.located (.unresolved .block "yield") mark.place)
    | some block =>
      let nodes ← nodesOf typer ctx arguments
      bindBlock block.parameters nodes
      record ctx mark (← joinNode mark.place [block.result])
  | .returning mark value => do
    let n ← nodeOrNil typer ctx value
    match ctx.body with
    | some body => RunM.bind body.result n
    | none => pure ()
    -- nothing follows a return, so it has no type of its own
    record ctx mark (← RunM.freshNode mark.place)
  | .array mark elements of => do
    let element ← RunM.freshNode mark.place
    match of with
    | some written =>
      let c ← RunM.catalog
      let t ← ofExcept (c.writtenType written ctx.home (some ctx.receiver) mark.place)
      RunM.bind element (← sharedNode t)
    | none => pure ()
    typeElements typer ctx element elements
    record ctx mark (← arrayNode mark.place element)
  | .addressOf mark value => do
    let n ← nodeOf typer ctx value
    let address ← freshAddress mark.place
    RunM.bind address n
    record ctx mark address
  | .classDef mark name _ _ body => do
    record ctx mark (← inDeclaration ctx name fun inner => nodeOf typer inner body)
  | .moduleDef mark name body => do
    record ctx mark (← inDeclaration ctx name fun inner => nodeOf typer inner body)
  | .methodDef mark _ _ _ _ => do record ctx mark (← sharedNil)
  | .recordDef mark _ _ => do record ctx mark (← sharedNil)
  | .inclusion mark _ => do record ctx mark (← sharedNil)

/-- The nodes of expressions, typed one after the other. -/
def nodesOf (typer : Typer) (ctx : Context) : List Expr → TypingM (List Node)
  | [] => pure []
  | e :: rest => do
    let n ← nodeOf typer ctx e
    let nodes ← nodesOf typer ctx rest
    pure (n :: nodes)

def nodeOfOption (typer : Typer) (ctx : Context) : Option Expr → TypingM (Option Node)
  | none => pure none
  | some e => do
    let n ← nodeOf typer ctx e
    pure (some n)

/-- The node of an expression, or of `nil` where there is none. -/
def nodeOrNil (typer : Typer) (ctx : Context) : Option Expr → TypingM Node
  | none => sharedNil
  | some e => nodeOf typer ctx e

/-- Types the body of a block in a scope of its own that holds its parameters. -/
def blockOf (typer : Typer) (ctx : Context) (place : Place) :
    Option (List String × Expr) → TypingM (Option BlockFlow)
  | none => pure none
  | some (names, body) => inScope do
    let parameters ← blockParameters place names
    let result ← nodeOf typer ctx body
    pure (some ⟨parameters, result⟩)

/-- Types the elements of an array and binds the node of its elements to each. -/
def typeElements (typer : Typer) (ctx : Context) (element : Node) : List Expr → TypingM Unit
  | [] => pure ()
  | e :: rest => do
    let n ← nodeOf typer ctx e
    RunM.bind element n
    typeElements typer ctx element rest

/-- Assigns values to targets one by one; values without a target are only typed. -/
def assignEach (typer : Typer) (ctx : Context) (mark : Mark) :
    List Target → List Expr → TypingM Unit
  | targets, [] => assignMissing typer ctx mark targets
  | [], e :: rest => do
    let _ ← nodeOf typer ctx e
    assignEach typer ctx mark [] rest
  | .constant name :: targets, e :: rest => do
    let _ ← constantFor typer ctx name e
    assignEach typer ctx mark targets rest
  | target :: targets, e :: rest => do
    let n ← nodeOf typer ctx e
    assign ctx target n
    assignEach typer ctx mark targets rest

end

/-- Types an expression, with at most `depth` bodies and constants inside one another. -/
def typerWithin : Nat → Typer
  | 0 => fun _ _ => throw .tooDeep
  | depth + 1 => fun ctx e => nodeOf (typerWithin depth) ctx e

end TypingM

end FlowTyping
