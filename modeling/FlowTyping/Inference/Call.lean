import FlowTyping.Inference.Dispatch

/-
  Calls

  A call is resolved once its receiver and all of its arguments have types. It
  is dispatched for every member of the receiver's type and every choice of one
  member for each argument; the result of the call is bound to the results of
  all the definitions that were selected. Each definition is typed once for a
  receiver and argument types, before its body is, so that a recursive call
  finds the result node that is already there.

  The definitions here take as `typer` the way in which bodies are typed.
-/
namespace FlowTyping

namespace RunM

def siteAt (site : Site) : RunM CallSite := return (← get).site site

/-- Types the parameters of an instance: each is a variable with the type of its argument, or of
its default, which can use the parameters before it. -/
def typeParameters (typer : Typer) (ctx : Context) (place : Place) :
    List Parameter → List Ty → TypingM Unit
  | [], _ => pure ()
  | p :: ps, arguments => do
    let value ← match arguments, p.fallback with
      | t :: _, _ => sharedNode t
      | [], some fallback => typer ctx fallback
      | [], none => fail (.fault (.missingArgument p.name))
    let var ← freshNode place
    bind var value
    modify fun s => { s with scopes := s.scopes.define p.name var }
    typeParameters typer ctx place ps arguments.tail

/-- Types the body of an instance, whose result `result` then depends on. -/
def typeBody (typer : Typer) (owner : Ty) (method : Method) (body : Expr) (arguments : List Ty)
    (flow : BodyFlow) (active : List Frame) : RunM Unit := do
  let ctx : Context := ⟨owner, (← catalog).subject method.owner, some flow, false, active⟩
  inFreshScopes do
    typeParameters typer ctx method.place method.parameters arguments
    let value ← typer ctx body
    bind flow.result value

/-- The result node of a definition for a receiver and argument types, typed if it is new. -/
def instantiateMethod (typer : Typer) (active : List Frame) (site : Site) (owner : Ty)
    (id : MethodHandle) (arguments : List Ty) : RunM Node := do
  let call ← siteAt site
  let key : Invocation := ⟨owner, id, arguments, call.block.map fun _ => site⟩
  match (← get).results.get? key with
  | some known => pure known
  | none =>
    let c ← catalog
    let method := c.method id
    match method.body with
    | .builtin builtin =>
      let t ← ofExcept (c.builtinType owner method.name builtin arguments call.place)
      let result ← sharedNode t
      modify fun r => { r with results := r.results.put key result }
      pure result
    | .code body =>
      let result ← freshNode method.place
      let frame : Frame := ⟨c.instanceText owner method.name arguments, call.place⟩
      modify fun r => { r with
        results := r.results.put key result
        instances := r.instances.push ⟨frame.signature, result⟩ }
      framed frame
        (typeBody typer owner method body arguments ⟨result, call.block⟩ (frame :: active))
      pure result

/-- Runs the initializer that `arguments` select on a new value. Without arguments there need not
be one. -/
def runInitializer (typer : Typer) (active : List Frame) (site : Site) (owner : Ty)
    (arguments : List Ty) : RunM Unit := do
  let call ← siteAt site
  let c ← catalog
  match c.select owner ⟨"initialize", arguments, call.block.isSome, owner⟩ with
  | .ok id => discard (instantiateMethod typer active site owner id arguments)
  | .error miss =>
    if miss = .undefined ∧ arguments = [] then pure ()
    else fail (c.missError owner "initialize" arguments miss call.place)

/-- The instance variables of `owner` that have nodes so far. -/
def slotNodesOf (r : Run) (owner : Ty) : List (String × Node) :=
  r.slotNodes.entries.filterMap fun entry =>
    if entry.1.1 = owner then some (entry.1.2, entry.2) else none

/-- The node of a new value of the object type `t`. A generic value is initialized as a type of its
own, made for this site and these arguments, and its provisional type is bound by the instance
variables of that type. -/
def construct (typer : Typer) (active : List Frame) (site : Site) (t : Ty) (arguments : List Ty) :
    RunM Node := do
  if !(← catalog).isGeneric t then
    runInitializer typer active site t arguments
    sharedNode t
  else
    match (← get).constructions.get? (site, arguments) with
    | some known => pure known
    | none =>
      let holder ← freshNode (← siteAt site).place
      modify fun r => { r with constructions := r.constructions.put (site, arguments) holder }
      let own ← modifyGet fun r => (r.catalog.specialize t []).map id r.withCatalog
      runInitializer typer active site own arguments
      discard (onStore (Store.install t (slotNodesOf (← get) own) holder))
      pure holder

/-- The node that a call is bound to for one receiver type and one choice of argument types. -/
def dispatch (typer : Typer) (active : List Frame) (site : Site) (owner : Ty)
    (arguments : List Ty) : RunM Node := do
  let call ← siteAt site
  let c ← catalog
  match c.dispatch call owner arguments with
  | .method owner id => instantiateMethod typer active site owner id arguments
  | .construct t => construct typer active site t arguments
  | .miss miss => fail (c.missError owner call.name arguments miss call.place)

/-- Dispatches a call for each combination and collects the nodes, each once. -/
def dispatchAll (typer : Typer) (active : List Frame) (site : Site) :
    List (Ty × List Ty) → List Node → RunM (List Node)
  | [], targets => pure targets
  | (owner, arguments) :: rest, targets => do
    let target ← dispatch typer active site owner arguments
    dispatchAll typer active site rest (Graph.addOnce target targets)

/-- Binds the result of a call to `targets` and to nothing else. -/
def retarget (r : Run) (site : Site) (targets : List Node) : Run :=
  let call := r.site site
  let outdated := call.targets.filter fun n => !targets.contains n
  let new := targets.filter fun n => !call.targets.contains n
  let r := outdated.foldl (fun r n => r.unbind call.result n) r
  let r := new.foldl (fun r n => r.bind call.result n) r
  { r with sites := r.sites.modify site.index fun call => { call with targets := targets } }

/-- Resolves a call for the types that its receiver and arguments have now. -/
def rebindCall (typer : Typer) (active : List Frame) (site : Site) : RunM Unit := do
  let r ← get
  match r.combinations (r.site site) with
  | none => pure ()
  | some combinations =>
    let targets ← dispatchAll typer active site combinations []
    modify fun r => retarget r site targets

/-- Adds a call site, which is resolved again whenever its receiver or an argument changes, and
resolves it. -/
def enterCall (typer : Typer) (call : CallSite) : RunM Unit := do
  let site ← modifyGet fun r =>
    let site : Site := ⟨r.sites.size⟩
    let watched := call.receiver.toList ++ call.arguments
    let graph := watched.foldl (fun g n => g.watch n (.site site)) r.graph
    (site, { r.withGraph graph with sites := r.sites.push call })
  rebindCall typer call.frames site

end RunM

end FlowTyping
