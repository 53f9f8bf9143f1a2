import FlowTyping.Inference.Check
import FlowTyping.Proofs.Catalog.Callable
import FlowTyping.Proofs.Flow.Holding
import FlowTyping.Proofs.Flow.Propagation

/-
  The invariant of a run

  Some nodes have a role: the result of a call, the node of a fixed type, or a
  generic value. What a node depends on is decided by its role alone, so no
  other step may bind it (`Run.Bindable`). A sound run keeps to that, its calls
  watch their receivers and arguments, and everything that was begun is done or
  due (`Run.Sound`):

  - a call is bound to what it yields for types that its receiver and arguments
    had when it was last resolved, and these have not changed since, or a node
    that has changed is dirty (`Run.Attended`);
  - an instance has nodes for all instance variables that its body assigns
    (`Run.Complete`);
  - a generic value has been initialized (`Run.Built`).
-/
namespace FlowTyping

/-! ## Instance variables that are assigned -/

namespace Expr

mutual

/-- The instance variables of `self` that an expression assigns. -/
def assigned : Expr → List String
  | assign _ (.constant _) _ => []
  | assign _ (.slot name) value => value.assigned ++ [name]
  | assign _ (.localVar _) value => value.assigned
  | assignMany _ targets values => assignedEach targets values
  | sequence _ items => assignedAll items
  | branch _ condition accepted refused =>
    condition.assigned ++ accepted.assigned ++ assignedOption refused
  | loop _ condition body => condition.assigned ++ body.assigned
  | call _ receiver _ arguments block =>
    assignedOption receiver ++ assignedAll arguments ++ assignedBlock block
  | yielding _ arguments => assignedAll arguments
  | returning _ value => assignedOption value
  | array _ elements _ => assignedAll elements
  | addressOf _ value => value.assigned
  | _ => []

def assignedAll : List Expr → List String
  | [] => []
  | e :: rest => e.assigned ++ assignedAll rest

def assignedOption : Option Expr → List String
  | none => []
  | some e => e.assigned

def assignedBlock : Option (List String × Expr) → List String
  | none => []
  | some (_, body) => body.assigned

/-- What an assignment of several values to several targets assigns. The value of a constant is
typed apart. -/
def assignedEach : List Target → List Expr → List String
  | targets, [] => targets.filterMap fun
      | .slot name => some name
      | _ => none
  | [], e :: rest => e.assigned ++ assignedEach [] rest
  | .constant _ :: targets, _ :: rest => assignedEach targets rest
  | .slot name :: targets, e :: rest => e.assigned ++ name :: assignedEach targets rest
  | .localVar _ :: targets, e :: rest => e.assigned ++ assignedEach targets rest

end

end Expr

/-- The instance variables that the defaults of parameters without an argument assign. -/
def assignedDefaults : List Parameter → List Ty → List String
  | [], _ => []
  | p :: ps, arguments =>
    (if arguments.isEmpty then Expr.assignedOption p.fallback else []) ++
      assignedDefaults ps arguments.tail

/-- The instance variables of `self` that a definition called with `arguments` assigns. -/
def Method.assigned (m : Method) (arguments : List Ty) : List String :=
  match m.body with
  | .code body => assignedDefaults m.parameters arguments ++ body.assigned
  | .builtin _ => []

/-! ## Calls -/

namespace CallSite

/-- The receiver and the arguments. -/
def watched (call : CallSite) : List Node := call.receiver.toList ++ call.arguments

/-- What an instance is known by that the call makes or uses. -/
def invocation (call : CallSite) (site : Site) (owner : Ty) (id : MethodHandle)
    (arguments : List Ty) : Invocation :=
  ⟨owner, id, arguments, call.block.map fun _ => site⟩

/-- How the initializer of a new value is looked for. -/
def initializing (call : CallSite) (owner : Ty) (arguments : List Ty) : Query :=
  ⟨"initialize", arguments, call.block.isSome, owner⟩

end CallSite

/-- What a node is for that only its own operation binds. -/
inductive Role where
  | result (site : Site)
  | shared (type : Ty)
  | value
  deriving DecidableEq

/-- Work that was begun. -/
inductive Task where
  | call (site : Site)
  | body (key : Invocation)
  | value (key : Site × List Ty)
  deriving DecidableEq

/-- The body of an instance on `owner`. -/
def Task.isBodyOn (owner : Ty) : Task → Bool
  | .body key => key.owner == owner
  | _ => false

namespace Run

def Valid (r : Run) (n : Node) : Prop := n.index < r.graph.size

/-! ## Roles -/

def Plays (r : Run) (n : Node) : Role → Prop
  | .result site => site.index < r.sites.size ∧ (r.site site).result = n
  | .shared t => r.sharedNodes.get? t = some n
  | .value => (∃ key, r.constructions.get? key = some n) ∨
      ∃ t p, r.catalog.shape t = .provisional p ∧ p.holder = n

/-- What the role of a node makes of it. -/
def Fills (r : Run) (n : Node) : Role → Prop
  | .result site => (r.graph.cell n).kind = .plain ∧
      ∀ d, d ∈ r.graph.dependencies n ↔ d ∈ (r.site site).targets
  | .shared t => r.catalog.Definite t ∧ r.graph.typeAt n = some t ∧ r.graph.dependencies n = []
  | .value => r.graph.dependencies n = []

/-- A plain node that steps of any kind may bind, at any time. -/
structure Bindable (r : Run) (n : Node) : Prop where
  valid : r.Valid n
  plain : (r.graph.cell n).kind = .plain
  free : ∀ role, ¬ r.Plays n role

/-- A node that may be bound now: the node of a pointer is bound once. -/
structure Ready (r : Run) (n : Node) : Prop where
  valid : r.Valid n
  unbound : (r.graph.cell n).kind = .plain ∨ r.graph.dependencies n = []
  free : ∀ role, ¬ r.Plays n role

theorem Bindable.ready {r : Run} {n : Node} (h : r.Bindable n) : r.Ready n :=
  ⟨h.valid, .inl h.plain, h.free⟩

end Run

/-- A block whose parameters may be bound. -/
structure BlockFlow.Fits (block : BlockFlow) (r : Run) : Prop where
  parameters : ∀ n ∈ block.parameters, r.Bindable n
  result : r.Valid block.result

structure BodyFlow.Fits (body : BodyFlow) (r : Run) : Prop where
  result : r.Bindable body.result
  block : ∀ block, body.block = some block → block.Fits r

/-- A context on definite types. -/
structure Context.Fits (ctx : Context) (r : Run) : Prop where
  receiver : r.catalog.Definite ctx.receiver
  home : r.catalog.Definite ctx.home
  body : ∀ body, ctx.body = some body → body.Fits r

/-- A call that watches its receiver and its arguments. -/
structure CallSite.Fits (call : CallSite) (site : Site) (r : Run) : Prop where
  watched : ∀ n ∈ call.watched, r.Valid n ∧ .site site ∈ (r.graph.cell n).watchers
  caller : r.catalog.Definite call.caller
  block : ∀ block, call.block = some block → block.Fits r

namespace Run

/-! ## What a run keeps -/

/-- What a run keeps in all that it does. -/
structure Retains (r r' : Run) : Prop where
  extended : r.catalog.Extends r'.catalog
  size : r.graph.size ≤ r'.graph.size
  watchers : ∀ n site, .site site ∈ (r.graph.cell n).watchers →
    .site site ∈ (r'.graph.cell n).watchers
  watching : ∀ n (site : Site), .site site ∈ (r'.graph.cell n).watchers →
    .site site ∈ (r.graph.cell n).watchers ∨ site.index < r'.sites.size
  sites : r.sites.size ≤ r'.sites.size
  site : ∀ s : Site, s.index < r.sites.size →
    ∃ targets, r'.site s = { r.site s with targets := targets }
  results : ∀ key n, r.results.get? key = some n → r'.results.get? key = some n
  constructions : ∀ key n, r.constructions.get? key = some n → r'.constructions.get? key = some n
  slotNodes : ∀ key n, r.slotNodes.get? key = some n → r'.slotNodes.get? key = some n
  sharedNodes : ∀ t n, r.sharedNodes.get? t = some n → r'.sharedNodes.get? t = some n
  sharedBefore : ∀ t n, r'.sharedNodes.get? t = some n →
    r.sharedNodes.get? t = some n ∨ r.graph.size ≤ n.index

/-! ## What calls have done -/

/-- The initializer that a new value of type `owner` needs has been instantiated, if there is
one. -/
structure Initialized (r : Run) (site : Site) (owner : Ty) (arguments : List Ty) : Prop where
  self : r.catalog.Definite owner
  given : ∀ t ∈ arguments, r.catalog.Definite t
  done : ∀ id, r.catalog.select owner ((r.site site).initializing owner arguments) = .ok id →
    ∃ n, r.results.get? ((r.site site).invocation site owner id arguments) = some n

/-- A call has `n` for what it does on one choice of types. -/
def Yields (r : Run) (site : Site) (arguments : List Ty) (n : Node) : Dispatch → Prop
  | .method owner id =>
    r.results.get? ((r.site site).invocation site owner id arguments) = some n
  | .construct t =>
    (r.catalog.isGeneric t = true ∧ r.constructions.get? (site, arguments) = some n) ∨
    (r.catalog.isGeneric t = false ∧ r.sharedNodes.get? t = some n ∧
      r.Initialized site t arguments)
  | .miss _ => False

/-- The targets of a call are what it yields for the types that its receiver and arguments have,
as these were when the catalog was `c`. -/
structure ResolvedIn (r : Run) (site : Site) (c : Catalog) : Prop where
  sound : c.Sound
  extended : c.Extends r.catalog
  caller : c.Definite (r.site site).caller
  entered : ∀ n ∈ (r.site site).watched, ∀ t, r.graph.typeAt n = some t → t.index < c.size
  answered : ∀ all, (r.withCatalog c).combinations (r.site site) = some all → ∀ one ∈ all,
    ∃ n ∈ (r.site site).targets, r.Yields site one.2 n (c.dispatch (r.site site) one.1 one.2)
  wanted : ∀ all, (r.withCatalog c).combinations (r.site site) = some all →
    ∀ n ∈ (r.site site).targets, ∃ one ∈ all,
      r.Yields site one.2 n (c.dispatch (r.site site) one.1 one.2)

/-- A call is bound to what it yields for the types that its receiver and arguments have. -/
def Current (r : Run) (site : Site) : Prop := ∃ c, r.ResolvedIn site c

/-- A call is bound to what it yields, or will be woken by a node that has changed. -/
def Attended (r : Run) (site : Site) : Prop :=
  r.Current site ∨ ∃ n ∈ (r.site site).watched, r.graph.dirtyAt n = true

/-- There are nodes for some instance variables of a type. -/
def Slotted (r : Run) (owner : Ty) (names : List String) : Prop :=
  ∀ name ∈ names, ∃ n, r.slotNodes.get? (owner, name) = some n

/-- An instance has nodes for all instance variables that it assigns. -/
def Complete (r : Run) (key : Invocation) : Prop :=
  r.Slotted key.owner ((r.catalog.method key.method).assigned key.arguments)

/-- If the receiver of a call is the node of a fixed type, a member of that type makes values of type
`t`. -/
def Makes (r : Run) (site : Site) (t : Ty) : Prop :=
  ∀ d, (r.site site).receiver = some d → r.Valid d ∧ ∀ u, r.sharedNodes.get? u = some d →
    r.catalog.Definite u ∧ ∃ o ∈ r.catalog.members u, r.catalog.Definite o ∧
      r.catalog.constructed o = some t

/-- `n` holds the generic value of type `t` that `site` makes from `arguments`, initialized as a
value of the type `own` made for it. -/
structure BuiltAs (r : Run) (site : Site) (arguments : List Ty) (n : Node) (t own : Ty) : Prop where
  entered : site.index < r.sites.size
  template : r.catalog.Template t
  made : r.Makes site t
  copy : r.catalog.Specializes own t
  held : ∃ q p, r.catalog.shape q = .provisional p ∧ p.holder = n ∧ p.template = t
  initialized : r.Initialized site own arguments

/-- The value that `n` holds got its type when the run was `r₀`, and is bound by the instance
variables that its own type had then. By then its initializer was typed, and so were all definitions
that had been called on it. -/
structure Furnished (r r₀ : Run) (site : Site) (arguments : List Ty) (n : Node) (t own : Ty) :
    Prop where
  before : r₀.Retains r
  installed : ∃ q s, Store.install t (RunM.slotNodesOf r₀ own) n r₀.store = .ok q s ∧
    Retains { r₀ with store := s } r
  initialized : r₀.Initialized site own arguments
  complete : ∀ key m, r₀.results.get? key = some m → key.owner = own → r₀.Complete key
  observed : ∃ q p, r.catalog.shape q = .provisional p ∧ p.holder = n ∧ p.template = t ∧
    (p.observed.map (·.1)).Nodup ∧
    ∀ name d, (name, d) ∈ p.observed ↔ r₀.slotNodes.get? (own, name) = some d

def Built (r : Run) (key : Site × List Ty) (n : Node) : Prop :=
  ∃ t own, r.BuiltAs key.1 key.2 n t own ∧ ∃ r₀, r.Furnished r₀ key.1 key.2 n t own

/-- How many bodies were typed with `n` as their result. -/
def typings (r : Run) (n : Node) : Nat := r.instances.toList.countP (·.result == n)

/-! ## Sound runs -/

/-- What holds of a run in which everything that was begun is done, or among what is due. -/
structure Sound (due : List Task) (r : Run) : Prop where
  store : r.store.Sound
  balanced : r.store.Balanced []
  held : r.store.Held
  roles : ∀ n a b, r.Plays n a → r.Plays n b → a = b
  played : ∀ n role, r.Plays n role → r.Valid n ∧ r.Fills n role
  sites : ∀ site : Site, site.index < r.sites.size → (r.site site).Fits site r
  results : ∀ key n, r.results.get? key = some n → r.Valid n ∧
    ∀ body, (r.catalog.method key.method).body = .code body → r.typings n = 1
  owners : ∀ key n, r.results.get? key = some n → r.catalog.Definite key.owner
  instances : ∀ i ∈ r.instances, r.Valid i.result
  slotNodes : ∀ key n, r.slotNodes.get? key = some n → r.Bindable n
  constantNodes : ∀ t n, r.constantNodes.get? t = some n → r.Valid n
  attended : ∀ site : Site, site.index < r.sites.size → r.Attended site ∨ .call site ∈ due
  complete : ∀ key n, r.results.get? key = some n → r.Complete key ∨ .body key ∈ due
  built : ∀ key n, r.constructions.get? key = some n → r.Built key n ∨ .value key ∈ due
  watching : ∀ n (site : Site), .site site ∈ (r.graph.cell n).watchers → site.index < r.sites.size
  slotKeys : r.slotNodes.keys.Nodup
  callable : r.catalog.Callable
  array : r.catalog.Template .array

end Run

end FlowTyping
