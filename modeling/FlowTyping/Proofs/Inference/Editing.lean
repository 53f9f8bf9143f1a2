import FlowTyping.Proofs.Flow.Edits
import FlowTyping.Proofs.Inference.Keeping

/-
  Typing edits a store

  A step of a run, or of typing, edits if all that it does to the store is
  edits, whether it gives a result or fails (`Edits`). Steps that are put
  together from such steps edit, so everything that a call does edits, and so
  does typing an expression with any bound on nested bodies
  (`edits_typerWithin`). No assumption is made on the run, or on what is typed.
-/
namespace FlowTyping

open Steps Relation

def Typing.store (s : Typing) : Store := s.run.store

/-- A step that does nothing but edits to the store that its state holds. -/
def Edits {σ α : Type} (store : σ → Store) (act : EStateM Halt σ α) : Prop :=
  ∀ s, (store s).Edits (store (left (act s)))

/-- A way to type expressions that does nothing but edits. -/
def Typer.Edits (typer : Typer) : Prop :=
  ∀ (ctx : Context) (e : Expr), FlowTyping.Edits Typing.store (typer ctx e)

namespace Edits

variable {σ α β : Type} {store : σ → Store} {x : EStateM Halt σ α} {f : α → EStateM Halt σ β}

theorem pure' (a : α) : Edits store (pure a) := fun _ => .refl

theorem get' : Edits store get := fun _ => .refl

theorem throw' (halt : Halt) : Edits store (throw halt : EStateM Halt σ α) := fun _ => .refl

theorem bind' (hx : Edits store x) (hf : ∀ a, Edits store (f a)) : Edits store (x >>= f) := by
  intro s
  refine left_bind (P := fun s' => (store s).Edits (store s')) (hx s) fun a s' _ h => ?_
  exact h.trans (hf a s')

theorem discard' (hx : Edits store x) : Edits store (discard x) := bind' hx fun _ => pure' _

theorem modify' {g : σ → σ} (h : ∀ s, (store s).Edits (store (g s))) :
    Edits store (modify g : EStateM Halt σ Unit) := h

theorem modifyGet' {g : σ → α × σ} (h : ∀ s, (store s).Edits (store (g s).2)) :
    Edits store (modifyGet g : EStateM Halt σ α) := h

theorem forM' {act : β → EStateM Halt σ Unit} (h : ∀ b, Edits store (act b)) (bs : List β) :
    Edits store (bs.forM act) := by
  induction bs with
  | nil => exact pure' ()
  | cons b bs ih => exact bind' (h b) fun _ => ih

end Edits

variable {α : Type} {typer : Typer} {ctx : Context} {active : List Frame} {site : Site}
  {owner : Ty} {place : Place} {mark : Mark}

/-! ## Steps of a run -/

theorem edits_fail (e : TypingError) : Edits Run.store (RunM.fail e : RunM α) := .throw' _

theorem edits_ofExcept (x : Except TypingError α) : Edits Run.store (RunM.ofExcept x) := by
  cases x with
  | ok a => exact .pure' a
  | error e => exact edits_fail e

theorem edits_catalog : Edits Run.store RunM.catalog := fun _ => .refl

theorem edits_siteAt (site : Site) : Edits Run.store (RunM.siteAt site) := fun _ => .refl

theorem edits_freshNode (place : Place) : Edits Run.store (RunM.freshNode place) :=
  .modifyGet' fun _ => .single (.add .plain none place)

theorem edits_freshAddress (place : Place) : Edits Run.store (RunM.freshAddress place) :=
  .modifyGet' fun _ => .single (.add .pointer none place)

theorem Run.edits_sharedNode (r : Run) (t : Ty) : r.store.Edits (r.sharedNode t).2.store := by
  unfold Run.sharedNode
  split
  · exact .refl
  · exact .single (.add .plain (some t) .synthesized)

theorem Run.edits_slotNode (r : Run) (owner : Ty) (name : String) :
    r.store.Edits (r.slotNode owner name).2.store := by
  have hadded : r.store.Edits (r.freshNode .plain .synthesized).2.store :=
    .single (.add .plain none .synthesized)
  unfold Run.slotNode
  split
  · exact .refl
  · dsimp only
    split
    · exact (hadded.trans (Run.edits_sharedNode _ _)).tail (.bind _ _)
    · exact hadded

theorem edits_sharedNode (t : Ty) : Edits Run.store (RunM.sharedNode t) :=
  .modifyGet' fun r => r.edits_sharedNode t

theorem edits_sharedNil : Edits Run.store RunM.sharedNil := edits_sharedNode .nil

theorem edits_slotNode (owner : Ty) (name : String) : Edits Run.store (RunM.slotNode owner name) :=
  .modifyGet' fun r => r.edits_slotNode owner name

theorem edits_bind (n d : Node) : Edits Run.store (RunM.bind n d) :=
  .modify' fun _ => .single (.bind n d)

theorem store_left_onStore (act : StoreM α) (r : Run) :
    (left (RunM.onStore act r)).store = left (act r.store) := by
  unfold RunM.onStore
  cases act r.store with
  | ok a s => rfl
  | error e s => rfl

theorem edits_install (template : Ty) (observed : List (String × Node)) (holder : Node) :
    Edits Run.store (RunM.onStore (Store.install template observed holder)) := by
  intro r
  rw [store_left_onStore]
  exact .single (.install template observed holder)

/-! ## Steps of typing -/

theorem edits_lift {act : RunM α} (h : Edits Run.store act) :
    Edits Typing.store (Typing.lift act) := by
  intro s
  unfold Typing.store
  rw [run_left_lift]
  exact h s.run

theorem edits_inFreshScopes {act : TypingM α} (h : Edits Typing.store act) :
    Edits Run.store (RunM.inFreshScopes act) := by
  intro r
  rw [left_inFreshScopes]
  exact h ⟨.empty, r⟩

theorem edits_framed {act : RunM α} (frame : Frame) (h : Edits Run.store act) :
    Edits Run.store (RunM.framed frame act) := by
  intro r
  rw [left_framed]
  exact h r

theorem edits_inScope {act : TypingM α} (h : Edits Typing.store act) :
    Edits Typing.store (TypingM.inScope act) := by
  intro s
  unfold Typing.store
  rw [run_left_inScope]
  exact h ⟨s.scopes.push, s.run⟩

/-- Local variables are no part of the store. -/
theorem edits_define (name : String) (n : Node) :
    Edits Typing.store
      (modify fun s => { s with scopes := s.scopes.define name n } : TypingM Unit) :=
  .modify' fun _ => .refl

/-! ## Instances -/

theorem edits_typeParameters (htyper : typer.Edits) (ps : List Parameter) (arguments : List Ty) :
    Edits Typing.store (RunM.typeParameters typer ctx place ps arguments) := by
  induction ps generalizing arguments with
  | nil => exact .pure' ()
  | cons p ps ih =>
    -- what is done with the value of the first parameter, wherever it comes from
    have rest : ∀ value : Node, Edits Typing.store (do
        let var ← RunM.freshNode place
        RunM.bind var value
        modify fun s => { s with scopes := s.scopes.define p.name var }
        RunM.typeParameters typer ctx place ps arguments.tail : TypingM Unit) := fun value =>
      .bind' (edits_lift (edits_freshNode place)) fun var =>
        .bind' (edits_lift (edits_bind var value)) fun _ =>
          .bind' (edits_define p.name var) fun _ => ih arguments.tail
    unfold RunM.typeParameters
    cases arguments with
    | cons t _ => exact .bind' (edits_lift (edits_sharedNode t)) rest
    | nil =>
      cases p.fallback with
      | some fallback => exact .bind' (htyper ctx fallback) rest
      | none => exact .bind' (edits_lift (edits_fail _)) rest

theorem edits_typeBody (htyper : typer.Edits) (method : Method) (body : Expr)
    (arguments : List Ty) (flow : BodyFlow) :
    Edits Run.store (RunM.typeBody typer owner method body arguments flow active) := by
  refine .bind' edits_catalog fun c => edits_inFreshScopes ?_
  refine .bind' (edits_typeParameters htyper method.parameters arguments) fun _ => ?_
  exact .bind' (htyper _ body) fun value => edits_lift (edits_bind flow.result value)

theorem edits_instantiateMethod (htyper : typer.Edits) (id : MethodHandle) (arguments : List Ty) :
    Edits Run.store (RunM.instantiateMethod typer active site owner id arguments) := by
  unfold RunM.instantiateMethod
  refine .bind' (edits_siteAt site) fun call => .bind' .get' fun r => ?_
  split
  · exact .pure' _
  · refine .bind' edits_catalog fun c => ?_
    dsimp only
    split
    · refine .bind' (edits_ofExcept _) fun t => .bind' (edits_sharedNode t) fun result => ?_
      exact .bind' (.modify' fun _ => .refl) fun _ => .pure' result
    · next body _ =>
      refine .bind' (edits_freshNode _) fun result => .bind' (.modify' fun _ => .refl) fun _ => ?_
      exact .bind' (edits_framed _ (edits_typeBody htyper _ body arguments _)) fun _ =>
        .pure' result

theorem edits_runInitializer (htyper : typer.Edits) (arguments : List Ty) :
    Edits Run.store (RunM.runInitializer typer active site owner arguments) := by
  unfold RunM.runInitializer
  refine .bind' (edits_siteAt site) fun call => .bind' edits_catalog fun c => ?_
  split
  · next id _ => exact .discard' (edits_instantiateMethod htyper id arguments)
  · split
    · exact .pure' ()
    · exact edits_fail _

/-! ## Calls -/

theorem edits_construct (htyper : typer.Edits) (t : Ty) (arguments : List Ty) :
    Edits Run.store (RunM.construct typer active site t arguments) := by
  unfold RunM.construct
  refine .bind' edits_catalog fun c => ?_
  split
  · exact .bind' (edits_runInitializer htyper arguments) fun _ => edits_sharedNode t
  · refine .bind' .get' fun r => ?_
    split
    · exact .pure' _
    · refine .bind' (edits_siteAt site) fun call => .bind' (edits_freshNode _) fun holder => ?_
      refine .bind' (.modify' fun _ => .refl) fun _ => ?_
      refine .bind' (.modifyGet' fun _ => .single (.copy t)) fun own => ?_
      refine .bind' (edits_runInitializer htyper arguments) fun _ => .bind' .get' fun r => ?_
      exact .bind' (.discard' (edits_install t _ holder)) fun _ => .pure' holder

theorem edits_dispatch (htyper : typer.Edits) (arguments : List Ty) :
    Edits Run.store (RunM.dispatch typer active site owner arguments) := by
  unfold RunM.dispatch
  refine .bind' (edits_siteAt site) fun call => .bind' edits_catalog fun c => ?_
  split
  · next id _ => exact edits_instantiateMethod htyper id arguments
  · next t _ => exact edits_construct htyper t arguments
  · exact edits_fail _

theorem edits_dispatchAll (htyper : typer.Edits) (combinations : List (Ty × List Ty))
    (targets : List Node) :
    Edits Run.store (RunM.dispatchAll typer active site combinations targets) := by
  induction combinations generalizing targets with
  | nil => exact .pure' targets
  | cons one rest ih => exact .bind' (edits_dispatch htyper one.2) fun target => ih _

theorem Run.edits_retarget (r : Run) (site : Site) (targets : List Node) :
    r.store.Edits (RunM.retarget r site targets).store := by
  have hsteps : ∀ (step : Run → Node → Run) (ns : List Node) (r₁ : Run),
      r.store.Edits r₁.store → (∀ (r₂ : Run) (n : Node), r₂.store.Edit (step r₂ n).store) →
      r.store.Edits (ns.foldl step r₁).store := fun step ns r₁ hr₁ hstep =>
    List.foldlRecOn ns step (motive := fun r₂ => r.store.Edits r₂.store) hr₁
      fun r₂ hr₂ n _ => hr₂.tail (hstep r₂ n)
  exact hsteps _ _ _ (hsteps _ _ r .refl fun r₂ n => .unbind _ n) fun r₂ n => .bind _ n

theorem edits_rebindCall (htyper : typer.Edits) (site : Site) :
    Edits Run.store (RunM.rebindCall typer active site) := by
  unfold RunM.rebindCall
  refine .bind' .get' fun r => ?_
  split
  · exact .pure' ()
  · next combinations _ =>
    refine .bind' (edits_dispatchAll htyper combinations []) fun targets => ?_
    exact .modify' fun r => r.edits_retarget site targets

theorem edits_enterCall (htyper : typer.Edits) (call : CallSite) :
    Edits Run.store (RunM.enterCall typer call) := by
  refine .bind' (.modifyGet' fun r => ?_) fun site => edits_rebindCall htyper site
  exact List.foldlRecOn _ _ (motive := fun g => r.store.Edits ⟨r.catalog, g⟩) .refl
    fun g hg n _ => hg.tail (.watch n _)

/-! ## Constants, slots and arrays -/

theorem edits_constantNode (htyper : typer.Edits) (t : Ty) :
    Edits Run.store (RunM.constantNode typer active t) := by
  unfold RunM.constantNode
  refine .bind' .get' fun r => ?_
  split
  · exact .pure' _
  · refine .bind' edits_catalog fun c => ?_
    split
    · next name container value _ =>
      refine .bind' (edits_freshNode value.place) fun n => ?_
      refine .bind' (.modify' fun _ => .refl) fun _ => ?_
      refine .bind' (edits_inFreshScopes (htyper _ value)) fun v => ?_
      exact .bind' (edits_bind n v) fun _ => .pure' n
    · exact edits_fail _

theorem edits_constantFor (htyper : typer.Edits) (name : String) (value : Expr) :
    Edits Run.store (RunM.constantFor typer ctx name value) := by
  unfold RunM.constantFor
  refine .bind' edits_catalog fun c => ?_
  split
  · next known _ => exact edits_constantNode htyper known
  · refine .bind' (.modifyGet' fun _ => .single (.constant name value ctx.home)) fun t => ?_
    exact edits_constantNode htyper t

theorem edits_pathNode (htyper : typer.Edits) (path : List String) (place : Place) :
    Edits Run.store (RunM.pathNode typer ctx path place) := by
  unfold RunM.pathNode
  refine .bind' edits_catalog fun c => .bind' (edits_ofExcept _) fun t => ?_
  split
  · exact edits_constantNode htyper t
  · split
    · exact edits_sharedNode _
    · exact edits_fail _

theorem edits_readSlot (owner : Ty) (name : String) (place : Place) :
    Edits Run.store (RunM.readSlot owner name place) :=
  .bind' (.modify' fun _ => .refl) fun _ => edits_slotNode owner name

theorem edits_joinNode (place : Place) (ds : List Node) :
    Edits Run.store (RunM.joinNode place ds) :=
  .bind' (edits_freshNode place) fun n =>
    .bind' (.forM' (edits_bind n) ds) fun _ => .pure' n

theorem edits_arrayNode (place : Place) (element : Node) :
    Edits Run.store (RunM.arrayNode place element) :=
  .bind' (edits_freshAddress place) fun buffer => .bind' (edits_bind buffer element) fun _ =>
    .bind' (edits_freshNode place) fun holder =>
      .bind' (.discard' (edits_install .array _ holder)) fun _ => .pure' holder

theorem edits_bindBlock (parameters arguments : List Node) :
    Edits Run.store (RunM.bindBlock parameters arguments) := by
  induction parameters generalizing arguments with
  | nil => exact .pure' ()
  | cons parameter parameters ih =>
    have rest : ∀ value : Node, Edits Run.store (do
        RunM.bind parameter value
        RunM.bindBlock parameters arguments.tail) := fun value =>
      .bind' (edits_bind parameter value) fun _ => ih arguments.tail
    unfold RunM.bindBlock
    cases arguments with
    | nil => exact .bind' edits_sharedNil rest
    | cons n arguments => exact rest n

/-! ## Local variables and declarations -/

theorem edits_nil : Edits Typing.store (Typing.lift RunM.sharedNil) := edits_lift edits_sharedNil

theorem edits_readVariable (name : String) (place : Place) :
    Edits Typing.store (TypingM.readVariable name place) := by
  unfold TypingM.readVariable
  refine .bind' .get' fun s => ?_
  split
  · exact .pure' _
  · exact edits_lift (edits_fail _)

theorem edits_writtenVariable (name : String) :
    Edits Typing.store (TypingM.writtenVariable name) := by
  unfold TypingM.writtenVariable
  refine .bind' .get' fun s => ?_
  split
  · exact .pure' _
  · refine .bind' (edits_lift (edits_freshNode .synthesized)) fun n => ?_
    exact .bind' (edits_define name n) fun _ => .pure' n

theorem edits_assign (target : Target) (n : Node) :
    Edits Typing.store (TypingM.assign ctx target n) := by
  unfold TypingM.assign
  cases target with
  | localVar name =>
    exact .bind' (edits_writtenVariable name) fun var => edits_lift (edits_bind var n)
  | slot name =>
    exact .bind' (edits_lift (edits_slotNode ctx.receiver name)) fun slot =>
      edits_lift (edits_bind slot n)
  | constant name => exact .pure' ()

theorem edits_assignMissing (htyper : typer.Edits) (targets : List Target) :
    Edits Typing.store (TypingM.assignMissing typer ctx mark targets) := by
  induction targets with
  | nil => exact .pure' ()
  | cons target targets ih =>
    -- what is done for a target that is no constant
    have assigned : ∀ target : Target, Edits Typing.store (do
        TypingM.assign ctx target (← RunM.sharedNil)
        TypingM.assignMissing typer ctx mark targets) := fun target =>
      .bind' edits_nil fun value => .bind' (edits_assign target value) fun _ => ih
    cases target with
    | constant name =>
      exact .bind' (.discard' (edits_lift (edits_constantFor htyper name (.missing mark))))
        fun _ => ih
    | localVar name => exact assigned (.localVar name)
    | slot name => exact assigned (.slot name)

theorem edits_blockParameters (names : List String) :
    Edits Typing.store (TypingM.blockParameters place names) := by
  induction names with
  | nil => exact .pure' []
  | cons name names ih =>
    exact .bind' (edits_lift (edits_freshNode place)) fun n =>
      .bind' (edits_define name n) fun _ => .bind' ih fun ns => .pure' (n :: ns)

theorem edits_record (n : Node) : Edits Typing.store (TypingM.record ctx mark n) := by
  unfold TypingM.record
  split
  · exact .bind' (.modify' fun _ => .refl) fun _ => .pure' n
  · exact .pure' n

theorem edits_inDeclaration (name : String) {typeBody : Context → TypingM Node}
    (h : ∀ inner, Edits Typing.store (typeBody inner)) :
    Edits Typing.store (TypingM.inDeclaration ctx name typeBody) := by
  unfold TypingM.inDeclaration
  refine .bind' (edits_lift edits_catalog) fun c => ?_
  refine .bind' (edits_lift (edits_ofExcept _)) fun t => ?_
  exact .bind' (edits_lift (edits_inFreshScopes (h _))) fun _ => edits_nil

/-! ## Expressions -/

/-- An expression whose parts have been typed gets its node. -/
theorem edits_recorded {x : TypingM Node} (hx : Edits Typing.store x) :
    Edits Typing.store (x >>= TypingM.record ctx mark) :=
  .bind' hx edits_record

/-- The value of an expression is assigned to a target that is no constant. -/
theorem edits_assignment {x : TypingM Node} (target : Target) (hx : Edits Typing.store x) :
    Edits Typing.store (do
      let n ← x
      TypingM.assign ctx target n
      TypingM.record ctx mark n) :=
  .bind' hx fun n => .bind' (edits_assign target n) fun _ => edits_record n

mutual

theorem edits_nodeOf {typer : Typer} {ctx : Context} (htyper : typer.Edits) (e : Expr) :
    Edits Typing.store (TypingM.nodeOf typer ctx e) := by
  cases e with
  | literal mark kind =>
    unfold TypingM.nodeOf
    exact edits_recorded (edits_lift (edits_sharedNode _))
  | localVar mark name =>
    unfold TypingM.nodeOf
    exact edits_recorded (edits_readVariable name mark.place)
  | slot mark name =>
    unfold TypingM.nodeOf
    exact edits_recorded (edits_lift (edits_readSlot _ name mark.place))
  | self mark =>
    unfold TypingM.nodeOf
    exact edits_recorded (edits_lift (edits_sharedNode _))
  | path mark names =>
    unfold TypingM.nodeOf
    exact edits_recorded (edits_lift (edits_pathNode htyper names mark.place))
  | assign mark target value =>
    cases target with
    | constant name =>
      unfold TypingM.nodeOf
      exact edits_recorded (edits_lift (edits_constantFor htyper name value))
    | slot name =>
      unfold TypingM.nodeOf
      exact edits_assignment (.slot name) (edits_nodeOf htyper value)
    | localVar name =>
      unfold TypingM.nodeOf
      exact edits_assignment (.localVar name) (edits_nodeOf htyper value)
  | assignMany mark targets values =>
    unfold TypingM.nodeOf
    exact .bind' (edits_assignEach htyper targets values) fun _ => edits_recorded edits_nil
  | sequence mark items =>
    unfold TypingM.nodeOf
    refine .bind' (edits_nodesOf htyper items) fun ns => ?_
    split
    · exact edits_record _
    · exact edits_recorded edits_nil
  | branch mark condition accepted refused =>
    unfold TypingM.nodeOf
    refine .bind' (edits_nodeOf htyper condition) fun _ => ?_
    refine .bind' (edits_nodeOf htyper accepted) fun a => ?_
    refine .bind' (edits_nodeOrNil htyper refused) fun b => ?_
    exact edits_recorded (edits_lift (edits_joinNode mark.place [a, b]))
  | loop mark condition body =>
    unfold TypingM.nodeOf
    refine .bind' (edits_nodeOf htyper condition) fun _ => ?_
    exact .bind' (edits_nodeOf htyper body) fun _ => edits_recorded edits_nil
  | call mark receiver name arguments block =>
    unfold TypingM.nodeOf
    refine .bind' (edits_nodeOfOption htyper receiver) fun receiver => ?_
    refine .bind' (edits_nodesOf htyper arguments) fun arguments => ?_
    refine .bind' (edits_blockOf htyper mark.place block) fun block => ?_
    refine .bind' (edits_lift (edits_freshNode mark.place)) fun result => ?_
    exact .bind' (edits_lift (edits_enterCall htyper _)) fun _ => edits_record result
  | yielding mark arguments =>
    unfold TypingM.nodeOf
    split
    · exact edits_lift (edits_fail _)
    · next block _ =>
      refine .bind' (edits_nodesOf htyper arguments) fun ns => ?_
      refine .bind' (edits_lift (edits_bindBlock block.parameters ns)) fun _ => ?_
      exact edits_recorded (edits_lift (edits_joinNode mark.place [block.result]))
  | returning mark value =>
    unfold TypingM.nodeOf
    refine .bind' (edits_nodeOrNil htyper value) fun n => ?_
    -- the new node of the return itself
    have rest : Edits Typing.store
        (Typing.lift (RunM.freshNode mark.place) >>= TypingM.record ctx mark) :=
      edits_recorded (edits_lift (edits_freshNode mark.place))
    split
    · next body _ => exact .bind' (edits_lift (edits_bind body.result n)) fun _ => rest
    · exact rest
  | array mark elements of =>
    unfold TypingM.nodeOf
    refine .bind' (edits_lift (edits_freshNode mark.place)) fun element => ?_
    -- what follows the written type
    have rest : Edits Typing.store (do
        TypingM.typeElements typer ctx element elements
        TypingM.record ctx mark (← RunM.arrayNode mark.place element)) :=
      .bind' (edits_typeElements htyper element elements) fun _ =>
        edits_recorded (edits_lift (edits_arrayNode mark.place element))
    split
    · refine .bind' (edits_lift edits_catalog) fun c => ?_
      refine .bind' (edits_lift (edits_ofExcept _)) fun t => ?_
      refine .bind' (edits_lift (edits_sharedNode t)) fun shared => ?_
      exact .bind' (edits_lift (edits_bind element shared)) fun _ => rest
    · exact rest
  | addressOf mark value =>
    unfold TypingM.nodeOf
    refine .bind' (edits_nodeOf htyper value) fun n => ?_
    refine .bind' (edits_lift (edits_freshAddress mark.place)) fun address => ?_
    exact .bind' (edits_lift (edits_bind address n)) fun _ => edits_record address
  | classDef mark name superclass generic body =>
    unfold TypingM.nodeOf
    exact edits_recorded (edits_inDeclaration name fun inner => edits_nodeOf htyper body)
  | moduleDef mark name body =>
    unfold TypingM.nodeOf
    exact edits_recorded (edits_inDeclaration name fun inner => edits_nodeOf htyper body)
  | methodDef mark name onMetaclass params body =>
    unfold TypingM.nodeOf
    exact edits_recorded edits_nil
  | recordDef mark name fields =>
    unfold TypingM.nodeOf
    exact edits_recorded edits_nil
  | inclusion mark names =>
    unfold TypingM.nodeOf
    exact edits_recorded edits_nil

theorem edits_nodesOf {typer : Typer} {ctx : Context} (htyper : typer.Edits) (es : List Expr) :
    Edits Typing.store (TypingM.nodesOf typer ctx es) := by
  cases es with
  | nil => exact .pure' []
  | cons e rest =>
    exact .bind' (edits_nodeOf htyper e) fun n =>
      .bind' (edits_nodesOf htyper rest) fun ns => .pure' (n :: ns)

theorem edits_nodeOfOption {typer : Typer} {ctx : Context} (htyper : typer.Edits)
    (o : Option Expr) : Edits Typing.store (TypingM.nodeOfOption typer ctx o) := by
  cases o with
  | none => exact .pure' none
  | some e => exact .bind' (edits_nodeOf htyper e) fun n => .pure' (some n)

theorem edits_nodeOrNil {typer : Typer} {ctx : Context} (htyper : typer.Edits) (o : Option Expr) :
    Edits Typing.store (TypingM.nodeOrNil typer ctx o) := by
  cases o with
  | none => exact edits_nil
  | some e => exact edits_nodeOf htyper e

theorem edits_blockOf {typer : Typer} {ctx : Context} (htyper : typer.Edits) (place : Place)
    (block : Option (List String × Expr)) :
    Edits Typing.store (TypingM.blockOf typer ctx place block) := by
  cases block with
  | none => exact .pure' none
  | some block =>
    obtain ⟨names, body⟩ := block
    unfold TypingM.blockOf
    refine edits_inScope (.bind' (edits_blockParameters names) fun ns => ?_)
    exact .bind' (edits_nodeOf htyper body) fun n => .pure' _

theorem edits_typeElements {typer : Typer} {ctx : Context} (htyper : typer.Edits) (element : Node)
    (es : List Expr) : Edits Typing.store (TypingM.typeElements typer ctx element es) := by
  cases es with
  | nil => exact .pure' ()
  | cons e rest =>
    exact .bind' (edits_nodeOf htyper e) fun n =>
      .bind' (edits_lift (edits_bind element n)) fun _ => edits_typeElements htyper element rest

theorem edits_assignEach {typer : Typer} {ctx : Context} {mark : Mark} (htyper : typer.Edits)
    (targets : List Target) (es : List Expr) :
    Edits Typing.store (TypingM.assignEach typer ctx mark targets es) := by
  cases es with
  | nil =>
    unfold TypingM.assignEach
    exact edits_assignMissing htyper targets
  | cons e rest =>
    -- what is done for a target that is no constant
    have assigned : ∀ (target : Target) (targets : List Target), Edits Typing.store (do
        let n ← TypingM.nodeOf typer ctx e
        TypingM.assign ctx target n
        TypingM.assignEach typer ctx mark targets rest) := fun target targets =>
      .bind' (edits_nodeOf htyper e) fun n =>
        .bind' (edits_assign target n) fun _ => edits_assignEach htyper targets rest
    cases targets with
    | nil =>
      unfold TypingM.assignEach
      exact .bind' (edits_nodeOf htyper e) fun _ => edits_assignEach htyper [] rest
    | cons target targets =>
      cases target with
      | constant name =>
        unfold TypingM.assignEach
        exact .bind' (edits_lift (edits_constantFor htyper name e)) fun _ =>
          edits_assignEach htyper targets rest
      | slot name => exact assigned (.slot name) targets
      | localVar name => exact assigned (.localVar name) targets

end

/-- Typing with a bound on the nesting of bodies and constants edits the store and no more. -/
theorem edits_typerWithin (depth : Nat) : (TypingM.typerWithin depth).Edits := by
  induction depth with
  | zero => exact fun _ _ => .throw' .tooDeep
  | succ depth ih => exact fun _ e => edits_nodeOf ih e

theorem edits_typeProgram (htyper : typer.Edits) (program : Expr) :
    Edits Run.store (RunM.typeProgram typer program) :=
  edits_inFreshScopes (htyper _ program)

end FlowTyping
