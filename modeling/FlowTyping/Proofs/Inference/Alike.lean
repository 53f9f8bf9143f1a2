import FlowTyping.Inference.Check
import FlowTyping.Proofs.Flow.Naming
import FlowTyping.Proofs.Flow.Relaxing
import FlowTyping.Proofs.Steps

/-
  Typing under other bounds

  Typing looks neither at the budget of its graph nor at the bounds of a run, and
  a deeper nesting of bodies is only followed further. So two runs that differ in
  these type an expression alike, unless the bound on nesting cuts the first one
  off (`alike_nodeOf`, `typerWithin_alike`). Nor does typing take over a name that
  is taken.
-/
namespace FlowTyping

open Steps Catalog

/-- A state with bounds in it that may be relaxed, and with a catalog. -/
structure Bounded (σ : Type) where
  relax : Nat → Nat → σ → σ
  catalog : σ → Catalog

/-- The same run with so much more budget, and with another limit. -/
def Run.relax (extra limit : Nat) (r : Run) : Run := { r with store := r.store.relax extra limit }

def runs : Bounded Run := ⟨Run.relax, Run.catalog⟩

def typings : Bounded Typing :=
  ⟨fun extra limit s => ⟨s.scopes, s.run.relax extra limit⟩, fun s => s.run.catalog⟩

/-- Whether a fault is that a limit has been exceeded. -/
def Fault.isOfLimit : Fault → Bool
  | .stepLimit _ | .generationLimit _ _ => true
  | _ => false

/-- Whether a run stopped at a limit of the options, or at a bound of the model. -/
def Halt.isOfLimit : Halt → Bool
  | .failed e =>
    match e.origin.problem with
    | .internal f => f.isOfLimit
    | _ => false
  | .tooDeep | .tooManyRounds => true

/-- Whether a limit or a bound has cut a step off. -/
def isCutOff {σ α : Type} : EStateM.Result Halt σ α → Bool
  | .ok _ _ => false
  | .error halt _ => halt.isOfLimit

/-- Two steps that do the same from a state and from a relaxed one, unless the first is cut off. No
name is taken over. -/
structure Alike {σ α : Type} (B : Bounded σ) (s : σ) (act act' : EStateM Halt σ α) : Prop where
  same : ∀ extra limit, isCutOff (act s) = true ∨
    act' (B.relax extra limit s) = inState (B.relax extra limit) (act s)
  names : (B.catalog s).KeepsNames (B.catalog (left (act s)))

/-! ## How steps are put together -/

namespace Alike

variable {σ α β : Type} {B : Bounded σ} {s : σ} {act act' : EStateM Halt σ α}

theorem pure' (a : α) : Alike B s (pure a) (pure a) := ⟨fun _ _ => .inr rfl, .refl _⟩

theorem throw' (halt : Halt) : Alike B s (throw halt : EStateM Halt σ α) (throw halt) :=
  ⟨fun _ _ => .inr rfl, .refl _⟩

/-- A step that is cut off is like any other. -/
theorem cutOff {halt : Halt} (hhalt : halt.isOfLimit = true) (act' : EStateM Halt σ α) :
    Alike B s (throw halt) act' := ⟨fun _ _ => .inl hhalt, .refl _⟩

/-- Other steps that do the same from these states. -/
theorem of_eq {other other' : EStateM Halt σ α} (h : Alike B s other other')
    (hact : act s = other s)
    (hact' : ∀ extra limit, act' (B.relax extra limit s) = other' (B.relax extra limit s)) :
    Alike B s act act' :=
  ⟨fun extra limit => by rw [hact, hact']; exact h.same extra limit, by rw [hact]; exact h.names⟩

theorem isCutOff_bind {f : α → EStateM Halt σ β} (h : isCutOff (act s) = true) :
    isCutOff ((act >>= f) s) = true := by
  rw [bind_eq]
  cases hr : act s with
  | ok a s' => rw [hr] at h; cases h
  | error halt s' => rw [hr] at h; exact h

theorem bind' {f f' : α → EStateM Halt σ β} (hact : Alike B s act act')
    (hf : ∀ a s', Alike B s' (f a) (f' a)) : Alike B s (act >>= f) (act' >>= f') := by
  refine ⟨fun extra limit => ?_, ?_⟩
  · rcases hact.same extra limit with hcut | hsame
    · exact .inl (isCutOff_bind hcut)
    · cases hr : act s with
      | error halt s' =>
        refine .inr (inState_bind hsame fun a t h => ?_)
        rw [hr] at h
        cases h
      | ok a s' =>
        refine ((hf a s').same extra limit).imp (fun hcut => ?_) fun hrest => ?_
        · rw [bind_eq, hr]
          exact hcut
        · refine inState_bind hsame fun b t h => ?_
          rw [hr] at h
          cases h
          exact hrest
  · exact left_bind (P := fun t => (B.catalog s).KeepsNames (B.catalog t)) hact.names
      fun a s' _ h => h.trans (hf a s').names

theorem discard' (hact : Alike B s act act') : Alike B s (discard act) (discard act') :=
  bind' hact fun _ _ => pure' _

theorem forM' {as : List β} {f f' : β → EStateM Halt σ PUnit}
    (hf : ∀ a s', Alike B s' (f a) (f' a)) : Alike B s (as.forM f) (as.forM f') := by
  induction as generalizing s with
  | nil => exact pure' _
  | cons a as ih => exact bind' (hf a s) fun _ _ => ih

/-- What is read of a state is not changed by relaxing it. -/
theorem get' {f f' : σ → EStateM Halt σ α} (h : Alike B s (f s) (f' s))
    (hf : ∀ extra limit, f' (B.relax extra limit s) = f' s) :
    Alike B s ((get : EStateM Halt σ σ) >>= f) ((get : EStateM Halt σ σ) >>= f') :=
  of_eq h rfl fun extra limit => congrFun (hf extra limit) _

theorem modifyGet' {f : σ → α × σ}
    (hf : ∀ extra limit, f (B.relax extra limit s) = ((f s).1, B.relax extra limit (f s).2))
    (hnames : (B.catalog s).KeepsNames (B.catalog (f s).2)) :
    Alike B s (modifyGet f) (modifyGet f) := by
  refine ⟨fun extra limit => .inr ?_, hnames⟩
  show EStateM.Result.ok (f _).1 (f _).2 = _
  rw [hf extra limit]
  rfl

theorem modify' {f : σ → σ}
    (hf : ∀ extra limit, f (B.relax extra limit s) = B.relax extra limit (f s))
    (hnames : (B.catalog s).KeepsNames (B.catalog (f s))) :
    Alike B s (modify f : EStateM Halt σ PUnit) (modify f) :=
  modifyGet' (fun extra limit => congrArg (Prod.mk PUnit.unit) (hf extra limit)) hnames

/-- Steps that are run from another state, and whose results are changed alike. -/
theorem wrap {τ : Type} {B' : Bounded τ} {t : τ} {w w' : EStateM Halt τ β}
    (g : EStateM.Result Halt σ α → EStateM.Result Halt τ β) (h : Alike B s act act')
    (hw : w t = g (act s)) (hw' : ∀ extra limit, w' (B'.relax extra limit t) =
      g (act' (B.relax extra limit s)))
    (hcut : ∀ x, isCutOff x = true → isCutOff (g x) = true)
    (hrelax : ∀ extra limit x, g (inState (B.relax extra limit) x) =
      inState (B'.relax extra limit) (g x))
    (hstart : B'.catalog t = B.catalog s)
    (hnames : ∀ x, B'.catalog (left (g x)) = B.catalog (left x)) : Alike B' t w w' := by
  refine ⟨fun extra limit => (h.same extra limit).imp (fun hc => ?_) fun hsame => ?_, ?_⟩
  · rw [hw]
    exact hcut _ hc
  · rw [hw', hsame, hrelax, hw]
  · rw [hw, hstart, hnames]
    exact h.names

end Alike

variable {α β : Type} {r : Run} {s : Typing} {n d : Node} {place : Place}

/-! ## Runs and typing -/

theorem alike_fail (e : TypingError) : Alike runs r (RunM.fail e : RunM α) (RunM.fail e) :=
  .throw' _

theorem alike_ofExcept (x : Except TypingError α) :
    Alike runs r (RunM.ofExcept x) (RunM.ofExcept x) := by
  cases x with
  | ok a => exact .pure' a
  | error e => exact .throw' _

theorem alike_catalog {f f' : Catalog → RunM α} (h : Alike runs r (f r.catalog) (f' r.catalog)) :
    Alike runs r (RunM.catalog >>= f) (RunM.catalog >>= f') :=
  .of_eq h rfl fun _ _ => rfl

theorem alike_siteAt {site : Site} {f f' : CallSite → RunM α}
    (h : Alike runs r (f (r.site site)) (f' (r.site site))) :
    Alike runs r (RunM.siteAt site >>= f) (RunM.siteAt site >>= f') :=
  .of_eq h rfl fun _ _ => rfl

theorem alike_lift {act act' : RunM α} (h : Alike runs s.run act act') :
    Alike typings s (Typing.lift act) (Typing.lift act') :=
  h.wrap (fun result => Typing.lift (fun _ => result) s)
    rfl (fun _ _ => rfl) (by rintro (_ | ⟨_ | _ | _, _⟩) h <;> exact h)
    (by rintro _ _ (_ | _) <;> rfl) rfl (by rintro (_ | _) <;> rfl)

theorem alike_inFreshScopes {act act' : TypingM α} (h : Alike typings ⟨.empty, r⟩ act act') :
    Alike runs r (RunM.inFreshScopes act) (RunM.inFreshScopes act') :=
  h.wrap (fun result => RunM.inFreshScopes (fun _ => result) r)
    rfl (fun _ _ => rfl) (by rintro (_ | ⟨_ | _ | _, _⟩) h <;> exact h)
    (by rintro _ _ (_ | _) <;> rfl) rfl (by rintro (_ | _) <;> rfl)

theorem alike_inScope {act act' : TypingM α} (h : Alike typings ⟨s.scopes.push, s.run⟩ act act') :
    Alike typings s (TypingM.inScope act) (TypingM.inScope act') :=
  h.wrap (fun result => TypingM.inScope (fun _ => result) s)
    rfl (fun _ _ => rfl) (by rintro (_ | ⟨_ | _ | _, _⟩) h <;> exact h)
    (by rintro _ _ (_ | _) <;> rfl) rfl (by rintro (_ | _) <;> rfl)

theorem alike_framed (frame : Frame) {act act' : RunM α} (h : Alike runs r act act') :
    Alike runs r (RunM.framed frame act) (RunM.framed frame act') :=
  h.wrap (fun result => RunM.framed frame (fun _ => result) r)
    rfl (fun _ _ => rfl) (by rintro (_ | ⟨_ | _ | _, _⟩) h <;> exact h)
    (by rintro _ _ (_ | ⟨_ | _ | _, _⟩) <;> rfl) rfl (by rintro (_ | ⟨_ | _ | _, _⟩) <;> rfl)

/-- What a step reads of the catalog while local variables are in scope. -/
theorem alike_liftCatalog {f f' : Catalog → TypingM α}
    (h : Alike typings s (f s.run.catalog) (f' s.run.catalog)) :
    Alike typings s (Typing.lift RunM.catalog >>= f) (Typing.lift RunM.catalog >>= f') :=
  .of_eq h rfl fun _ _ => rfl

/-- A step of a run that only puts something in its tables. -/
theorem alike_put {f : Run → Run}
    (hf : ∀ extra limit, f (r.relax extra limit) = (f r).relax extra limit)
    (hcatalog : (f r).catalog = r.catalog) :
    Alike runs r (modify f : RunM PUnit) (modify f) :=
  .modify' hf (.of_classes_eq (congrArg Catalog.classes hcatalog))

/-! ## Nodes and bindings -/

theorem relax_freshNode (extra limit : Nat) (r : Run) (kind : CellKind) (place : Place) :
    (r.relax extra limit).freshNode kind place =
      ((r.freshNode kind place).1, (r.freshNode kind place).2.relax extra limit) := rfl

theorem relax_sharedNode (extra limit : Nat) (r : Run) (t : Ty) :
    (r.relax extra limit).sharedNode t =
      ((r.sharedNode t).1, (r.sharedNode t).2.relax extra limit) := by
  unfold Run.sharedNode
  rw [show (r.relax extra limit).sharedNodes = r.sharedNodes from rfl]
  cases r.sharedNodes.get? t <;> rfl

theorem relax_bindNode (extra limit : Nat) (r : Run) (n d : Node) :
    (r.relax extra limit).bind n d = (r.bind n d).relax extra limit :=
  congrArg (fun store => { r with store := store }) (Store.relax_bind r.store n d)

theorem relax_unbindNode (extra limit : Nat) (r : Run) (n d : Node) :
    (r.relax extra limit).unbind n d = (r.unbind n d).relax extra limit :=
  congrArg (fun store => { r with store := store }) (Store.relax_unbind r.store n d)

theorem relax_slotNode (extra limit : Nat) (r : Run) (owner : Ty) (name : String) :
    (r.relax extra limit).slotNode owner name =
      ((r.slotNode owner name).1, (r.slotNode owner name).2.relax extra limit) := by
  unfold Run.slotNode
  rw [show (r.relax extra limit).slotNodes = r.slotNodes from rfl]
  cases r.slotNodes.get? (owner, name) with
  | some n => rfl
  | none =>
    -- a slot with a declared type is bound to the node of that type
    dsimp only
    rw [relax_freshNode]
    dsimp only
    rw [show ((r.freshNode .plain .synthesized).2.relax extra limit).catalog.slot? owner name =
      (r.freshNode .plain .synthesized).2.catalog.slot? owner name from rfl]
    rcases (r.freshNode .plain .synthesized).2.catalog.slot? owner name with _ | _ | declared
    · rfl
    · rfl
    · dsimp only
      rw [relax_sharedNode]
      dsimp only
      rw [relax_bindNode]
      rfl

theorem classes_sharedNode (r : Run) (t : Ty) :
    (r.sharedNode t).2.catalog.classes = r.catalog.classes := by
  unfold Run.sharedNode
  split <;> rfl

theorem classes_slotNode (r : Run) (owner : Ty) (name : String) :
    (r.slotNode owner name).2.catalog.classes = r.catalog.classes := by
  unfold Run.slotNode
  split
  · rfl
  · dsimp only
    split
    · exact (Store.classes_bind _ _ _).trans (classes_sharedNode _ _)
    · rfl

theorem alike_freshNode : Alike runs r (RunM.freshNode place) (RunM.freshNode place) :=
  .modifyGet' (fun _ _ => rfl) (.refl _)

theorem alike_freshAddress : Alike runs r (RunM.freshAddress place) (RunM.freshAddress place) :=
  .modifyGet' (fun _ _ => rfl) (.refl _)

theorem alike_sharedNode (t : Ty) : Alike runs r (RunM.sharedNode t) (RunM.sharedNode t) :=
  .modifyGet' (fun extra limit => relax_sharedNode extra limit r t)
    (.of_classes_eq (classes_sharedNode r t))

theorem alike_sharedNil : Alike runs r RunM.sharedNil RunM.sharedNil := alike_sharedNode .nil

theorem alike_slotNode (owner : Ty) (name : String) :
    Alike runs r (RunM.slotNode owner name) (RunM.slotNode owner name) :=
  .modifyGet' (fun extra limit => relax_slotNode extra limit r owner name)
    (.of_classes_eq (classes_slotNode r owner name))

theorem alike_bind (n d : Node) : Alike runs r (RunM.bind n d) (RunM.bind n d) :=
  .modify' (fun extra limit => relax_bindNode extra limit r n d)
    (.of_classes_eq (Store.classes_bind r.store n d))

/-- Steps on the store that do the same with more budget, unless the first one is cut off, and that
leave class tables alone. -/
theorem alike_onStore {act act' : StoreM α}
    (hsame : ∀ extra limit, (∃ e store, act r.store = .error e store ∧
        (Halt.failed e).isOfLimit = true) ∨
      act' (r.store.relax extra limit) = inState (Store.relax extra limit) (act r.store))
    (hclasses : (left (act r.store)).catalog.classes = r.catalog.classes) :
    Alike runs r (RunM.onStore act) (RunM.onStore act') := by
  refine ⟨fun extra limit => (hsame extra limit).imp ?_ fun h => ?_, .of_classes_eq
    (Eq.trans ?_ hclasses)⟩
  · rintro ⟨e, store, herror, hlimit⟩
    unfold RunM.onStore
    rw [herror]
    exact hlimit
  · show RunM.onStore act' (r.relax extra limit) = _
    unfold RunM.onStore
    rw [show act' (r.relax extra limit).store = _ from h]
    cases act r.store <;> rfl
  · unfold RunM.onStore
    cases act r.store <;> rfl

theorem alike_install (template : Ty) (observed : List (String × Node)) (holder : Node) :
    Alike runs r (RunM.onStore (Store.install template observed holder))
      (RunM.onStore (Store.install template observed holder)) :=
  alike_onStore (fun _ _ => .inr (Store.relax_install r.store template observed holder))
    (Store.classes_install r.store template observed holder)

/-! ## Constants and paths -/

/-- Two ways to type that do the same, as far as the first one goes. -/
def Typer.Alike (typer typer' : Typer) : Prop :=
  ∀ s ctx e, FlowTyping.Alike typings s (typer ctx e) (typer' ctx e)

variable {typer typer' : Typer} {ctx : Context} {mark : Mark} {active : List Frame}

theorem alike_constantNode (h : typer.Alike typer') (t : Ty) :
    Alike runs r (RunM.constantNode typer active t) (RunM.constantNode typer' active t) := by
  unfold RunM.constantNode
  refine .get' ?_ fun _ _ => rfl
  split
  · exact .pure' _
  · refine alike_catalog ?_
    split
    · refine .bind' alike_freshNode fun n r₁ => ?_
      refine .bind' (alike_put (fun _ _ => rfl) rfl) fun _ r₂ => ?_
      refine .bind' (alike_inFreshScopes (h _ _ _)) fun v r₃ => ?_
      exact .bind' (alike_bind n v) fun _ _ => .pure' n
    · exact alike_fail _

theorem alike_constantFor (h : typer.Alike typer') (name : String) (value : Expr) :
    Alike runs r (RunM.constantFor typer ctx name value)
      (RunM.constantFor typer' ctx name value) := by
  unfold RunM.constantFor
  refine alike_catalog ?_
  split
  · next known _ => exact .bind' (.pure' known) fun t _ => alike_constantNode h t
  · next hfree =>
    exact .bind' (.modifyGet' (fun _ _ => rfl) (.newConstant_of_free hfree value))
      fun t _ => alike_constantNode h t

theorem alike_pathNode (h : typer.Alike typer') (path : List String) :
    Alike runs r (RunM.pathNode typer ctx path place) (RunM.pathNode typer' ctx path place) := by
  unfold RunM.pathNode
  refine alike_catalog (.bind' (alike_ofExcept _) fun t _ => ?_)
  split
  · exact alike_constantNode h t
  · split
    · exact alike_sharedNode _
    · exact alike_fail _

/-! ## Slots, joins, arrays and blocks -/

theorem alike_readSlot (owner : Ty) (name : String) :
    Alike runs r (RunM.readSlot owner name place) (RunM.readSlot owner name place) :=
  .bind' (alike_put (fun _ _ => rfl) rfl) fun _ _ => alike_slotNode owner name

theorem alike_joinNode (ds : List Node) :
    Alike runs r (RunM.joinNode place ds) (RunM.joinNode place ds) :=
  .bind' alike_freshNode fun n _ => .bind' (.forM' fun d _ => alike_bind n d) fun _ _ => .pure' n

theorem alike_arrayNode (element : Node) :
    Alike runs r (RunM.arrayNode place element) (RunM.arrayNode place element) := by
  refine .bind' alike_freshAddress fun buffer _ => .bind' (alike_bind buffer element) fun _ _ => ?_
  refine .bind' alike_freshNode fun holder _ => ?_
  exact .bind' (.discard' (alike_install _ _ _)) fun _ _ => .pure' holder

theorem alike_bindBlock (parameters arguments : List Node) :
    Alike runs r (RunM.bindBlock parameters arguments) (RunM.bindBlock parameters arguments) := by
  induction parameters generalizing r arguments with
  | nil => exact .pure' _
  | cons parameter parameters ih =>
    unfold RunM.bindBlock
    cases arguments with
    | nil =>
      exact .bind' alike_sharedNil fun n _ => .bind' (alike_bind parameter n) fun _ _ => ih _
    | cons n ns =>
      exact .bind' (.pure' n) fun n _ => .bind' (alike_bind parameter n) fun _ _ => ih _

/-! ## Calls -/

theorem alike_typeParameters (h : typer.Alike typer') (ps : List Parameter) (arguments : List Ty) :
    Alike typings s (RunM.typeParameters typer ctx place ps arguments)
      (RunM.typeParameters typer' ctx place ps arguments) := by
  induction ps generalizing s arguments with
  | nil => exact .pure' _
  | cons p ps ih =>
    -- whatever the value is, it is bound to a new variable
    have named : ∀ (s : Typing) (value : Node), Alike typings s (do
          let var ← RunM.freshNode place
          RunM.bind var value
          modify fun s => { s with scopes := s.scopes.define p.name var }
          RunM.typeParameters typer ctx place ps arguments.tail) (do
          let var ← RunM.freshNode place
          RunM.bind var value
          modify fun s => { s with scopes := s.scopes.define p.name var }
          RunM.typeParameters typer' ctx place ps arguments.tail) := fun s value =>
      .bind' (alike_lift alike_freshNode) fun var _ =>
        .bind' (alike_lift (alike_bind var value)) fun _ _ =>
          .bind' (.modify' (fun _ _ => rfl) (.refl _)) fun _ _ => ih _
    unfold RunM.typeParameters
    cases arguments with
    | cons t ts => exact .bind' (alike_lift (alike_sharedNode t)) fun n s₁ => named s₁ n
    | nil =>
      cases p.fallback with
      | some fallback => exact .bind' (h _ _ _) fun n s₁ => named s₁ n
      | none => exact .bind' (alike_lift (alike_fail _)) fun n s₁ => named s₁ n

theorem alike_typeBody (h : typer.Alike typer') (owner : Ty) (m : Method) (body : Expr)
    (arguments : List Ty) (flow : BodyFlow) :
    Alike runs r (RunM.typeBody typer owner m body arguments flow active)
      (RunM.typeBody typer' owner m body arguments flow active) := by
  unfold RunM.typeBody
  refine alike_catalog (alike_inFreshScopes ?_)
  refine .bind' (alike_typeParameters h _ _) fun _ _ => .bind' (h _ _ _) fun value _ => ?_
  exact alike_lift (alike_bind _ value)

theorem alike_instantiateMethod (h : typer.Alike typer') (site : Site) (owner : Ty)
    (id : MethodHandle) (arguments : List Ty) :
    Alike runs r (RunM.instantiateMethod typer active site owner id arguments)
      (RunM.instantiateMethod typer' active site owner id arguments) := by
  unfold RunM.instantiateMethod
  refine alike_siteAt (.get' ?_ fun _ _ => rfl)
  split
  · exact .pure' _
  · refine alike_catalog ?_
    dsimp only
    split
    · refine .bind' (alike_ofExcept _) fun t _ => .bind' (alike_sharedNode t) fun result _ => ?_
      exact .bind' (alike_put (fun _ _ => rfl) rfl) fun _ _ => .pure' result
    · refine .bind' alike_freshNode fun result _ => ?_
      refine .bind' (alike_put (fun _ _ => rfl) rfl) fun _ _ => ?_
      exact .bind' (alike_framed _ (alike_typeBody h _ _ _ _ _)) fun _ _ => .pure' result

theorem alike_runInitializer (h : typer.Alike typer') (site : Site) (owner : Ty)
    (arguments : List Ty) :
    Alike runs r (RunM.runInitializer typer active site owner arguments)
      (RunM.runInitializer typer' active site owner arguments) := by
  unfold RunM.runInitializer
  refine alike_siteAt (alike_catalog ?_)
  split
  · exact .discard' (alike_instantiateMethod h _ _ _ _)
  · split
    · exact .pure' _
    · exact alike_fail _

theorem alike_construct (h : typer.Alike typer') (site : Site) (t : Ty) (arguments : List Ty) :
    Alike runs r (RunM.construct typer active site t arguments)
      (RunM.construct typer' active site t arguments) := by
  unfold RunM.construct
  refine alike_catalog ?_
  split
  · exact .bind' (alike_runInitializer h _ _ _) fun _ _ => alike_sharedNode t
  · refine .get' ?_ fun _ _ => rfl
    split
    · exact .pure' _
    · refine alike_siteAt (.bind' alike_freshNode fun holder _ => ?_)
      refine .bind' (alike_put (fun _ _ => rfl) rfl) fun _ r₂ => ?_
      refine .bind' (.modifyGet' (fun _ _ => rfl) (.of_classes_eq (classes_specialize _ _ _)))
        fun own _ => ?_
      refine .bind' (alike_runInitializer h _ _ _) fun _ _ => .get' ?_ fun _ _ => rfl
      exact .bind' (.discard' (alike_install _ _ _)) fun _ _ => .pure' holder

theorem alike_dispatch (h : typer.Alike typer') (site : Site) (owner : Ty) (arguments : List Ty) :
    Alike runs r (RunM.dispatch typer active site owner arguments)
      (RunM.dispatch typer' active site owner arguments) := by
  unfold RunM.dispatch
  refine alike_siteAt (alike_catalog ?_)
  split
  · exact alike_instantiateMethod h _ _ _ _
  · exact alike_construct h _ _ _
  · exact alike_fail _

theorem alike_dispatchAll (h : typer.Alike typer') (site : Site)
    (combinations : List (Ty × List Ty)) (targets : List Node) :
    Alike runs r (RunM.dispatchAll typer active site combinations targets)
      (RunM.dispatchAll typer' active site combinations targets) := by
  induction combinations generalizing r targets with
  | nil => exact .pure' _
  | cons combination rest ih => exact .bind' (alike_dispatch h _ _ _) fun _ _ => ih _

theorem relax_unbindEach (extra limit : Nat) (result : Node) (ds : List Node) (r : Run) :
    ds.foldl (fun r d => r.unbind result d) (r.relax extra limit) =
      (ds.foldl (fun r d => r.unbind result d) r).relax extra limit := by
  induction ds generalizing r with
  | nil => rfl
  | cons d ds ih => rw [List.foldl_cons, relax_unbindNode]; exact ih _

theorem relax_bindEach (extra limit : Nat) (result : Node) (ds : List Node) (r : Run) :
    ds.foldl (fun r d => r.bind result d) (r.relax extra limit) =
      (ds.foldl (fun r d => r.bind result d) r).relax extra limit := by
  induction ds generalizing r with
  | nil => rfl
  | cons d ds ih => rw [List.foldl_cons, relax_bindNode]; exact ih _

theorem relax_retarget (extra limit : Nat) (r : Run) (site : Site) (targets : List Node) :
    RunM.retarget (r.relax extra limit) site targets =
      (RunM.retarget r site targets).relax extra limit := by
  unfold RunM.retarget
  dsimp only
  rw [relax_unbindEach, relax_bindEach]
  rfl

theorem classes_foldl {f : Run → Node → Run}
    (hf : ∀ r d, (f r d).catalog.classes = r.catalog.classes) (ds : List Node) (r : Run) :
    (ds.foldl f r).catalog.classes = r.catalog.classes := by
  induction ds generalizing r with
  | nil => rfl
  | cons d ds ih => exact (ih _).trans (hf r d)

theorem classes_retarget (r : Run) (site : Site) (targets : List Node) :
    (RunM.retarget r site targets).catalog.classes = r.catalog.classes := by
  have hbind : ∀ (r : Run) (n d : Node), (r.bind n d).catalog.classes = r.catalog.classes :=
    fun r n d => Store.classes_bind r.store n d
  have hunbind : ∀ (r : Run) (n d : Node), (r.unbind n d).catalog.classes = r.catalog.classes :=
    fun r n d => Store.classes_unbind r.store n d
  exact (classes_foldl (hbind · _) _ _).trans (classes_foldl (hunbind · _) _ _)

theorem alike_rebindCall (h : typer.Alike typer') (site : Site) :
    Alike runs r (RunM.rebindCall typer active site) (RunM.rebindCall typer' active site) := by
  unfold RunM.rebindCall
  refine .get' ?_ fun _ _ => rfl
  split
  · exact .pure' _
  · refine .bind' (alike_dispatchAll h _ _ _) fun targets r₁ => ?_
    exact .modify' (fun extra limit => relax_retarget extra limit r₁ site targets)
      (.of_classes_eq (classes_retarget r₁ site targets))

theorem relax_watchEach (extra limit : Nat) (w : Watcher) (ns : List Node) (g : Graph) :
    ns.foldl (fun g n => g.watch n w) (g.relax extra limit) =
      (ns.foldl (fun g n => g.watch n w) g).relax extra limit := by
  induction ns generalizing g with
  | nil => rfl
  | cons n ns ih => exact ih (g.watch n w)

theorem alike_enterCall (h : typer.Alike typer') (call : CallSite) :
    Alike runs r (RunM.enterCall typer call) (RunM.enterCall typer' call) := by
  unfold RunM.enterCall
  refine .bind' (.modifyGet' (fun extra limit => ?_) (.refl _)) fun site _ =>
    alike_rebindCall h site
  exact congrArg
    (fun g => ((⟨r.sites.size⟩ : Site), { r.withGraph g with sites := r.sites.push call }))
    (relax_watchEach extra limit _ _ r.graph)

/-! ## Local variables, results and declarations -/

theorem alike_readVariable (name : String) :
    Alike typings s (TypingM.readVariable name place) (TypingM.readVariable name place) := by
  unfold TypingM.readVariable
  refine .get' ?_ fun _ _ => rfl
  split
  · exact .pure' _
  · exact alike_lift (alike_fail _)

theorem alike_define (name : String) (n : Node) :
    Alike typings s (modify fun s => { s with scopes := s.scopes.define name n } : TypingM Unit)
      (modify fun s => { s with scopes := s.scopes.define name n }) :=
  .modify' (fun _ _ => rfl) (.refl _)

theorem alike_writtenVariable (name : String) :
    Alike typings s (TypingM.writtenVariable name) (TypingM.writtenVariable name) := by
  unfold TypingM.writtenVariable
  refine .get' ?_ fun _ _ => rfl
  split
  · exact .pure' _
  · exact .bind' (alike_lift alike_freshNode) fun n _ => .bind' (alike_define name n)
      fun _ _ => .pure' n

theorem alike_assign (target : Target) (value : Node) :
    Alike typings s (TypingM.assign ctx target value) (TypingM.assign ctx target value) := by
  unfold TypingM.assign
  cases target with
  | localVar name =>
    exact .bind' (alike_writtenVariable name) fun n _ => alike_lift (alike_bind n value)
  | slot name =>
    exact .bind' (alike_lift (alike_slotNode _ _)) fun n _ => alike_lift (alike_bind n value)
  | constant name => exact .pure' _

theorem alike_assignMissing (h : typer.Alike typer') (targets : List Target) :
    Alike typings s (TypingM.assignMissing typer ctx mark targets)
      (TypingM.assignMissing typer' ctx mark targets) := by
  induction targets generalizing s with
  | nil => exact .pure' _
  | cons target targets ih =>
    cases target with
    | constant name =>
      exact .bind' (.discard' (alike_lift (alike_constantFor h name _))) fun _ _ => ih
    | localVar name =>
      exact .bind' (alike_lift alike_sharedNil) fun n _ => .bind' (alike_assign _ n) fun _ _ => ih
    | slot name =>
      exact .bind' (alike_lift alike_sharedNil) fun n _ => .bind' (alike_assign _ n) fun _ _ => ih

theorem alike_blockParameters (names : List String) :
    Alike typings s (TypingM.blockParameters place names)
      (TypingM.blockParameters place names) := by
  induction names generalizing s with
  | nil => exact .pure' _
  | cons name names ih =>
    exact .bind' (alike_lift alike_freshNode) fun n _ => .bind' (alike_define name n) fun _ _ =>
      .bind' ih fun ns _ => .pure' (n :: ns)

theorem alike_record (n : Node) :
    Alike typings s (TypingM.record ctx mark n) (TypingM.record ctx mark n) := by
  unfold TypingM.record
  split
  · exact .bind' (.modify' (fun _ _ => rfl) (.refl _)) fun _ _ => .pure' n
  · exact .pure' n

/-- An expression whose parts are typed alike gets its node. -/
theorem alike_recorded {x x' : TypingM Node} (hx : Alike typings s x x') :
    Alike typings s (x >>= TypingM.record ctx mark) (x' >>= TypingM.record ctx mark) :=
  .bind' hx fun n _ => alike_record n

theorem alike_nil : Alike typings s (Typing.lift RunM.sharedNil) (Typing.lift RunM.sharedNil) :=
  alike_lift alike_sharedNil

theorem alike_inDeclaration (name : String) {typeBody typeBody' : Context → TypingM Node}
    (h : ∀ inner s, Alike typings s (typeBody inner) (typeBody' inner)) :
    Alike typings s (TypingM.inDeclaration ctx name typeBody)
      (TypingM.inDeclaration ctx name typeBody') := by
  unfold TypingM.inDeclaration
  refine alike_liftCatalog (.bind' (alike_lift (alike_ofExcept _)) fun t _ => ?_)
  exact .bind' (alike_lift (alike_inFreshScopes (h _ _))) fun _ _ => alike_nil

/-! ## Expressions -/

mutual

theorem alike_nodeOf {typer typer' : Typer} {ctx : Context} {s : Typing}
    (h : typer.Alike typer') (e : Expr) :
    Alike typings s (TypingM.nodeOf typer ctx e) (TypingM.nodeOf typer' ctx e) := by
  cases e with
  | literal mark kind =>
    unfold TypingM.nodeOf
    exact alike_recorded (alike_lift (alike_sharedNode _))
  | localVar mark name =>
    unfold TypingM.nodeOf
    exact alike_recorded (alike_readVariable name)
  | slot mark name =>
    unfold TypingM.nodeOf
    exact alike_recorded (alike_lift (alike_readSlot _ _))
  | self mark =>
    unfold TypingM.nodeOf
    exact alike_recorded (alike_lift (alike_sharedNode _))
  | path mark names =>
    unfold TypingM.nodeOf
    exact alike_recorded (alike_lift (alike_pathNode h names))
  | assign mark target value =>
    -- the value of a constant is typed apart
    have assigned : ∀ target, Alike typings s (do
          let n ← TypingM.nodeOf typer ctx value
          TypingM.assign ctx target n
          TypingM.record ctx mark n) (do
          let n ← TypingM.nodeOf typer' ctx value
          TypingM.assign ctx target n
          TypingM.record ctx mark n) := fun target =>
      .bind' (alike_nodeOf h value) fun n _ =>
        .bind' (alike_assign target n) fun _ _ => alike_record n
    cases target with
    | constant name =>
      unfold TypingM.nodeOf
      exact alike_recorded (alike_lift (alike_constantFor h name value))
    | slot name =>
      unfold TypingM.nodeOf
      exact assigned (.slot name)
    | localVar name =>
      unfold TypingM.nodeOf
      exact assigned (.localVar name)
  | assignMany mark targets values =>
    unfold TypingM.nodeOf
    exact .bind' (alike_assignEach h targets values) fun _ _ => alike_recorded alike_nil
  | sequence mark items =>
    unfold TypingM.nodeOf
    refine .bind' (alike_nodesOf h items) fun ns _ => ?_
    split
    · exact alike_record _
    · exact alike_recorded alike_nil
  | branch mark condition accepted refused =>
    unfold TypingM.nodeOf
    refine .bind' (alike_nodeOf h condition) fun _ _ => ?_
    refine .bind' (alike_nodeOf h accepted) fun a _ => ?_
    refine .bind' (alike_nodeOrNil h refused) fun b _ => ?_
    exact alike_recorded (alike_lift (alike_joinNode _))
  | loop mark condition body =>
    unfold TypingM.nodeOf
    exact .bind' (alike_nodeOf h condition) fun _ _ => .bind' (alike_nodeOf h body) fun _ _ =>
      alike_recorded alike_nil
  | call mark receiver name arguments block =>
    unfold TypingM.nodeOf
    refine .bind' (alike_nodeOfOption h receiver) fun receiver _ => ?_
    refine .bind' (alike_nodesOf h arguments) fun arguments _ => ?_
    refine .bind' (alike_blockOf h mark.place block) fun block _ => ?_
    refine .bind' (alike_lift alike_freshNode) fun result _ => ?_
    exact .bind' (alike_lift (alike_enterCall h _)) fun _ _ => alike_record result
  | yielding mark arguments =>
    unfold TypingM.nodeOf
    split
    · exact alike_lift (alike_fail _)
    · refine .bind' (alike_nodesOf h arguments) fun ns _ => ?_
      exact .bind' (alike_lift (alike_bindBlock _ _)) fun _ _ =>
        alike_recorded (alike_lift (alike_joinNode _))
  | returning mark value =>
    unfold TypingM.nodeOf
    refine .bind' (alike_nodeOrNil h value) fun n s₁ => ?_
    split
    · exact .bind' (alike_lift (alike_bind _ n)) fun _ _ =>
        alike_recorded (alike_lift alike_freshNode)
    · exact alike_recorded (alike_lift alike_freshNode)
  | array mark elements of =>
    unfold TypingM.nodeOf
    refine .bind' (alike_lift alike_freshNode) fun element _ => ?_
    have rest : ∀ s₁, Alike typings s₁ (do
          TypingM.typeElements typer ctx element elements
          TypingM.record ctx mark (← RunM.arrayNode mark.place element)) (do
          TypingM.typeElements typer' ctx element elements
          TypingM.record ctx mark (← RunM.arrayNode mark.place element)) := fun s₁ =>
      .bind' (alike_typeElements h element elements) fun _ _ =>
        alike_recorded (alike_lift (alike_arrayNode element))
    split
    · refine alike_liftCatalog (.bind' (alike_lift (alike_ofExcept _)) fun t _ => ?_)
      exact .bind' (alike_lift (alike_sharedNode t)) fun n _ =>
        .bind' (alike_lift (alike_bind element n)) fun _ s₄ => rest s₄
    · exact rest _
  | addressOf mark value =>
    unfold TypingM.nodeOf
    refine .bind' (alike_nodeOf h value) fun n _ => ?_
    refine .bind' (alike_lift alike_freshAddress) fun address _ => ?_
    exact .bind' (alike_lift (alike_bind address n)) fun _ _ => alike_record address
  | classDef mark name superclass generic body =>
    unfold TypingM.nodeOf
    exact alike_recorded (alike_inDeclaration name fun inner _ => alike_nodeOf h body)
  | moduleDef mark name body =>
    unfold TypingM.nodeOf
    exact alike_recorded (alike_inDeclaration name fun inner _ => alike_nodeOf h body)
  | methodDef mark name onMetaclass params body =>
    unfold TypingM.nodeOf
    exact alike_recorded alike_nil
  | recordDef mark name fields =>
    unfold TypingM.nodeOf
    exact alike_recorded alike_nil
  | inclusion mark names =>
    unfold TypingM.nodeOf
    exact alike_recorded alike_nil

theorem alike_nodesOf {typer typer' : Typer} {ctx : Context} {s : Typing}
    (h : typer.Alike typer') (es : List Expr) :
    Alike typings s (TypingM.nodesOf typer ctx es) (TypingM.nodesOf typer' ctx es) := by
  cases es with
  | nil => exact .pure' _
  | cons e rest =>
    exact .bind' (alike_nodeOf h e) fun n _ => .bind' (alike_nodesOf h rest) fun ns _ => .pure' _

theorem alike_nodeOfOption {typer typer' : Typer} {ctx : Context} {s : Typing}
    (h : typer.Alike typer') (o : Option Expr) :
    Alike typings s (TypingM.nodeOfOption typer ctx o) (TypingM.nodeOfOption typer' ctx o) := by
  cases o with
  | none => exact .pure' _
  | some e => exact .bind' (alike_nodeOf h e) fun n _ => .pure' _

theorem alike_nodeOrNil {typer typer' : Typer} {ctx : Context} {s : Typing}
    (h : typer.Alike typer') (o : Option Expr) :
    Alike typings s (TypingM.nodeOrNil typer ctx o) (TypingM.nodeOrNil typer' ctx o) := by
  cases o with
  | none => exact alike_nil
  | some e => exact alike_nodeOf h e

theorem alike_blockOf {typer typer' : Typer} {ctx : Context} {s : Typing}
    (h : typer.Alike typer') (place : Place) (block : Option (List String × Expr)) :
    Alike typings s (TypingM.blockOf typer ctx place block)
      (TypingM.blockOf typer' ctx place block) := by
  cases block with
  | none => exact .pure' _
  | some block =>
    obtain ⟨names, body⟩ := block
    exact alike_inScope (.bind' (alike_blockParameters names) fun ns _ =>
      .bind' (alike_nodeOf h body) fun n _ => .pure' _)

theorem alike_typeElements {typer typer' : Typer} {ctx : Context} {s : Typing}
    (h : typer.Alike typer') (element : Node) (es : List Expr) :
    Alike typings s (TypingM.typeElements typer ctx element es)
      (TypingM.typeElements typer' ctx element es) := by
  cases es with
  | nil => exact .pure' _
  | cons e rest =>
    exact .bind' (alike_nodeOf h e) fun n _ => .bind' (alike_lift (alike_bind element n)) fun _ _ =>
      alike_typeElements h element rest

theorem alike_assignEach {typer typer' : Typer} {ctx : Context} {s : Typing} {mark : Mark}
    (h : typer.Alike typer') (targets : List Target) (es : List Expr) :
    Alike typings s (TypingM.assignEach typer ctx mark targets es)
      (TypingM.assignEach typer' ctx mark targets es) := by
  cases es with
  | nil =>
    unfold TypingM.assignEach
    exact alike_assignMissing h targets
  | cons e rest =>
    cases targets with
    | nil =>
      unfold TypingM.assignEach
      exact .bind' (alike_nodeOf h e) fun _ _ => alike_assignEach h [] rest
    | cons target targets =>
      cases target with
      | constant name =>
        unfold TypingM.assignEach
        exact .bind' (alike_lift (alike_constantFor h name e)) fun _ _ =>
          alike_assignEach h targets rest
      | localVar name =>
        unfold TypingM.assignEach
        exact .bind' (alike_nodeOf h e) fun n _ => .bind' (alike_assign _ n) fun _ _ =>
          alike_assignEach h targets rest
      | slot name =>
        unfold TypingM.assignEach
        exact .bind' (alike_nodeOf h e) fun n _ => .bind' (alike_assign _ n) fun _ _ =>
          alike_assignEach h targets rest

end

/-- Where bodies and constants may nest deeper, everything is typed alike. -/
theorem typerWithin_alike {depth depth' : Nat} (h : depth ≤ depth') :
    (TypingM.typerWithin depth).Alike (TypingM.typerWithin depth') := by
  induction depth generalizing depth' with
  | zero => exact fun _ _ _ => .cutOff rfl _
  | succ depth ih =>
    obtain ⟨depth', rfl⟩ : ∃ d, depth' = d + 1 := ⟨depth' - 1, by omega⟩
    exact fun _ _ e => alike_nodeOf (ih (Nat.le_of_succ_le_succ h)) e

end FlowTyping
