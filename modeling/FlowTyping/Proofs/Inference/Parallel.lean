import FlowTyping.Inference.Check
import FlowTyping.Proofs.Inference.Combinations
import FlowTyping.Proofs.Inference.Pairing
import FlowTyping.Proofs.Inference.Retarget

/-
  Calls in runs with other nodes

  From paired runs, resolving a call leads to paired runs, with nodes that
  correspond, or to one error in both: if the bodies of methods are typed so, an
  instance, a construction, the choice of what a call does and its new bindings
  are.
-/
namespace FlowTyping

open Steps Catalog

variable {σ : Renumbering} {ahead : Option Nat} {w v : Pairing} {n m d e : Node}
  {α α' : Type} {R : Pairing → α → α' → Prop} {place : Place}

/-- Typing with variables that correspond, in paired runs. -/
structure Typing.Paired (σ : Renumbering) (ahead : Option Nat) (w : Pairing) (s s' : Typing) :
    Prop where
  scopes : s.scopes.Paired w s'.scopes
  run : s.run.Paired σ ahead w s'.run

/-- Ways to type that treat paired runs alike where nothing is recorded. -/
def Typer.Mirrors (σ : Renumbering) (ahead : Option Nat) (typer : Typer) : Prop :=
  ∀ w ctx ctx' e, Context.Paired w ctx ctx' → ctx.records = false →
    Parallel (Typing.Paired σ ahead) Pairing.pairs w (typer ctx e) (typer ctx' e)

variable {typer : Typer} {ctx ctx' : Context} {mark : Mark} {active : List Frame} {site : Site}

/-! ## How steps are put together -/

theorem parallel_fail (e : TypingError) :
    Parallel (Run.Paired σ ahead) R w (RunM.fail e) (RunM.fail e) := .throw' _

theorem parallel_ofExcept {β : Type} (x : Except TypingError β) :
    Parallel (Run.Paired σ ahead) Same w (RunM.ofExcept x) (RunM.ofExcept x) := by
  cases x with
  | ok a => exact .pure' rfl
  | error e => exact .throw' _

theorem parallel_catalog {f : Catalog → RunM α} {f' : Catalog → RunM α'}
    (hf : ∀ r r', r.Paired σ ahead w r' →
      Ends (Run.Paired σ ahead) R w (f r.catalog r) (f' r'.catalog r')) :
    Parallel (Run.Paired σ ahead) R w (RunM.catalog >>= f) (RunM.catalog >>= f') := hf

theorem parallel_siteAt {f : CallSite → RunM α} {f' : CallSite → RunM α'}
    (hsite : site.index < w.sites)
    (hf : ∀ call call', call.Paired w call' →
      Parallel (Run.Paired σ ahead) R w (f call) (f' call')) :
    Parallel (Run.Paired σ ahead) R w (RunM.siteAt site >>= f) (RunM.siteAt site >>= f') :=
  fun r r' h => hf _ _ (h.site site hsite) r r' h

theorem parallel_lift {act : RunM α} {act' : RunM α'}
    (h : Parallel (Run.Paired σ ahead) R w act act') :
    Parallel (Typing.Paired σ ahead) R w (Typing.lift act) (Typing.lift act') := by
  intro s s' hs
  have hends := h _ _ hs.run
  unfold Typing.lift
  generalize act s.run = x at hends ⊢
  generalize act' s'.run = x' at hends ⊢
  cases hends with
  | ok hw hr ha => exact .ok hw ⟨hs.scopes.mono hw, hr⟩ ha
  | error e hw hr => exact .error e hw ⟨hs.scopes.mono hw, hr⟩

theorem parallel_liftCatalog {f : Catalog → TypingM α} {f' : Catalog → TypingM α'}
    (hf : ∀ s s', s.Paired σ ahead w s' →
      Ends (Typing.Paired σ ahead) R w (f s.run.catalog s) (f' s'.run.catalog s')) :
    Parallel (Typing.Paired σ ahead) R w (Typing.lift RunM.catalog >>= f)
      (Typing.lift RunM.catalog >>= f') := hf

theorem parallel_inFreshScopes {act : TypingM α} {act' : TypingM α'}
    (h : Parallel (Typing.Paired σ ahead) R w act act') :
    Parallel (Run.Paired σ ahead) R w (RunM.inFreshScopes act) (RunM.inFreshScopes act') := by
  intro r r' hr
  have hends := h ⟨.empty, r⟩ ⟨.empty, r'⟩ ⟨.empty, hr⟩
  unfold RunM.inFreshScopes
  generalize act ⟨.empty, r⟩ = x at hends ⊢
  generalize act' ⟨.empty, r'⟩ = x' at hends ⊢
  cases hends with
  | ok hw hs ha => exact .ok hw hs.run ha
  | error e hw hs => exact .error e hw hs.run

theorem parallel_inScope {act : TypingM α} {act' : TypingM α'}
    (h : Parallel (Typing.Paired σ ahead) R w act act') :
    Parallel (Typing.Paired σ ahead) R w (TypingM.inScope act) (TypingM.inScope act') := by
  intro s s' hs
  have hends := h ⟨s.scopes.push, s.run⟩ ⟨s'.scopes.push, s'.run⟩ ⟨hs.scopes.push, hs.run⟩
  unfold TypingM.inScope
  dsimp only
  generalize act ⟨s.scopes.push, s.run⟩ = x at hends ⊢
  generalize act' ⟨s'.scopes.push, s'.run⟩ = x' at hends ⊢
  cases hends with
  | ok hw hs ha => exact .ok hw ⟨hs.scopes.pop, hs.run⟩ ha
  | error e hw hs => exact .error e hw ⟨hs.scopes.pop, hs.run⟩

theorem parallel_framed (frame : Frame) {act : RunM α} {act' : RunM α'}
    (h : Parallel (Run.Paired σ ahead) R w act act') :
    Parallel (Run.Paired σ ahead) R w (RunM.framed frame act) (RunM.framed frame act') := by
  intro r r' hr
  have hends := h r r' hr
  unfold RunM.framed
  generalize act r = x at hends ⊢
  generalize act' r' = x' at hends ⊢
  cases hends with
  | ok hw hr ha => exact .ok hw hr ha
  | error e hw hr => cases e <;> exact .error _ hw hr

/-- A step on the stores of paired runs. -/
theorem parallel_onStore {R : α → α' → Prop} {act : StoreM α} {act' : StoreM α'}
    (h : Parallel (Store.StillPaired σ w) (fun _ => R) () act act') :
    Parallel (Run.Paired σ ahead) (fun _ => R) w (RunM.onStore act) (RunM.onStore act') := by
  intro r r' hr
  have hends := h _ _ hr.store
  unfold RunM.onStore
  generalize act r.store = x at hends ⊢
  generalize act' r'.store = x' at hends ⊢
  cases hends with
  | ok _ hs ha => exact .ok le_rfl (hr.restore hs) ha
  | error e _ hs => exact .error _ le_rfl (hr.restore hs)

/-! ## Nodes and bindings -/

theorem parallel_freshNode :
    Parallel (Run.Paired σ ahead) Pairing.pairs w (RunM.freshNode place) (RunM.freshNode place) :=
  .modifyGet' fun _ _ h => h.freshNode .plain place

theorem parallel_freshAddress :
    Parallel (Run.Paired σ ahead) Pairing.pairs w (RunM.freshAddress place)
      (RunM.freshAddress place) :=
  .modifyGet' fun _ _ h => h.freshNode .pointer place

theorem parallel_sharedNode (t : Ty) :
    Parallel (Run.Paired σ ahead) Pairing.pairs w (RunM.sharedNode t) (RunM.sharedNode t) :=
  .modifyGet' fun _ _ h => h.sharedNode t

theorem parallel_sharedNil :
    Parallel (Run.Paired σ ahead) Pairing.pairs w RunM.sharedNil RunM.sharedNil :=
  parallel_sharedNode .nil

theorem parallel_slotNode (owner : Ty) (name : String) :
    Parallel (Run.Paired σ ahead) Pairing.pairs w (RunM.slotNode owner name)
      (RunM.slotNode owner name) :=
  .modifyGet' fun _ _ h => h.slotNode owner name

theorem parallel_bind (hn : w.pairs n m) (hd : w.pairs d e) :
    Parallel (Run.Paired σ ahead) Same w (RunM.bind n d) (RunM.bind m e) :=
  .modify' fun _ _ h => h.bind hn hd

/-- Bindings of one node to others. -/
theorem parallel_bindAll {ds es : List Node} (hn : w.pairs n m) (h : List.Forall₂ w.pairs ds es) :
    Parallel (Run.Paired σ ahead) Same w (ds.forM (RunM.bind n)) (es.forM (RunM.bind m)) := by
  induction ds generalizing w es with
  | nil =>
    cases h
    exact .pure' rfl
  | cons d ds ih =>
    cases h with
    | cons hd hds =>
      exact (parallel_bind hn hd).bind' fun v _ _ hv _ => ih (hv.1 _ _ hn) (hds.imp hv.1)

theorem parallel_install {template : Ty} {observed observed' : List (String × Node)}
    {holder holder' : Node} (ho : Store.Paired.Observed w observed observed')
    (hholder : w.pairs holder holder') :
    Parallel (Run.Paired σ ahead) Same w
      (RunM.onStore (Store.install template observed holder))
      (RunM.onStore (Store.install template observed' holder')) :=
  parallel_onStore (Store.Paired.install template ho hholder)

/-! ## Constants and paths -/

theorem lookUp_outline (c : Catalog) (path : List String) (scope : Ty) (what : Sought)
    (place : Place) : c.outline.lookUp path scope what place = c.lookUp path scope what place := by
  rw [lookUp, lookUp, find_outline]

theorem writtenType_outline (c : Catalog) (written : TypeName) (scope : Ty) (receiver : Option Ty)
    (place : Place) :
    c.outline.writtenType written scope receiver place =
      c.writtenType written scope receiver place := by
  unfold writtenType
  cases written with
  | path names => exact lookUp_outline c names scope .constant place
  | receiver => cases receiver <;> rfl

theorem declared_outline (c : Catalog) (scope : Ty) (name : String) :
    c.outline.declared scope name = c.declared scope name := by
  rw [declared, declared, nestedType_outline]

theorem parallel_constantNode (h : typer.Mirrors σ ahead) (t : Ty) :
    Parallel (Run.Paired σ ahead) Pairing.pairs w (RunM.constantNode typer active t)
      (RunM.constantNode typer active t) := by
  unfold RunM.constantNode
  refine .get' fun r r' hr => ?_
  have hknown := hr.constantNodes.get? Function.injective_id t
  rw [id] at hknown
  generalize r.constantNodes.get? t = a at hknown ⊢
  generalize r'.constantNodes.get? t = b at hknown ⊢
  cases hknown with
  | some hn => exact Parallel.pure' hn r r' hr
  | none =>
    refine parallel_catalog (fun r r' hr => ?_) r r' hr
    have hshown : r'.catalog.display t = r.catalog.display t :=
      hr.read (f := fun c => c.display t) fun c => display_outline c t
    rcases hr.catalog.shape_cases t with ⟨p, q, hp, hq, -⟩ | ⟨-, hsame⟩
    · rw [hp, hq, hshown]
      exact parallel_fail _ r r' hr
    · rw [hsame, hshown]
      cases r.catalog.shape t with
      | constant name container value =>
        refine Parallel.bind' parallel_freshNode (fun v₁ n m _ hn => ?_) r r' hr
        refine .bind' (.modify' fun _ _ h => h.putConstant t hn) fun v₂ _ _ hv₂ _ => ?_
        refine .bind' (parallel_inFreshScopes (h _ _ _ _ (.outside _ _ _ _) rfl))
          fun v₃ d e hv₃ hd => ?_
        have hn := hv₃.1 _ _ (hv₂.1 _ _ hn)
        exact .bind' (parallel_bind hn hd) fun v₄ _ _ hv₄ _ => .pure' (hv₄.1 _ _ hn)
      | _ => exact parallel_fail _ r r' hr

theorem parallel_constantFor (h : typer.Mirrors σ ahead) (hctx : ctx.Paired w ctx')
    (name : String) (value : Expr) :
    Parallel (Run.Paired σ ahead) Pairing.pairs w (RunM.constantFor typer ctx name value)
      (RunM.constantFor typer ctx' name value) := by
  unfold RunM.constantFor
  refine parallel_catalog fun r r' hr => ?_
  rw [hctx.home, hctx.active, hr.read (f := fun c => c.nestedType ctx.home name)
    fun c => nestedType_outline c ctx.home name]
  cases r.catalog.nestedType ctx.home name with
  | some known =>
    refine Parallel.bind' (.pure' (R := Same) rfl) (fun v t t' _ ht => ?_) r r' hr
    obtain rfl : t = t' := ht
    exact parallel_constantNode h t
  | none =>
    refine Parallel.bind' (R := Same) (.modifyGet' fun r r' hr => ?_) (fun v t t' _ ht => ?_)
      r r' hr
    · obtain ⟨hsame, hc⟩ := hr.catalog.newConstant name value ctx.home
      exact ⟨w, le_rfl, hr.restore ⟨hc, hr.graph⟩, hsame.symm⟩
    · obtain rfl : t = t' := ht
      exact parallel_constantNode h t

theorem parallel_pathNode (h : typer.Mirrors σ ahead) (hctx : ctx.Paired w ctx')
    (path : List String) :
    Parallel (Run.Paired σ ahead) Pairing.pairs w (RunM.pathNode typer ctx path place)
      (RunM.pathNode typer ctx' path place) := by
  unfold RunM.pathNode
  refine parallel_catalog fun r r' hr => ?_
  rw [hctx.home, hctx.active, hr.read (f := fun c => c.lookUp path ctx.home .constant place)
    fun c => lookUp_outline c path ctx.home .constant place]
  -- the type that is found is looked at in the catalogs from before
  have hmeta := fun t => hr.read (f := fun c => c.metaclass? t) fun c => metaclass?_outline c t
  have hshape := fun t => hr.catalog.shape_cases t
  generalize r.catalog = c at hmeta hshape ⊢
  generalize r'.catalog = c' at hmeta hshape ⊢
  refine Parallel.bind' (parallel_ofExcept _) (fun v t t' _ ht => ?_) r r' hr
  obtain rfl : t = t' := ht
  rw [hmeta]
  generalize c.metaclass? t = made
  have valued : Parallel (Run.Paired σ ahead) Pairing.pairs v
      (made.elim (RunM.fail (.unresolved .constant path place)) RunM.sharedNode)
      (made.elim (RunM.fail (.unresolved .constant path place)) RunM.sharedNode) := by
    cases made with
    | some metaclass => exact parallel_sharedNode metaclass
    | none => exact parallel_fail _
  rcases hshape t with ⟨p, q, hp, hq, -⟩ | ⟨-, hsame⟩
  · rw [hp, hq]
    cases made <;> exact valued
  · rw [hsame]
    cases c.shape t with
    | constant => exact parallel_constantNode h t
    | _ => cases made <;> exact valued

/-! ## Slots, joins, arrays and blocks -/

theorem parallel_readSlot (owner : Ty) (name : String) :
    Parallel (Run.Paired σ ahead) Pairing.pairs w (RunM.readSlot owner name place)
      (RunM.readSlot owner name place) :=
  .bind' (.modify' fun _ _ h => h.putSlotRead _) fun _ _ _ _ _ => parallel_slotNode owner name

theorem parallel_joinNode {ds es : List Node} (h : List.Forall₂ w.pairs ds es) :
    Parallel (Run.Paired σ ahead) Pairing.pairs w (RunM.joinNode place ds)
      (RunM.joinNode place es) :=
  .bind' parallel_freshNode fun _ _ _ hv hn =>
    .bind' (parallel_bindAll hn (h.imp hv.1)) fun _ _ _ hu _ => .pure' (hu.1 _ _ hn)

theorem parallel_arrayNode (hd : w.pairs d e) :
    Parallel (Run.Paired σ ahead) Pairing.pairs w (RunM.arrayNode place d)
      (RunM.arrayNode place e) := by
  refine .bind' parallel_freshAddress fun v₁ buffer buffer' hv₁ hbuffer => ?_
  refine .bind' (parallel_bind hbuffer (hv₁.1 _ _ hd)) fun v₂ _ _ hv₂ _ => ?_
  refine .bind' parallel_freshNode fun v₃ holder holder' hv₃ hholder => ?_
  refine .bind' (.discard' (parallel_install
    (.cons ⟨rfl, hv₃.1 _ _ (hv₂.1 _ _ hbuffer)⟩ .nil) hholder)) fun v₄ _ _ hv₄ _ => ?_
  exact .pure' (hv₄.1 _ _ hholder)

theorem parallel_bindBlock {parameters parameters' arguments arguments' : List Node}
    (hp : List.Forall₂ w.pairs parameters parameters')
    (ha : List.Forall₂ w.pairs arguments arguments') :
    Parallel (Run.Paired σ ahead) Same w (RunM.bindBlock parameters arguments)
      (RunM.bindBlock parameters' arguments') := by
  induction parameters generalizing w parameters' arguments arguments' with
  | nil =>
    cases hp
    exact .pure' rfl
  | cons p ps ih =>
    cases hp with
    | cons hp hps =>
      unfold RunM.bindBlock
      cases ha with
      | nil =>
        refine .bind' parallel_sharedNil fun v n m hv hn => ?_
        refine .bind' (parallel_bind (hv.1 _ _ hp) hn) fun u _ _ hu _ => ih ?_ .nil
        exact hps.imp (le_trans hv hu).1
      | cons hn hns =>
        refine .bind' (.pure' hn) fun v n m hv hn => ?_
        refine .bind' (parallel_bind (hv.1 _ _ hp) hn) fun u _ _ hu _ => ih ?_ ?_
        · exact hps.imp (le_trans hv hu).1
        · exact hns.imp (le_trans hv hu).1

/-! ## Calls -/

theorem isSome_of_rel {α β : Type} {R : α → β → Prop} {a : Option α} {b : Option β}
    (h : Option.Rel R a b) : b.isSome = a.isSome := by
  cases h <;> rfl

theorem parallel_define (name : String) (hn : w.pairs n m) :
    Parallel (Typing.Paired σ ahead) Same w
      (modify fun s => { s with scopes := s.scopes.define name n } : TypingM Unit)
      (modify fun s => { s with scopes := s.scopes.define name m }) :=
  .modify' fun _ _ h => ⟨h.scopes.define name hn, h.run⟩

theorem parallel_typeParameters (h : typer.Mirrors σ ahead) (hctx : ctx.Paired w ctx')
    (hrecords : ctx.records = false) (ps : List Parameter) (arguments : List Ty) :
    Parallel (Typing.Paired σ ahead) Same w (RunM.typeParameters typer ctx place ps arguments)
      (RunM.typeParameters typer ctx' place ps arguments) := by
  induction ps generalizing w arguments with
  | nil => exact .pure' rfl
  | cons p ps ih =>
    -- whatever the value is, it is bound to a new variable
    have named : ∀ v d e, w ≤ v → v.pairs d e → Parallel (Typing.Paired σ ahead) Same v (do
          let var ← RunM.freshNode place
          RunM.bind var d
          modify fun s => { s with scopes := s.scopes.define p.name var }
          RunM.typeParameters typer ctx place ps arguments.tail) (do
          let var ← RunM.freshNode place
          RunM.bind var e
          modify fun s => { s with scopes := s.scopes.define p.name var }
          RunM.typeParameters typer ctx' place ps arguments.tail) := fun v d e hv hd => by
      refine .bind' (parallel_lift parallel_freshNode) fun v₁ n m hv₁ hn => ?_
      refine .bind' (parallel_lift (parallel_bind hn (hv₁.1 _ _ hd))) fun v₂ _ _ hv₂ _ => ?_
      refine .bind' (parallel_define p.name (hv₂.1 _ _ hn)) fun v₃ _ _ hv₃ _ => ?_
      exact ih (hctx.mono (le_trans hv (le_trans hv₁ (le_trans hv₂ hv₃)))) _
    unfold RunM.typeParameters
    cases arguments with
    | cons t ts => exact .bind' (parallel_lift (parallel_sharedNode t)) named
    | nil =>
      cases p.fallback with
      | some fallback => exact .bind' (h _ _ _ _ hctx hrecords) named
      | none => exact .bind' (parallel_lift (parallel_fail (R := Pairing.pairs) _)) named

theorem parallel_typeBody (h : typer.Mirrors σ ahead) (owner : Ty) (method : Method) (body : Expr)
    (arguments : List Ty) {flow flow' : BodyFlow} (hflow : flow.Paired w flow') :
    Parallel (Run.Paired σ ahead) Same w
      (RunM.typeBody typer owner method body arguments flow active)
      (RunM.typeBody typer owner method body arguments flow' active) := by
  unfold RunM.typeBody
  refine parallel_catalog fun r r' hr => ?_
  rw [hr.read (f := fun c => c.subject method.owner) fun c => subject_outline c method.owner]
  generalize r.catalog.subject method.owner = home
  have hctx : Context.Paired w ⟨owner, home, some flow, false, active⟩
      ⟨owner, home, some flow', false, active⟩ := ⟨rfl, rfl, .some hflow, rfl, rfl⟩
  refine parallel_inFreshScopes ?_ r r' hr
  refine .bind' (parallel_typeParameters h hctx rfl _ _) fun v₁ _ _ hv₁ _ => ?_
  refine .bind' (h _ _ _ _ (hctx.mono hv₁) rfl) fun v₂ d e hv₂ hd => ?_
  exact parallel_lift (parallel_bind ((le_trans hv₁ hv₂).1 _ _ hflow.result) hd)

theorem parallel_instantiateMethod (h : typer.Mirrors σ ahead) (hsite : site.index < w.sites)
    (owner : Ty) (id : MethodHandle) (arguments : List Ty) :
    Parallel (Run.Paired σ ahead) Pairing.pairs w
      (RunM.instantiateMethod typer active site owner id arguments)
      (RunM.instantiateMethod typer active site owner (σ id) arguments) := by
  unfold RunM.instantiateMethod
  refine parallel_siteAt hsite fun call call' hcall => .get' fun r r' hr => ?_
  have hown : (call'.block.map fun _ => site) = call.block.map fun _ => site := by
    have hblock := hcall.block
    generalize call.block = b at hblock ⊢
    generalize call'.block = b' at hblock ⊢
    cases hblock <;> rfl
  rw [hown, hcall.place]
  generalize call.block.map (fun _ => site) = own
  -- the instance is looked up under its key with the other handle
  have hkey : (⟨owner, σ id, arguments, own⟩ : Invocation) =
      Invocation.renumber σ ⟨owner, id, arguments, own⟩ := rfl
  have hknown := hr.results.get? (Invocation.renumber_injective σ) ⟨owner, id, arguments, own⟩
  dsimp only
  rw [hkey]
  generalize (⟨owner, id, arguments, own⟩ : Invocation) = key at hknown ⊢
  generalize r.results.get? key = a at hknown ⊢
  generalize r'.results.get? (key.renumber σ) = b at hknown ⊢
  cases hknown with
  | some hn => exact Parallel.pure' hn r r' hr
  | none =>
    refine parallel_catalog (fun r r' hr => ?_) r r' hr
    have hmethod := hr.catalog.renumbers.method id
    rw [hmethod]
    generalize r.catalog.method id = method
    rw [hr.read (f := fun c => c.instanceText owner method.name arguments)
      fun c => instanceText_outline c owner method.name arguments]
    cases method.body with
    | builtin builtin =>
      dsimp only
      rw [hr.read (f := fun c => c.builtinType owner method.name builtin arguments call.place)
        fun c => builtinType_outline c owner method.name builtin arguments call.place]
      refine Parallel.bind' (parallel_ofExcept _) (fun v₁ t t' _ ht => ?_) r r' hr
      obtain rfl : t = t' := ht
      refine .bind' (parallel_sharedNode t) fun v₂ n m _ hn => ?_
      refine .bind' (.modify' fun _ _ h => h.putResult key hn) fun v₃ _ _ hv₃ _ => ?_
      exact .pure' (hv₃.1 _ _ hn)
    | code body =>
      dsimp only
      refine Parallel.bind' parallel_freshNode (fun v₁ n m hv₁ hn => ?_) r r' hr
      refine .bind' (.modify' fun _ _ h => (h.putResult key hn).putInstance _ hn)
        fun v₂ _ _ hv₂ _ => ?_
      have hflow : BodyFlow.Paired v₂ ⟨n, call.block⟩ ⟨m, call'.block⟩ :=
        ⟨hv₂.1 _ _ hn, rel_mono (fun _ _ h => h.mono (le_trans hv₁ hv₂)) hcall.block⟩
      refine .bind' (parallel_framed _ (parallel_typeBody h _ _ _ _ hflow)) fun v₃ _ _ hv₃ _ => ?_
      exact .pure' (hv₃.1 _ _ hflow.result)

theorem parallel_runInitializer (h : typer.Mirrors σ ahead) (hsite : site.index < w.sites)
    (owner : Ty) (arguments : List Ty) :
    Parallel (Run.Paired σ ahead) Same w (RunM.runInitializer typer active site owner arguments)
      (RunM.runInitializer typer active site owner arguments) := by
  unfold RunM.runInitializer
  refine parallel_siteAt hsite fun call call' hcall => parallel_catalog fun r r' hr => ?_
  rw [isSome_of_rel hcall.block, hcall.place, hr.catalog.renumbers.select]
  cases r.catalog.select owner ⟨"initialize", arguments, call.block.isSome, owner⟩ with
  | ok id => exact Parallel.discard' (parallel_instantiateMethod h hsite owner id arguments) r r' hr
  | error miss =>
    dsimp only [Renumbering.verdict]
    simp only [σ.miss_eq_undefined_iff]
    rw [hr.catalog.renumbers.missError]
    split
    · exact Parallel.pure' rfl r r' hr
    · exact parallel_fail _ r r' hr

/-- The instance variables of a type have nodes that correspond. -/
theorem observed_slotNodesOf {r r' : Run} (h : r.Paired σ ahead w r') (owner : Ty) :
    Store.Paired.Observed w (RunM.slotNodesOf r owner) (RunM.slotNodesOf r' owner) := by
  have hslots := h.slotNodes
  unfold Table.Paired at hslots
  unfold RunM.slotNodesOf
  generalize r.slotNodes.entries = l at hslots ⊢
  generalize r'.slotNodes.entries = l' at hslots ⊢
  induction hslots with
  | nil => exact .nil
  | @cons a b as bs hab _ ih =>
    obtain ⟨⟨t, name⟩, x⟩ := a
    obtain ⟨key, y⟩ := b
    obtain ⟨rfl, hxy⟩ := hab
    rw [List.filterMap_cons, List.filterMap_cons]
    dsimp only [id]
    by_cases ht : t = owner
    · rw [if_pos ht, if_pos ht]
      exact .cons ⟨rfl, hxy⟩ ih
    · rw [if_neg ht, if_neg ht]
      exact ih

theorem parallel_construct (h : typer.Mirrors σ ahead) (hsite : site.index < w.sites) (t : Ty)
    (arguments : List Ty) :
    Parallel (Run.Paired σ ahead) Pairing.pairs w (RunM.construct typer active site t arguments)
      (RunM.construct typer active site t arguments) := by
  unfold RunM.construct
  refine parallel_catalog fun r r' hr => ?_
  rw [hr.read (f := fun c => c.isGeneric t) fun c => isGeneric_outline c t]
  cases r.catalog.isGeneric t with
  | false =>
    refine Parallel.bind' (parallel_runInitializer h hsite t arguments) (fun v _ _ _ _ => ?_)
      r r' hr
    exact parallel_sharedNode t
  | true =>
    refine Parallel.get' (fun r r' hr => ?_) r r' hr
    have hknown := hr.constructions.get? Function.injective_id (site, arguments)
    rw [id] at hknown
    generalize r.constructions.get? (site, arguments) = a at hknown ⊢
    generalize r'.constructions.get? (site, arguments) = b at hknown ⊢
    cases hknown with
    | some hn => exact Parallel.pure' hn r r' hr
    | none =>
      refine parallel_siteAt hsite (fun call call' hcall => ?_) r r' hr
      rw [hcall.place]
      refine .bind' parallel_freshNode fun v₁ n m hv₁ hn => ?_
      refine .bind' (.modify' fun _ _ h => h.putConstruction _ hn) fun v₂ _ _ hv₂ _ => ?_
      refine .bind' (R := Same) (.modifyGet' fun r r' hr => ?_) fun v₃ own own' hv₃ hown => ?_
      · obtain ⟨hsame, hc⟩ := hr.catalog.specialize t []
        exact ⟨v₂, le_rfl, hr.restore ⟨hc, hr.graph⟩, hsame.symm⟩
      · obtain rfl : own = own' := hown
        have hle := le_trans hv₁ (le_trans hv₂ hv₃)
        refine .bind' (parallel_runInitializer h (Nat.lt_of_lt_of_le hsite hle.2) own arguments)
          fun v₄ _ _ hv₄ _ => .get' fun r r' hr => ?_
        have hn := (le_trans hv₂ (le_trans hv₃ hv₄)).1 _ _ hn
        refine Parallel.bind' (.discard' (parallel_install (observed_slotNodesOf hr own) hn))
          (fun v₅ _ _ hv₅ _ => ?_) r r' hr
        exact .pure' (hv₅.1 _ _ hn)

theorem parallel_dispatch (h : typer.Mirrors σ ahead) (hsite : site.index < w.sites) (owner : Ty)
    (arguments : List Ty) :
    Parallel (Run.Paired σ ahead) Pairing.pairs w (RunM.dispatch typer active site owner arguments)
      (RunM.dispatch typer active site owner arguments) := by
  unfold RunM.dispatch
  refine parallel_siteAt hsite fun call call' hcall => parallel_catalog fun r r' hr => ?_
  have hreceiver : call'.receiver.isNone = call.receiver.isNone := by
    rw [← Option.not_isSome, ← Option.not_isSome, isSome_of_rel hcall.receiver]
  rw [hr.catalog.renumbers.dispatch hcall.name (isSome_of_rel hcall.block) hreceiver, hcall.name,
    hcall.place]
  cases r.catalog.dispatch call owner arguments with
  | method owner id => exact parallel_instantiateMethod h hsite owner id arguments r r' hr
  | construct t => exact parallel_construct h hsite t arguments r r' hr
  | miss miss =>
    dsimp only [Renumbering.dispatch]
    rw [hr.catalog.renumbers.missError]
    exact parallel_fail _ r r' hr

theorem parallel_dispatchAll (h : typer.Mirrors σ ahead) (hsite : site.index < w.sites)
    (combinations : List (Ty × List Ty)) {targets targets' : List Node}
    (htargets : List.Forall₂ w.pairs targets targets') :
    Parallel (Run.Paired σ ahead) (fun v => List.Forall₂ v.pairs) w
      (RunM.dispatchAll typer active site combinations targets)
      (RunM.dispatchAll typer active site combinations targets') := by
  induction combinations generalizing w targets targets' with
  | nil => exact .pure' htargets
  | cons combination rest ih =>
    refine .bind' (parallel_dispatch h hsite _ _) fun v n m hv hn r r' hr => ?_
    exact ih (Nat.lt_of_lt_of_le hsite hv.2)
      (forall₂_addOnce hr.graph.one hn (htargets.imp hv.1)) r r' hr

/-- A call has the same combinations of types in paired runs. -/
theorem combinations_paired {r r' : Run} (h : r.Paired σ ahead w r') {call call' : CallSite}
    (hcall : call.Paired w call') : r'.combinations call' = r.combinations call := by
  have htype : ∀ {n m : Node}, w.pairs n m →
      (r'.graph.typeAt m).map r'.catalog.members = (r.graph.typeAt n).map r.catalog.members :=
    fun hn => by
      rw [h.graph.typeAt hn, h.read (f := fun c => c.members) fun c => funext (members_outline c)]
  have harguments : (call'.arguments.mapM fun n => (r'.graph.typeAt n).map r'.catalog.members) =
      call.arguments.mapM fun n => (r.graph.typeAt n).map r.catalog.members := by
    have hlist := hcall.arguments
    generalize call.arguments = l at hlist ⊢
    generalize call'.arguments = l' at hlist ⊢
    induction hlist with
    | nil => rfl
    | cons hn _ ih => rw [List.mapM_cons, List.mapM_cons, htype hn, ih]
  have hreceiver := hcall.receiver
  unfold Run.combinations
  rw [harguments, hcall.caller]
  generalize call.receiver = a at hreceiver ⊢
  generalize call'.receiver = b at hreceiver ⊢
  cases hreceiver with
  | none => rfl
  | some hn =>
    dsimp only
    rw [htype hn]

/-- The targets of a call that are no others, in both runs. -/
theorem forall₂_without (hone : Relator.BiUnique w.pairs) {ns ms ks ls : List Node}
    (hns : List.Forall₂ w.pairs ns ms) (hks : List.Forall₂ w.pairs ks ls) :
    List.Forall₂ w.pairs (ns.filter fun n => !ks.contains n) (ms.filter fun m => !ls.contains m) :=
  List.rel_filter (fun n m hn => by
    show (!ks.contains n) = true ↔ (!ls.contains m) = true
    rw [forall₂_contains hone hn hks]) hns

theorem retarget_paired {r r' : Run} (h : r.Paired σ ahead w r') (hsite : site.index < w.sites)
    {targets targets' : List Node} (htargets : List.Forall₂ w.pairs targets targets') :
    (RunM.retarget r site targets).Paired σ ahead w (RunM.retarget r' site targets') := by
  have hcall := h.site site hsite
  have hunbound := List.rel_foldl (P := Run.Paired σ ahead w) (R := w.pairs)
    (fun _ _ hr _ _ hn => hr.unbind hcall.result hn) h
    (forall₂_without h.graph.one hcall.targets htargets)
  have hbound := List.rel_foldl (P := Run.Paired σ ahead w) (R := w.pairs)
    (fun _ _ hr _ _ hn => hr.bind hcall.result hn) hunbound
    (forall₂_without h.graph.one htargets hcall.targets)
  unfold RunM.retarget
  dsimp only
  refine { hbound with
    count := by rw [Array.size_modify]; exact hbound.count
    size := by rw [Array.size_modify, Array.size_modify]; exact hbound.size
    site := fun s hs => ?_ }
  rw [Run.site_modify, Run.site_modify, hbound.size]
  have hsites := hbound.site s hs
  split
  · have hchanged := hbound.site site hsite
    exact { hchanged with targets := htargets }
  · exact hsites

theorem parallel_rebindCall (h : typer.Mirrors σ ahead) (hsite : site.index < w.sites) :
    Parallel (Run.Paired σ ahead) Same w (RunM.rebindCall typer active site)
      (RunM.rebindCall typer active site) := by
  unfold RunM.rebindCall
  refine .get' fun r r' hr => ?_
  rw [combinations_paired hr (hr.site site hsite)]
  cases r.combinations (r.site site) with
  | none => exact Parallel.pure' rfl r r' hr
  | some combinations =>
    refine Parallel.bind' (parallel_dispatchAll h hsite combinations .nil)
      (fun v targets targets' hv htargets => ?_) r r' hr
    exact .modify' fun _ _ hr => retarget_paired hr (Nat.lt_of_lt_of_le hsite hv.2) htargets

/-- A call site that is added in both runs. -/
theorem Run.Paired.enterSite {r r' : Run} (h : r.Paired σ ahead w r') {call call' : CallSite}
    (hcall : call.Paired w call') :
    (r.enterSite call).Paired σ ahead w.addSite (r'.enterSite call') := by
  have hle := w.le_addSite
  have hwatched : List.Forall₂ w.pairs call.watched call'.watched := by
    refine List.rel_append ?_ hcall.arguments
    have hreceiver := hcall.receiver
    generalize call.receiver = a at hreceiver ⊢
    generalize call'.receiver = b at hreceiver ⊢
    cases hreceiver with
    | none => exact .nil
    | some hn => exact .cons hn .nil
  have hsize : r'.sites.size = w.sites := h.size.trans h.count.symm
  have hgraph := List.rel_foldl (P := Graph.Paired w.addSite) (R := w.pairs)
    (fun _ _ hg _ _ hn => hg.watch hn (.site ⟨w.sites⟩ (Nat.lt_succ_self w.sites)))
    h.graph.addSite hwatched
  refine
    { toRemembers := { h.toRemembers.mono hle with }
      store := ?_
      count := ?_
      size := ?_
      site := fun s hs => ?_
      sharedNodes := fun t => (h.sharedNodes t).mono hle fun _ => rfl
      recorded := h.recorded
      noted := h.noted
      distinct := h.distinct }
  · unfold Run.enterSite watchFor
    rw [hsize, ← h.count]
    exact h.store.grow hle hgraph
  · unfold Run.enterSite
    rw [Array.size_push, ← h.count]
    rfl
  · unfold Run.enterSite
    rw [Array.size_push, Array.size_push, h.size]
  · rcases Run.lt_or_eq_last hs with hs | rfl
    · rw [Run.site_enterSite_old r call (h.count ▸ hs),
        Run.site_enterSite_old r' call' (hsize ▸ hs)]
      exact (h.site s hs).mono hle
    · rw [show (⟨w.sites⟩ : Site) = ⟨r.sites.size⟩ by rw [h.count], Run.site_enterSite_new,
        ← h.size, Run.site_enterSite_new]
      exact hcall.mono hle

theorem parallel_enterCall (h : typer.Mirrors σ ahead) {call call' : CallSite}
    (hcall : call.Paired w call') :
    Parallel (Run.Paired σ ahead) Same w (RunM.enterCall typer call)
      (RunM.enterCall typer call') := by
  unfold RunM.enterCall
  refine .bind' (R := fun v s s' => s = s' ∧ s.index < v.sites) (.modifyGet' fun r r' hr => ?_)
    fun v s s' hv hs => ?_
  · refine ⟨w.addSite, w.le_addSite, hr.enterSite hcall, congrArg Site.mk hr.size.symm, ?_⟩
    exact hr.count ▸ Nat.lt_succ_self w.sites
  · obtain ⟨rfl, hs⟩ := hs
    rw [hcall.frames]
    exact parallel_rebindCall h hs

end FlowTyping
