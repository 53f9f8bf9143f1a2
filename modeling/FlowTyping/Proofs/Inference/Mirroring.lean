import FlowTyping.Proofs.Inference.Parallel

/-
  Typing in runs with other nodes

  From paired runs, typing an expression leads to paired runs, with nodes that
  correspond, or to one error in both (`parallel_nodeOf`), and so does settling
  (`parallel_settle`). Only what the second run is ahead by must not be recorded
  in between.
-/
namespace FlowTyping

open Steps Catalog

variable {σ : Renumbering} {ahead : Option Nat} {w v : Pairing} {n m d e : Node}
  {α α' : Type} {R : Pairing → α → α' → Prop} {place : Place}
  {typer : Typer} {ctx ctx' : Context} {mark : Mark} {site : Site}

/-! ## Local variables, results and declarations -/

/-- The last nodes of lists correspond. -/
theorem rel_getLast? {ns ms : List Node} (h : List.Forall₂ w.pairs ns ms) :
    Option.Rel w.pairs ns.getLast? ms.getLast? := by
  induction h with
  | nil => exact .none
  | cons hn hrest ih =>
    rw [List.getLast?_cons, List.getLast?_cons]
    cases hrest with
    | nil => exact .some hn
    | cons _ _ =>
      rw [List.getLast?_cons, List.getLast?_cons] at ih ⊢
      exact ih

theorem parallel_readVariable (name : String) :
    Parallel (Typing.Paired σ ahead) Pairing.pairs w (TypingM.readVariable name place)
      (TypingM.readVariable name place) := by
  unfold TypingM.readVariable
  refine .get' fun s s' hs => ?_
  have hfound := hs.scopes.find name
  generalize s.scopes.find name = a at hfound ⊢
  generalize s'.scopes.find name = b at hfound ⊢
  cases hfound with
  | some hn => exact Parallel.pure' hn s s' hs
  | none => exact parallel_lift (parallel_fail _) s s' hs

theorem parallel_writtenVariable (name : String) :
    Parallel (Typing.Paired σ ahead) Pairing.pairs w (TypingM.writtenVariable name)
      (TypingM.writtenVariable name) := by
  unfold TypingM.writtenVariable
  refine .get' fun s s' hs => ?_
  have hfound := hs.scopes.find name
  generalize s.scopes.find name = a at hfound ⊢
  generalize s'.scopes.find name = b at hfound ⊢
  cases hfound with
  | some hn => exact Parallel.pure' hn s s' hs
  | none =>
    refine Parallel.bind' (parallel_lift parallel_freshNode) (fun v n m _ hn => ?_) s s' hs
    exact .bind' (parallel_define name hn) fun u _ _ hu _ => .pure' (hu.1 _ _ hn)

theorem parallel_assign (hctx : ctx.Paired w ctx') (target : Target) (hd : w.pairs d e) :
    Parallel (Typing.Paired σ ahead) Same w (TypingM.assign ctx target d)
      (TypingM.assign ctx' target e) := by
  unfold TypingM.assign
  cases target with
  | localVar name =>
    exact .bind' (parallel_writtenVariable name) fun v _ _ hv hn =>
      parallel_lift (parallel_bind hn (hv.1 _ _ hd))
  | slot name =>
    dsimp only
    rw [hctx.receiver]
    exact .bind' (parallel_lift (parallel_slotNode _ _)) fun v _ _ hv hn =>
      parallel_lift (parallel_bind hn (hv.1 _ _ hd))
  | constant name => exact .pure' rfl

theorem parallel_nil :
    Parallel (Typing.Paired σ ahead) Pairing.pairs w (Typing.lift RunM.sharedNil)
      (Typing.lift RunM.sharedNil) :=
  parallel_lift parallel_sharedNil

theorem parallel_assignMissing (h : typer.Mirrors σ ahead) (hctx : ctx.Paired w ctx')
    (targets : List Target) :
    Parallel (Typing.Paired σ ahead) Same w (TypingM.assignMissing typer ctx mark targets)
      (TypingM.assignMissing typer ctx' mark targets) := by
  induction targets generalizing w with
  | nil => exact .pure' rfl
  | cons target targets ih =>
    have assigned : ∀ target, Parallel (Typing.Paired σ ahead) Same w (do
          TypingM.assign ctx target (← RunM.sharedNil)
          TypingM.assignMissing typer ctx mark targets) (do
          TypingM.assign ctx' target (← RunM.sharedNil)
          TypingM.assignMissing typer ctx' mark targets) := fun target =>
      .bind' parallel_nil fun v _ _ hv hn =>
        .bind' (parallel_assign (hctx.mono hv) target hn) fun u _ _ hu _ =>
          ih (hctx.mono (le_trans hv hu))
    cases target with
    | constant name =>
      exact .bind' (.discard' (parallel_lift (parallel_constantFor h hctx name _)))
        fun v _ _ hv _ => ih (hctx.mono hv)
    | localVar name => exact assigned (.localVar name)
    | slot name => exact assigned (.slot name)

theorem parallel_blockParameters (names : List String) :
    Parallel (Typing.Paired σ ahead) (fun v => List.Forall₂ v.pairs) w
      (TypingM.blockParameters place names) (TypingM.blockParameters place names) := by
  induction names generalizing w with
  | nil => exact .pure' .nil
  | cons name names ih =>
    refine .bind' (parallel_lift parallel_freshNode) fun v₁ n m _ hn => ?_
    refine .bind' (parallel_define name hn) fun v₂ _ _ hv₂ _ => ?_
    exact .bind' ih fun v₃ _ _ hv₃ hns => .pure' (.cons ((le_trans hv₂ hv₃).1 _ _ hn) hns)

/-- The second run is ahead by none of these numbers, if they are recorded. -/
def Unrecorded (ahead : Option Nat) (ctx : Context) (ids : List Nat) : Prop :=
  ctx.records = true → ∀ id ∈ ids, ahead ≠ some id

theorem unrecorded_cons {id : Nat} {ids : List Nat} :
    Unrecorded ahead ctx (id :: ids) ↔ Unrecorded ahead ctx [id] ∧ Unrecorded ahead ctx ids := by
  unfold Unrecorded
  simp only [List.forall_mem_cons, List.not_mem_nil, false_imp_iff, implies_true, and_true]
  exact imp_and

theorem unrecorded_append {ids more : List Nat} :
    Unrecorded ahead ctx (ids ++ more) ↔ Unrecorded ahead ctx ids ∧ Unrecorded ahead ctx more := by
  unfold Unrecorded
  rw [List.forall_mem_append]
  exact imp_and

theorem parallel_record (hctx : ctx.Paired w ctx') (hid : Unrecorded ahead ctx [mark.id])
    (hn : w.pairs n m) :
    Parallel (Typing.Paired σ ahead) Pairing.pairs w (TypingM.record ctx mark n)
      (TypingM.record ctx' mark m) := by
  unfold TypingM.record
  rw [hctx.records]
  cases hrecords : ctx.records with
  | false => exact .pure' hn
  | true =>
    refine .bind' (.modify' fun s s' hs => ⟨hs.scopes, hs.run.putRecorded mark.id ?_ hn⟩)
      fun v _ _ hv _ => .pure' (hv.1 _ _ hn)
    exact hid hrecords mark.id (List.mem_singleton_self _)

/-- An expression whose parts are typed in parallel gets its node. -/
theorem parallel_recorded {x x' : TypingM Node} (hctx : ctx.Paired w ctx')
    (hid : Unrecorded ahead ctx [mark.id])
    (hx : Parallel (Typing.Paired σ ahead) Pairing.pairs w x x') :
    Parallel (Typing.Paired σ ahead) Pairing.pairs w (x >>= TypingM.record ctx mark)
      (x' >>= TypingM.record ctx' mark) :=
  .bind' hx fun _ _ _ hv hn => parallel_record (hctx.mono hv) hid hn

/-- Classes and modules have their bodies typed in the same contexts. -/
theorem declaration_paired (hctx : ctx.Paired w ctx') {s s' : Typing}
    (hs : s.Paired σ ahead w s') (name : String) :
    s'.run.catalog.declared ctx'.home name = s.run.catalog.declared ctx.home name ∧
      ∀ t, TypingM.declarationContext ctx' s'.run.catalog t =
        TypingM.declarationContext ctx s.run.catalog t := by
  have hmeta := hs.run.read (f := fun c => c.metaclass?) fun c => funext (metaclass?_outline c)
  refine ⟨?_, fun t => ?_⟩
  · rw [hctx.home, hs.run.read (f := fun c => c.declared ctx.home name)
      fun c => declared_outline c ctx.home name]
  · rw [TypingM.declarationContext, TypingM.declarationContext, hmeta, hctx.records, hctx.active]

theorem parallel_inDeclaration (hctx : ctx.Paired w ctx') (name : String)
    {typeBody typeBody' : Context → TypingM Node}
    (h : ∀ v inner, inner.records = ctx.records → inner.Paired v inner →
      Parallel (Typing.Paired σ ahead) Pairing.pairs v (typeBody inner) (typeBody' inner)) :
    Parallel (Typing.Paired σ ahead) Pairing.pairs w (TypingM.inDeclaration ctx name typeBody)
      (TypingM.inDeclaration ctx' name typeBody') := by
  unfold TypingM.inDeclaration
  refine parallel_liftCatalog fun s s' hs => ?_
  obtain ⟨hdeclared, hinner⟩ := declaration_paired hctx hs name
  rw [hdeclared]
  refine Parallel.bind' (parallel_lift (parallel_ofExcept _)) (fun v t t' _ ht => ?_) s s' hs
  obtain rfl : t = t' := ht
  rw [hinner]
  exact .bind' (parallel_lift (parallel_inFreshScopes (h _ _ rfl (.outside _ _ _ _))))
    fun _ _ _ _ _ => parallel_nil

/-! ## Expressions -/

mutual

/-- The numbers of an expression and of those in it that are not in methods. -/
def Expr.numbers : Expr → List Nat
  | .assign mark _ value => mark.id :: value.numbers
  | .assignMany mark _ values => mark.id :: allNumbers values
  | .sequence mark items => mark.id :: allNumbers items
  | .branch mark condition accepted refused =>
    mark.id :: (condition.numbers ++ accepted.numbers ++ optionNumbers refused)
  | .loop mark condition body => mark.id :: (condition.numbers ++ body.numbers)
  | .call mark receiver _ arguments block =>
    mark.id :: (optionNumbers receiver ++ allNumbers arguments ++ blockNumbers block)
  | .yielding mark arguments => mark.id :: allNumbers arguments
  | .returning mark value => mark.id :: optionNumbers value
  | .array mark elements _ => mark.id :: allNumbers elements
  | .addressOf mark value => mark.id :: value.numbers
  | .classDef mark _ _ _ body => mark.id :: body.numbers
  | .moduleDef mark _ body => mark.id :: body.numbers
  | e => [e.mark.id]

def Expr.allNumbers : List Expr → List Nat
  | [] => []
  | e :: rest => e.numbers ++ allNumbers rest

def Expr.optionNumbers : Option Expr → List Nat
  | none => []
  | some e => e.numbers

def Expr.blockNumbers : Option (List String × Expr) → List Nat
  | none => []
  | some (_, body) => body.numbers

end

/-- An expression that may be recorded may be so with its own number. -/
theorem Unrecorded.own {e : Expr} (h : Unrecorded ahead ctx e.numbers) :
    Unrecorded ahead ctx [e.mark.id] := by
  intro hrecords id hid
  refine h hrecords id ?_
  rw [List.mem_singleton.mp hid]
  cases e <;> exact List.mem_cons_self

mutual

theorem parallel_nodeOf {typer : Typer} {ctx ctx' : Context} {w : Pairing}
    (h : typer.Mirrors σ ahead) (hctx : ctx.Paired w ctx') (e : Expr)
    (hfree : Unrecorded ahead ctx e.numbers) :
    Parallel (Typing.Paired σ ahead) Pairing.pairs w (TypingM.nodeOf typer ctx e)
      (TypingM.nodeOf typer ctx' e) := by
  have hid := hfree.own
  cases e with
  | literal mark kind =>
    unfold TypingM.nodeOf
    exact parallel_recorded hctx hid (parallel_lift (parallel_sharedNode _))
  | localVar mark name =>
    unfold TypingM.nodeOf
    exact parallel_recorded hctx hid (parallel_readVariable name)
  | slot mark name =>
    unfold TypingM.nodeOf
    rw [hctx.receiver]
    exact parallel_recorded hctx hid (parallel_lift (parallel_readSlot _ _))
  | self mark =>
    unfold TypingM.nodeOf
    rw [hctx.receiver]
    exact parallel_recorded hctx hid (parallel_lift (parallel_sharedNode _))
  | path mark names =>
    unfold TypingM.nodeOf
    exact parallel_recorded hctx hid (parallel_lift (parallel_pathNode h hctx names))
  | assign mark target value =>
    have hvalue := (unrecorded_cons.mp hfree).2
    -- the value of a constant is typed apart
    have assigned : ∀ target, Parallel (Typing.Paired σ ahead) Pairing.pairs w (do
          let n ← TypingM.nodeOf typer ctx value
          TypingM.assign ctx target n
          TypingM.record ctx mark n) (do
          let n ← TypingM.nodeOf typer ctx' value
          TypingM.assign ctx' target n
          TypingM.record ctx' mark n) := fun target =>
      .bind' (parallel_nodeOf h hctx value hvalue) fun v _ _ hv hn =>
        .bind' (parallel_assign (hctx.mono hv) target hn) fun u _ _ hu _ =>
          parallel_record (hctx.mono (le_trans hv hu)) hid (hu.1 _ _ hn)
    cases target with
    | constant name =>
      unfold TypingM.nodeOf
      exact parallel_recorded hctx hid (parallel_lift (parallel_constantFor h hctx name value))
    | slot name =>
      unfold TypingM.nodeOf
      exact assigned (.slot name)
    | localVar name =>
      unfold TypingM.nodeOf
      exact assigned (.localVar name)
  | assignMany mark targets values =>
    unfold TypingM.nodeOf
    exact .bind' (parallel_assignEach h hctx targets values (unrecorded_cons.mp hfree).2)
      fun v _ _ hv _ => parallel_recorded (hctx.mono hv) hid parallel_nil
  | sequence mark items =>
    unfold TypingM.nodeOf
    refine .bind' (parallel_nodesOf h hctx items (unrecorded_cons.mp hfree).2)
      fun v ns ms hv hns => ?_
    have hlast := rel_getLast? hns
    generalize ns.getLast? = a at hlast ⊢
    generalize ms.getLast? = b at hlast ⊢
    cases hlast with
    | some hn => exact parallel_record (hctx.mono hv) hid hn
    | none => exact parallel_recorded (hctx.mono hv) hid parallel_nil
  | branch mark condition accepted refused =>
    rw [Expr.numbers, unrecorded_cons, unrecorded_append, unrecorded_append] at hfree
    obtain ⟨-, ⟨hcondition, haccepted⟩, hrefused⟩ := hfree
    unfold TypingM.nodeOf
    refine .bind' (parallel_nodeOf h hctx condition hcondition)
      fun v₁ _ _ hv₁ _ => ?_
    refine .bind' (parallel_nodeOf h (hctx.mono hv₁) accepted haccepted)
      fun v₂ a a' hv₂ ha => ?_
    refine .bind' (parallel_nodeOrNil h (hctx.mono (le_trans hv₁ hv₂)) refused
      hrefused) fun v₃ b b' hv₃ hb => ?_
    exact parallel_recorded (hctx.mono (le_trans hv₁ (le_trans hv₂ hv₃))) hid
      (parallel_lift (parallel_joinNode (.cons (hv₃.1 _ _ ha) (.cons hb .nil))))
  | loop mark condition body =>
    rw [Expr.numbers, unrecorded_cons, unrecorded_append] at hfree
    obtain ⟨-, hcondition, hbody⟩ := hfree
    unfold TypingM.nodeOf
    refine .bind' (parallel_nodeOf h hctx condition hcondition)
      fun v₁ _ _ hv₁ _ => ?_
    refine .bind' (parallel_nodeOf h (hctx.mono hv₁) body hbody)
      fun v₂ _ _ hv₂ _ => ?_
    exact parallel_recorded (hctx.mono (le_trans hv₁ hv₂)) hid parallel_nil
  | call mark receiver name arguments block =>
    rw [Expr.numbers, unrecorded_cons, unrecorded_append, unrecorded_append] at hfree
    obtain ⟨-, ⟨hreceivers, hargs⟩, hblocks⟩ := hfree
    unfold TypingM.nodeOf
    refine .bind' (parallel_nodeOfOption h hctx receiver hreceivers)
      fun v₁ receiver receiver' hv₁ hreceiver => ?_
    have hctx₁ := hctx.mono hv₁
    refine .bind' (parallel_nodesOf h hctx₁ arguments hargs)
      fun v₂ arguments arguments' hv₂ harguments => ?_
    have hctx₂ := hctx₁.mono hv₂
    refine .bind' (parallel_blockOf h hctx₂ mark.place block hblocks)
      fun v₃ block block' hv₃ hblock => ?_
    refine .bind' (parallel_lift parallel_freshNode) fun v₄ result result' hv₄ hresult => ?_
    have hctx₄ := hctx₂.mono (le_trans hv₃ hv₄)
    have hcall : CallSite.Paired v₄
        ⟨name, mark.place, receiver, arguments, block, ctx.receiver, result, [], ctx.active⟩
        ⟨name, mark.place, receiver', arguments', block', ctx'.receiver, result', [],
          ctx'.active⟩ :=
      ⟨rfl, rfl, rel_mono (le_trans hv₂ (le_trans hv₃ hv₄)).1 hreceiver,
        harguments.imp (le_trans hv₃ hv₄).1, rel_mono (fun _ _ h => h.mono hv₄) hblock,
        hctx.receiver, hresult, .nil, hctx.active⟩
    exact .bind' (parallel_lift (parallel_enterCall h hcall)) fun v₅ _ _ hv₅ _ =>
      parallel_record (hctx₄.mono hv₅) hid (hv₅.1 _ _ hresult)
  | yielding mark arguments =>
    unfold TypingM.nodeOf
    have hblock := hctx.block
    generalize ctx.block = b at hblock ⊢
    generalize ctx'.block = b' at hblock ⊢
    cases hblock with
    | none => exact parallel_lift (parallel_fail _)
    | some hblock =>
      refine .bind' (parallel_nodesOf h hctx arguments (unrecorded_cons.mp hfree).2)
        fun v₁ _ _ hv₁ hns => ?_
      refine .bind' (parallel_lift (parallel_bindBlock (hblock.mono hv₁).parameters hns))
        fun v₂ _ _ hv₂ _ => ?_
      have hle := le_trans hv₁ hv₂
      exact parallel_recorded (hctx.mono hle) hid
        (parallel_lift (parallel_joinNode (.cons (hblock.mono hle).result .nil)))
  | returning mark value =>
    unfold TypingM.nodeOf
    refine .bind' (parallel_nodeOrNil h hctx value (unrecorded_cons.mp hfree).2)
      fun v₁ n m hv₁ hn => ?_
    have hctx₁ := hctx.mono hv₁
    have hbody := hctx₁.body
    generalize ctx.body = b at hbody ⊢
    generalize ctx'.body = b' at hbody ⊢
    cases hbody with
    | none => exact parallel_recorded hctx₁ hid (parallel_lift parallel_freshNode)
    | some hbody =>
      refine .bind' (parallel_lift (parallel_bind hbody.result hn)) fun v₂ _ _ hv₂ _ => ?_
      exact parallel_recorded (hctx₁.mono hv₂) hid (parallel_lift parallel_freshNode)
  | array mark elements of =>
    unfold TypingM.nodeOf
    refine .bind' (parallel_lift parallel_freshNode) fun v₁ element element' hv₁ helement => ?_
    have rest : ∀ v, v₁ ≤ v → Parallel (Typing.Paired σ ahead) Pairing.pairs v (do
          TypingM.typeElements typer ctx element elements
          TypingM.record ctx mark (← RunM.arrayNode mark.place element)) (do
          TypingM.typeElements typer ctx' element' elements
          TypingM.record ctx' mark (← RunM.arrayNode mark.place element')) := fun v hv => by
      have hctx := hctx.mono (le_trans hv₁ hv)
      have helement := hv.1 _ _ helement
      refine .bind' (parallel_typeElements h hctx helement elements
        (unrecorded_cons.mp hfree).2) fun u _ _ hu _ => ?_
      exact parallel_recorded (hctx.mono hu) hid
        (parallel_lift (parallel_arrayNode (hu.1 _ _ helement)))
    cases of with
    | none => exact rest v₁ le_rfl
    | some written =>
      refine parallel_liftCatalog fun s s' hs => ?_
      rw [hctx.home, hctx.receiver, hs.run.read
        (f := fun c => c.writtenType written ctx.home (some ctx.receiver) mark.place)
        fun c => writtenType_outline c written ctx.home (some ctx.receiver) mark.place]
      refine Parallel.bind' (parallel_lift (parallel_ofExcept _)) (fun v₂ t t' hv₂ ht => ?_) s s' hs
      obtain rfl : t = t' := ht
      refine .bind' (parallel_lift (parallel_sharedNode t)) fun v₃ d e hv₃ hd => ?_
      have hle := le_trans hv₂ hv₃
      exact .bind' (parallel_lift (parallel_bind (hle.1 _ _ helement) hd)) fun v₄ _ _ hv₄ _ =>
        rest v₄ (le_trans hle hv₄)
  | addressOf mark value =>
    unfold TypingM.nodeOf
    refine .bind' (parallel_nodeOf h hctx value (unrecorded_cons.mp hfree).2)
      fun v₁ n m hv₁ hn => ?_
    refine .bind' (parallel_lift parallel_freshAddress) fun v₂ a a' hv₂ ha => ?_
    refine .bind' (parallel_lift (parallel_bind ha (hv₂.1 _ _ hn))) fun v₃ _ _ hv₃ _ => ?_
    exact parallel_record (hctx.mono (le_trans hv₁ (le_trans hv₂ hv₃))) hid (hv₃.1 _ _ ha)
  | classDef mark name superclass generic body =>
    unfold TypingM.nodeOf
    exact parallel_recorded hctx hid
      (parallel_inDeclaration hctx name fun v inner hrecords hinner =>
        parallel_nodeOf h hinner body fun hr => (unrecorded_cons.mp hfree).2 (hrecords ▸ hr))
  | moduleDef mark name body =>
    unfold TypingM.nodeOf
    exact parallel_recorded hctx hid
      (parallel_inDeclaration hctx name fun v inner hrecords hinner =>
        parallel_nodeOf h hinner body fun hr => (unrecorded_cons.mp hfree).2 (hrecords ▸ hr))
  | methodDef mark name onMetaclass params body =>
    unfold TypingM.nodeOf
    exact parallel_recorded hctx hid parallel_nil
  | recordDef mark name fields =>
    unfold TypingM.nodeOf
    exact parallel_recorded hctx hid parallel_nil
  | inclusion mark names =>
    unfold TypingM.nodeOf
    exact parallel_recorded hctx hid parallel_nil

theorem parallel_nodesOf {typer : Typer} {ctx ctx' : Context} {w : Pairing}
    (h : typer.Mirrors σ ahead) (hctx : ctx.Paired w ctx') (es : List Expr)
    (hfree : Unrecorded ahead ctx (Expr.allNumbers es)) :
    Parallel (Typing.Paired σ ahead) (fun v => List.Forall₂ v.pairs) w
      (TypingM.nodesOf typer ctx es) (TypingM.nodesOf typer ctx' es) := by
  cases es with
  | nil => exact .pure' .nil
  | cons e rest =>
    obtain ⟨he, hrest⟩ := unrecorded_append.mp hfree
    unfold TypingM.nodesOf
    refine .bind' (parallel_nodeOf h hctx e he) fun v _ _ hv hn => ?_
    exact .bind' (parallel_nodesOf h (hctx.mono hv) rest hrest) fun u _ _ hu hns =>
      .pure' (.cons (hu.1 _ _ hn) hns)

theorem parallel_nodeOfOption {typer : Typer} {ctx ctx' : Context} {w : Pairing}
    (h : typer.Mirrors σ ahead) (hctx : ctx.Paired w ctx') (o : Option Expr)
    (hfree : Unrecorded ahead ctx (Expr.optionNumbers o)) :
    Parallel (Typing.Paired σ ahead) (fun v => Option.Rel v.pairs) w
      (TypingM.nodeOfOption typer ctx o) (TypingM.nodeOfOption typer ctx' o) := by
  cases o with
  | none => exact .pure' .none
  | some e => exact .bind' (parallel_nodeOf h hctx e hfree) fun _ _ _ _ hn => .pure' (.some hn)

theorem parallel_nodeOrNil {typer : Typer} {ctx ctx' : Context} {w : Pairing}
    (h : typer.Mirrors σ ahead) (hctx : ctx.Paired w ctx') (o : Option Expr)
    (hfree : Unrecorded ahead ctx (Expr.optionNumbers o)) :
    Parallel (Typing.Paired σ ahead) Pairing.pairs w (TypingM.nodeOrNil typer ctx o)
      (TypingM.nodeOrNil typer ctx' o) := by
  cases o with
  | none => exact parallel_nil
  | some e => exact parallel_nodeOf h hctx e hfree

theorem parallel_blockOf {typer : Typer} {ctx ctx' : Context} {w : Pairing}
    (h : typer.Mirrors σ ahead) (hctx : ctx.Paired w ctx') (place : Place)
    (block : Option (List String × Expr)) (hfree : Unrecorded ahead ctx (Expr.blockNumbers block)) :
    Parallel (Typing.Paired σ ahead) (fun v => Option.Rel (BlockFlow.Paired v)) w
      (TypingM.blockOf typer ctx place block) (TypingM.blockOf typer ctx' place block) := by
  cases block with
  | none => exact .pure' .none
  | some block =>
    obtain ⟨names, body⟩ := block
    exact parallel_inScope (.bind' (parallel_blockParameters names) fun v _ _ hv hns =>
      .bind' (parallel_nodeOf h (hctx.mono hv) body hfree) fun u _ _ hu hn =>
        .pure' (.some ⟨hns.imp hu.1, hn⟩))

theorem parallel_typeElements {typer : Typer} {ctx ctx' : Context} {w : Pairing}
    {element element' : Node} (h : typer.Mirrors σ ahead) (hctx : ctx.Paired w ctx')
    (helement : w.pairs element element') (es : List Expr)
    (hfree : Unrecorded ahead ctx (Expr.allNumbers es)) :
    Parallel (Typing.Paired σ ahead) Same w (TypingM.typeElements typer ctx element es)
      (TypingM.typeElements typer ctx' element' es) := by
  cases es with
  | nil => exact .pure' rfl
  | cons e rest =>
    obtain ⟨he, hrest⟩ := unrecorded_append.mp hfree
    unfold TypingM.typeElements
    refine .bind' (parallel_nodeOf h hctx e he) fun v _ _ hv hn => ?_
    have helement := hv.1 _ _ helement
    refine .bind' (parallel_lift (parallel_bind helement hn)) fun u _ _ hu _ => ?_
    exact parallel_typeElements h (hctx.mono (le_trans hv hu)) (hu.1 _ _ helement) rest hrest

theorem parallel_assignEach {typer : Typer} {ctx ctx' : Context} {w : Pairing} {mark : Mark}
    (h : typer.Mirrors σ ahead) (hctx : ctx.Paired w ctx') (targets : List Target) (es : List Expr)
    (hfree : Unrecorded ahead ctx (Expr.allNumbers es)) :
    Parallel (Typing.Paired σ ahead) Same w (TypingM.assignEach typer ctx mark targets es)
      (TypingM.assignEach typer ctx' mark targets es) := by
  cases es with
  | nil =>
    unfold TypingM.assignEach
    exact parallel_assignMissing h hctx targets
  | cons e rest =>
    obtain ⟨he, hrest⟩ := unrecorded_append.mp hfree
    cases targets with
    | nil =>
      unfold TypingM.assignEach
      exact .bind' (parallel_nodeOf h hctx e he) fun v _ _ hv _ =>
        parallel_assignEach h (hctx.mono hv) [] rest hrest
    | cons target targets =>
      cases target with
      | constant name =>
        unfold TypingM.assignEach
        exact .bind' (parallel_lift (parallel_constantFor h hctx name e)) fun v _ _ hv _ =>
          parallel_assignEach h (hctx.mono hv) targets rest hrest
      | localVar name =>
        unfold TypingM.assignEach
        exact .bind' (parallel_nodeOf h hctx e he) fun v _ _ hv hn =>
          .bind' (parallel_assign (hctx.mono hv) _ hn) fun u _ _ hu _ =>
            parallel_assignEach h (hctx.mono (le_trans hv hu)) targets rest hrest
      | slot name =>
        unfold TypingM.assignEach
        exact .bind' (parallel_nodeOf h hctx e he) fun v _ _ hv hn =>
          .bind' (parallel_assign (hctx.mono hv) _ hn) fun u _ _ hu _ =>
            parallel_assignEach h (hctx.mono (le_trans hv hu)) targets rest hrest

end

/-- Bodies are typed in parallel. -/
theorem typerWithin_mirrors (depth : Nat) : (TypingM.typerWithin depth).Mirrors σ ahead := by
  induction depth with
  | zero => exact fun _ _ _ _ _ _ => .throw' _
  | succ depth ih =>
    intro w ctx ctx' e hctx hrecords
    exact parallel_nodeOf ih hctx e fun h => by rw [hrecords] at h; cases h

/-! ## Settling -/

theorem parallel_inFramesOf (hsite : site.index < w.sites) {act : RunM α} {act' : RunM α'}
    (h : Parallel (Run.Paired σ ahead) R w act act') :
    Parallel (Run.Paired σ ahead) R w (RunM.inFramesOf site act) (RunM.inFramesOf site act') := by
  intro r r' hr
  have hends := h r r' hr
  unfold RunM.inFramesOf
  generalize act r = x at hends ⊢
  generalize act' r' = x' at hends ⊢
  cases hends with
  | ok hw hr ha => exact .ok hw hr ha
  | error e hw hr =>
    cases e with
    | failed e =>
      dsimp only
      rw [(hr.site site (Nat.lt_of_lt_of_le hsite hw.2)).frames]
      exact .error _ hw hr
    | tooDeep => exact .error _ hw hr
    | tooManyRounds => exact .error _ hw hr

theorem parallel_wake (h : typer.Mirrors σ ahead) (options : Options) {wake : Wake}
    (hknown : ∀ s, wake = .site s → s.index < w.sites) :
    Parallel (Run.Paired σ ahead) Same w (RunM.wake typer options wake)
      (RunM.wake typer options wake) := by
  cases wake with
  | site site =>
    have hsite := hknown site rfl
    exact parallel_inFramesOf hsite (parallel_rebindCall h hsite)
  | provisional t => exact parallel_onStore (Store.Paired.refresh t _)

theorem parallel_settleWithin (h : typer.Mirrors σ ahead) (options : Options) (rounds : Nat) :
    Parallel (Run.Paired σ ahead) Same w (RunM.settleWithin typer options rounds)
      (RunM.settleWithin typer options rounds) := by
  induction rounds generalizing w with
  | zero => exact .throw' _
  | succ rounds ih =>
    unfold RunM.settleWithin
    refine .bind' (parallel_onStore (R := Store.Roused w) Store.Paired.propagate)
      fun v wakes wakes' hv hwakes => ?_
    obtain ⟨rfl, hknown⟩ := hwakes
    cases wakes.isEmpty with
    | true => exact .pure' rfl
    | false =>
      refine .bind' (.forM' fun u wake hu hwake => parallel_wake h options fun s hs => ?_)
        fun _ _ _ _ _ => ih
      exact Nat.lt_of_lt_of_le (hknown s (hs ▸ hwake)) (le_trans hv hu).2

theorem parallel_settle (h : typer.Mirrors σ ahead) (options : Options) :
    Parallel (Run.Paired σ ahead) Same w (RunM.settle typer options)
      (RunM.settle typer options) := by
  unfold RunM.settle
  refine .get' fun r r' hr => ?_
  rw [hr.graph.budget]
  exact parallel_settleWithin h options _ r r' hr

end FlowTyping
