import FlowTyping.Proofs.Inference.Finding
import FlowTyping.Proofs.Inference.Reordering

/-
  The order of methods

  Where a method stands in its class or module, or in the program itself, is of no
  consequence to what a check finds (`check_hoisted`): as long as it does not
  pass another one of its name and the last statement remains the last, the check
  fails with the same error, or finds the same types and the same instances.

  The second run meets the method first. Until the first one meets it too, the
  second is ahead by the node that it has recorded for it (`lead`, `catchUp`).
-/
namespace FlowTyping

open Steps Catalog

variable {σ : Renumbering} {w v : Pairing} {n m : Node} {typer : Typer} {ctx ctx' : Context}
  {p q : Expr}

/-! ## Ahead by one method -/

/-- Records `Nil` for an expression. -/
def Run.recordNil (r : Run) (id : Nat) : Run :=
  { (r.sharedNode .nil).2 with
    recorded := (r.sharedNode .nil).2.recorded.put id (r.sharedNode .nil).1 }

namespace Run.Paired

variable {r r' : Run} {id : Nat}

/-- The second run records `Nil` for an expression before the first does. -/
theorem lead (h : r.Paired σ none w r') (id : Nat) :
    ∃ v, w ≤ v ∧ r.Paired σ (some id) v (r'.recordNil id) := by
  have hother : ∀ {m : Node} other, some id ≠ some other →
      Option.Rel w.pairs (r.recorded.get? other) ((r'.recorded.put id m).get? other) :=
    fun other hother => by
      rw [Table.get?_put, if_neg fun heq => hother (congrArg some heq.symm)]
      exact h.recorded other (by simp)
  have hshared := h.sharedNodes .nil
  unfold Run.recordNil Run.sharedNode
  cases hr' : r'.sharedNodes.get? .nil with
  | some m =>
    exact ⟨w, le_rfl, { h with
      recorded := hother
      noted := fun other heq => by
        cases heq
        exact ⟨m, Table.get?_put_self, hr'⟩
      distinct := ⟨h.distinct.1, Table.nodup_keys_put h.distinct.2⟩ }⟩
  | none =>
    -- the node that this run makes for `Nil` is one to spare
    have hle : w ≤ { w with spare := some ⟨r'.graph.size⟩ } :=
      ⟨fun _ _ h => h, Nat.le_refl w.sites⟩
    refine ⟨_, hle, ?_⟩
    exact
      { store := h.store.grow hle h.graph.spend
        count := h.count
        size := h.size
        site := fun s hs => (h.site s hs).mono hle
        toRemembers := { h.toRemembers.mono hle with }
        sharedNodes := fun t => by
          show Shared _ t (r.sharedNodes.get? t) ((r'.sharedNodes.put .nil _).get? t)
          rw [Table.get?_put]
          split
          · next ht =>
            subst ht
            rw [hr'] at hshared
            cases hr : r.sharedNodes.get? .nil with
            | none => exact .spare rfl rfl
            | some n =>
              rw [hr] at hshared
              cases hshared
          · next ht => exact (h.sharedNodes t).mono hle fun hnil => absurd hnil ht
        recorded := hother
        noted := fun other heq => by
          cases heq
          exact ⟨_, Table.get?_put_self, Table.get?_put_self⟩
        distinct := ⟨h.distinct.1, Table.nodup_keys_put h.distinct.2⟩ }

/-- The first run records what the second has recorded before. -/
theorem catchUp (h : r.Paired σ (some id) w r') :
    ∃ v, w ≤ v ∧ (r.recordNil id).Paired σ none v r' := by
  obtain ⟨m, hm, hnil⟩ := h.noted id rfl
  obtain ⟨v, hw, hshared, hn⟩ := h.sharedNode .nil
  have hsame : r'.sharedNode .nil = (m, r') := by
    unfold Run.sharedNode
    rw [hnil]
  rw [hsame] at hshared hn
  refine ⟨v, hw, { hshared with
    recorded := fun other _ => ?_
    noted := fun _ heq => by cases heq
    distinct := ⟨Table.nodup_keys_put hshared.distinct.1, hshared.distinct.2⟩ }⟩
  show Option.Rel v.pairs (((r.sharedNode .nil).2.recorded.put id _).get? other) _
  rw [Table.get?_put]
  split
  · next heq =>
    rw [heq, hm]
    exact .some hn
  · next hne => exact hshared.recorded other fun heq => hne (Option.some.inj heq).symm

end Run.Paired

/-! ## Statements in another order -/

/-- Where expressions are recorded, so is the `Nil` of a method. -/
theorem nodeOf_methodDef (hrecords : ctx.records = true) (own : Mark) (name : String)
    (onMetaclass : Bool) (params : List (WrittenParameter Expr)) (body : Expr) (s : Typing) :
    TypingM.nodeOf typer ctx (.methodDef own name onMetaclass params body) s =
      .ok (s.run.sharedNode .nil).1 ⟨s.scopes, s.run.recordNil own.id⟩ := by
  unfold TypingM.nodeOf TypingM.record
  rw [hrecords]
  rfl

theorem nodesOf_append (typer : Typer) (ctx : Context) (xs ys : List Expr) :
    TypingM.nodesOf typer ctx (xs ++ ys) = (do
      let ns ← TypingM.nodesOf typer ctx xs
      let ms ← TypingM.nodesOf typer ctx ys
      pure (ns ++ ms)) := by
  induction xs with
  | nil => simp [TypingM.nodesOf]
  | cons x xs ih => simp [TypingM.nodesOf, ih]

/-- Lists that end in nodes that correspond. -/
def LastPaired (w : Pairing) (ns ms : List Node) : Prop :=
  Option.Rel w.pairs ns.getLast? ms.getLast?

theorem lastPaired_append {ns ms : List Node} (h : List.Forall₂ w.pairs ns ms) (hne : ns ≠ [])
    (before before' : List Node) : LastPaired w (before ++ ns) (before' ++ ms) := by
  have hne' : ms ≠ [] := by
    rintro rfl
    cases h
    exact hne rfl
  unfold LastPaired
  rw [List.getLast?_append_of_ne_nil _ hne, List.getLast?_append_of_ne_nil _ hne']
  exact rel_getLast? h

theorem unrecorded_none {ids : List Nat} : Unrecorded none ctx ids := fun _ _ _ h => by cases h

/-- A method may be typed before the statements it passes. -/
theorem leads_moved (h : ∀ ahead, typer.Mirrors σ ahead) (hctx : ctx.Paired w ctx')
    (hrecords : ctx.records = true) (before passed after : List Expr) (own : Mark) (name : String)
    (onMetaclass : Bool) (params : List (WrittenParameter Expr)) (body : Expr)
    (hnumber : own.id ∉ Expr.allNumbers passed) (hlast : after ≠ []) :
    Leads (Typing.Paired σ none) (Typing.Paired σ none) LastPaired w
      (TypingM.nodesOf typer ctx
        (before ++ (passed ++ .methodDef own name onMetaclass params body :: after)))
      (TypingM.nodesOf typer ctx'
        (before ++ (.methodDef own name onMetaclass params body :: passed ++ after))) := by
  obtain ⟨e, rest, rfl⟩ := List.exists_cons_of_ne_nil hlast
  simp only [nodesOf_append, TypingM.nodesOf, List.cons_append, bind_assoc, pure_bind]
  refine .bind' (parallel_nodesOf (h none) hctx before unrecorded_none).leads
    fun v₁ ns ms hv₁ _ => ?_
  have hctx₁ := hctx.mono hv₁
  -- the second run is ahead
  refine .second (T := Typing.Paired σ (some own.id)) (fun s s' hs => ?_) fun v₂ n' hv₂ => ?_
  · obtain ⟨v, hv, hr⟩ := hs.run.lead own.id
    exact ⟨v, _, _, hv, nodeOf_methodDef (hctx.records.trans hrecords) .., hs.scopes.mono hv, hr⟩
  have hctx₂ := hctx₁.mono hv₂
  refine .bind' (parallel_nodesOf (h (some own.id)) hctx₂ passed fun _ other hother heq => ?_).leads
    fun v₃ passedNodes passedNodes' hv₃ _ => ?_
  · cases heq
    exact hnumber hother
  have hctx₃ := hctx₂.mono hv₃
  -- the first run catches up
  refine .first (T := Typing.Paired σ none) (fun s s' hs => ?_) fun v₄ n hv₄ => ?_
  · obtain ⟨v, hv, hr⟩ := hs.run.catchUp
    exact ⟨v, _, _, hv, nodeOf_methodDef hrecords .., hs.scopes.mono hv, hr⟩
  have hctx₄ := hctx₃.mono hv₄
  refine .bind' (parallel_nodeOf (h none) hctx₄ e unrecorded_none).leads
    fun v₅ a a' hv₅ ha => ?_
  refine .bind' (parallel_nodesOf (h none) (hctx₄.mono hv₅) rest unrecorded_none).leads
    fun v₆ rests rests' hv₆ hrests => Parallel.leads (.pure' ?_)
  have hlasts := lastPaired_append (.cons (hv₆.1 _ _ ha) hrests) (List.cons_ne_nil a rests)
    (ns ++ (passedNodes ++ [n])) (ms ++ (n' :: passedNodes'))
  simpa using hlasts

/-! ## Programs with a method earlier -/

variable {α α' : Type} {R : Pairing → α → α' → Prop}

theorem leads_lift {act : RunM α} {act' : RunM α'}
    (h : Leads (Run.Paired σ none) (Run.Paired σ none) R w act act') :
    Leads (Typing.Paired σ none) (Typing.Paired σ none) R w (Typing.lift act)
      (Typing.lift act') := by
  intro s s' hs
  have hagrees := h _ _ hs.run
  unfold Typing.lift
  generalize act s.run = x at hagrees ⊢
  generalize act' s'.run = x' at hagrees ⊢
  cases hagrees with
  | ok hw hr ha => exact .ok hw ⟨hs.scopes.mono hw, hr⟩ ha
  | error e r r' => exact .error e _ _

theorem leads_inFreshScopes {act : TypingM α} {act' : TypingM α'}
    (h : Leads (Typing.Paired σ none) (Typing.Paired σ none) R w act act') :
    Leads (Run.Paired σ none) (Run.Paired σ none) R w (RunM.inFreshScopes act)
      (RunM.inFreshScopes act') := by
  intro r r' hr
  have hagrees := h ⟨.empty, r⟩ ⟨.empty, r'⟩ ⟨.empty, hr⟩
  unfold RunM.inFreshScopes
  generalize act ⟨.empty, r⟩ = x at hagrees ⊢
  generalize act' ⟨.empty, r'⟩ = x' at hagrees ⊢
  cases hagrees with
  | ok hw hs ha => exact .ok hw hs.run ha
  | error e s s' => exact .error e _ _

theorem leads_inDeclaration (hctx : ctx.Paired w ctx') (name : String)
    {typeBody typeBody' : Context → TypingM Node}
    (h : ∀ v inner, inner.records = ctx.records → inner.Paired v inner →
      Leads (Typing.Paired σ none) (Typing.Paired σ none) Pairing.pairs v (typeBody inner)
        (typeBody' inner)) :
    Leads (Typing.Paired σ none) (Typing.Paired σ none) Pairing.pairs w
      (TypingM.inDeclaration ctx name typeBody) (TypingM.inDeclaration ctx' name typeBody') := by
  unfold TypingM.inDeclaration
  intro s s' hs
  obtain ⟨hdeclared, hinner⟩ := declaration_paired hctx hs name
  show Agrees _ _ w ((Typing.lift (RunM.ofExcept (s.run.catalog.declared ctx.home name)) >>= _) s)
    ((Typing.lift (RunM.ofExcept (s'.run.catalog.declared ctx'.home name)) >>= _) s')
  rw [hdeclared]
  refine Leads.bind' (parallel_lift (parallel_ofExcept _)).leads (fun v t t' _ ht => ?_) s s' hs
  obtain rfl : t = t' := ht
  rw [hinner]
  exact .bind' (leads_lift (leads_inFreshScopes (h _ _ rfl (.outside _ _ _ _))))
    fun _ _ _ _ _ => parallel_nil.leads

theorem leads_record (hctx : ctx.Paired w ctx') {mark : Mark} (hn : w.pairs n m) :
    Leads (Typing.Paired σ none) (Typing.Paired σ none) Pairing.pairs w
      (TypingM.record ctx mark n) (TypingM.record ctx' mark m) :=
  (parallel_record hctx unrecorded_none hn).leads

/-- A list of statements is typed alike if its statements are. -/
theorem leads_sequence (hctx : ctx.Paired w ctx') (mark : Mark) {items items' : List Expr}
    (h : Leads (Typing.Paired σ none) (Typing.Paired σ none) LastPaired w
      (TypingM.nodesOf typer ctx items) (TypingM.nodesOf typer ctx' items')) :
    Leads (Typing.Paired σ none) (Typing.Paired σ none) Pairing.pairs w
      (TypingM.nodeOf typer ctx (.sequence mark items))
      (TypingM.nodeOf typer ctx' (.sequence mark items')) := by
  unfold TypingM.nodeOf
  refine .bind' h fun v ns ms hv hlast => ?_
  unfold LastPaired at hlast
  generalize ns.getLast? = a at hlast ⊢
  generalize ms.getLast? = b at hlast ⊢
  have hctx := hctx.mono hv
  cases hlast with
  | some hn => exact leads_record hctx hn
  | none => exact (parallel_recorded hctx unrecorded_none parallel_nil).leads

/-- A program with a method earlier is typed like the program. -/
theorem leads_nodeOf (h : ∀ ahead, typer.Mirrors σ ahead) (hmoved : p.Hoisted q)
    (hctx : ctx.Paired w ctx') (hrecords : ctx.records = true) :
    Leads (Typing.Paired σ none) (Typing.Paired σ none) Pairing.pairs w
      (TypingM.nodeOf typer ctx p) (TypingM.nodeOf typer ctx' q) := by
  induction hmoved generalizing w ctx ctx' with
  | moved mark before passed after own name onMetaclass params body hname hnumber hlast =>
    exact leads_sequence hctx mark (leads_moved h hctx hrecords before passed after own name
      onMetaclass params body hnumber hlast)
  | @item mark before after e e' _ ih =>
    refine leads_sequence hctx mark ?_
    simp only [nodesOf_append, TypingM.nodesOf, bind_assoc, pure_bind]
    refine .bind' (parallel_nodesOf (h none) hctx before unrecorded_none).leads
      fun v₁ ns ms hv₁ _ => ?_
    have hctx₁ := hctx.mono hv₁
    refine .bind' (ih hctx₁ hrecords) fun v₂ n m hv₂ hn => ?_
    refine .bind' (parallel_nodesOf (h none) (hctx₁.mono hv₂) after unrecorded_none).leads
      fun v₃ rest rest' hv₃ hrest => Parallel.leads (.pure' ?_)
    exact lastPaired_append (.cons (hv₃.1 _ _ hn) hrest) (List.cons_ne_nil n rest) ns ms
  | classBody mark name superclass generic _ ih =>
    unfold TypingM.nodeOf
    exact .bind' (leads_inDeclaration hctx name fun v inner hinner hpaired =>
      ih hpaired (hinner.trans hrecords)) fun _ _ _ hv hn => leads_record (hctx.mono hv) hn
  | moduleBody mark name _ ih =>
    unfold TypingM.nodeOf
    exact .bind' (leads_inDeclaration hctx name fun v inner hinner hpaired =>
      ih hpaired (hinner.trans hrecords)) fun _ _ _ hv hn => leads_record (hctx.mono hv) hn

theorem leads_typeProgram (hmoved : p.Hoisted q) (depth : Nat) :
    Leads (Run.Paired σ none) (Run.Paired σ none) Pairing.pairs w
      (RunM.typeProgram (TypingM.typerWithin depth) p)
      (RunM.typeProgram (TypingM.typerWithin depth) q) := by
  refine leads_inFreshScopes ?_
  cases depth with
  | zero => exact fun s s' _ => .error Halt.tooDeep s s'
  | succ depth =>
    exact leads_nodeOf (fun _ => typerWithin_mirrors depth) hmoved (.outside _ _ _ _) rfl

/-- A program with a method earlier settles like the program. -/
theorem leads_settleProgram (hmoved : p.Hoisted q) (options : Options) :
    Leads (Run.Paired σ none) (Run.Paired σ none) Pairing.pairs w
      (RunM.settleProgram options p) (RunM.settleProgram options q) :=
  .bind' (leads_typeProgram hmoved options.depthLimit) fun _ _ _ _ hn =>
    .bind' (parallel_settle (typerWithin_mirrors options.depthLimit) options).leads
      fun _ _ _ hv _ => Parallel.leads (.pure' (hv.1 _ _ hn))

/-! ## What is found -/

variable {d d' : Catalog}

/-- Programs whose declarations differ in the handles of methods find the same. -/
theorem agrees_checkDeclared (hmoved : p.Hoisted q) (hplain : d.Plain) (hd : seeded.Declares d)
    (hd' : seeded.Declares d') (hσ : d.Renumbers σ d') (options : Options) :
    Agrees (fun _ _ _ => True) (fun _ => Checked.Matches) Pairing.empty
      (RunM.checkDeclared options p (.start d options))
      (RunM.checkDeclared options q (.start d' options)) := by
  have hsettled := leads_settleProgram hmoved options _ _ (Run.Paired.start hplain hσ options)
  generalize hp : RunM.settleProgram options p (.start d options) = x at hsettled
  generalize hq : RunM.settleProgram options q (.start d' options) = x' at hsettled
  cases hsettled with
  | error e r r' =>
    rw [checkDeclared_of_stopped hp, checkDeclared_of_stopped hq]
    exact .error e r r'
  | ok hw hr hn =>
    rw [checkDeclared_of_settled hp, checkDeclared_of_settled hq]
    exact (agrees_report hr hn (settleProgram_ok hd hp).2 (settleProgram_ok hd' hq).2).mono hw

/-- A program with a method earlier is checked like the program, if one of them can be declared. -/
theorem check_hoisted (hmoved : p.Hoisted q)
    (hdeclared : (∃ c, DeclareM.declareProgram p .seeded = .ok () c) ∨
      ∃ c, DeclareM.declareProgram q .seeded = .ok () c) (options : Options) :
    SameOutcome (check p options) (check q options) := by
  obtain ⟨σ, d, d', hp, hq, hplain, hσ⟩ := DeclareM.declared_hoisted hmoved DeclareM.good_seeded
    callable_seeded inward_seeded hdeclared
  have hagrees := agrees_checkDeclared hmoved hplain (DeclareM.declareProgram_declares hp)
    (DeclareM.declareProgram_declares hq) hσ options
  unfold check
  rw [hp, hq]
  dsimp only
  generalize RunM.checkDeclared options p (.start d options) = x at hagrees ⊢
  generalize RunM.checkDeclared options q (.start d' options) = x' at hagrees ⊢
  cases hagrees with
  | error e _ _ => exact .stopped e
  | ok _ _ hfound => exact .found hfound

/-- The order of methods is of no consequence: if a method of a program that can be declared gets
another place among the statements around it, and passes no method of its name and not the last
statement, the check stops for the same reason or finds the same. -/
theorem method_order_irrelevant (hmoved : p.Hoisted q ∨ q.Hoisted p)
    (hdeclared : ∃ c, DeclareM.declareProgram p .seeded = .ok () c) (options : Options) :
    SameOutcome (check p options) (check q options) := by
  rcases hmoved with hmoved | hmoved
  · exact check_hoisted hmoved (.inl hdeclared) options
  · exact (check_hoisted hmoved (.inr hdeclared) options).symm

/-- A call of `twin`, with the numbers from `id` on. -/
def callTwin (id : Nat) (argument : Literal) : Expr :=
  .call ⟨id, .synthesized⟩ none "twin" [.literal ⟨id + 1, .synthesized⟩ argument] none

/-- The method `twin`, with the numbers from `id` on. -/
def defTwin (id : Nat) : Expr :=
  .methodDef ⟨id, .synthesized⟩ "twin" false [⟨"x", none, none⟩]
    (.array ⟨id + 1, .synthesized⟩ [.localVar ⟨id + 2, .synthesized⟩ "x"] none)

def calledFirst : Expr :=
  .sequence ⟨8, .synthesized⟩ [callTwin 1 .int, defTwin 3, callTwin 6 .double]

def definedFirst : Expr :=
  .sequence ⟨8, .synthesized⟩ [defTwin 3, callTwin 1 .int, callTwin 6 .double]

theorem calledFirst_hoisted : calledFirst.Hoisted definedFirst :=
  .moved _ [] [callTwin 1 .int] [callTwin 6 .double] _ _ _ _ _ (by decide) (by decide)
    (List.cons_ne_nil _ _)

theorem calledFirst_instances : (settledRun calledFirst ⟨100, 5, 8, 5⟩).any (fun (_, r) =>
    r.instances.toList.map (·.signature) == ["twin(Int)", "twin(Double)"]) = true := by
  decide +kernel

/-- A method that is called with two types may be defined before the calls or between them. -/
theorem method_order_irrelevant_twin : ∃ a b, check calledFirst ⟨100, 5, 8, 5⟩ = .ok a ∧
    check definedFirst ⟨100, 5, 8, 5⟩ = .ok b ∧ a.Matches b ∧
    a.instances.map (·.signature) = ["twin(Int)", "twin(Double)"] := by
  obtain ⟨⟨n, r⟩, hsettled, hinstances⟩ := Option.any_eq_true _ _ |>.mp calledFirst_instances
  obtain ⟨_, c, hdeclared, -⟩ := settles_of_settledRun hsettled
  have hcheck := check_eq_ok_iff.mpr ⟨n, r, hsettled, rfl⟩
  have hsame := method_order_irrelevant (.inl calledFirst_hoisted) ⟨c, hdeclared⟩ ⟨100, 5, 8, 5⟩
  rw [hcheck] at hsame ⊢
  generalize check definedFirst ⟨100, 5, 8, 5⟩ = found at hsame ⊢
  cases hsame with
  | found hmatches =>
    refine ⟨_, _, rfl, rfl, hmatches, ?_⟩
    refine Eq.trans ?_ (beq_iff_eq.mp hinstances)
    show (r.instances.toList.map fun i => (⟨i.signature, _⟩ : TypedInstance)).map _ = _
    rw [List.map_map]
    rfl

end FlowTyping
