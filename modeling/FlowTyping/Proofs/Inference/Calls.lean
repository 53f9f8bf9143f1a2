import FlowTyping.Proofs.Catalog.Bindings
import FlowTyping.Proofs.Inference.Keeping

/-
  Calls keep a run sound

  For a way to type bodies that keeps runs sound, so does everything that a call
  does: instances are entered before their bodies are typed and complete after
  that, generic values are initialized, and a call ends bound to what it yields
  (`rebindCall_ok`). If something goes wrong then the call is to blame, or what
  it has typed.
-/
namespace FlowTyping

open Catalog

/-- A way to type expressions that keeps runs sound, gives nodes to the instance variables that are
assigned and blames what it has typed for errors. -/
def Typer.Sound (typer : Typer) : Prop :=
  ∀ (due : List Task) (s : Typing) (ctx : Context) (e : Expr), ctx.Fits s.run →
    (typing (ctx.stage due)).Keeps s (typer ctx e) fun n s' =>
      s'.run.Valid n ∧ s'.run.Slotted ctx.receiver e.assigned

variable {typer : Typer} {stage : Stage} {due : List Task} {r : Run} {site : Site} {owner : Ty}
  {arguments : List Ty} {active : List Frame} {ctx : Context} {place : Place} {asked : Ty}

/-! ## Instances -/

theorem keeps_define {s : Typing} {name : String} {n : Node} (hn : s.run.Bindable n) :
    (typing stage).Keeps s
      (modify fun s => { s with scopes := s.scopes.define name n } : TypingM Unit)
      fun _ s' => s'.run = s.run :=
  .modify' (fun hs =>
    ⟨⟨hs.run, hs.scopes.define name hn⟩, .refl hs.run.store hs.run.balanced, rfl⟩) (.of_sites rfl)

theorem keeps_typeParameters (htyper : typer.Sound) {ps : List Parameter} {s : Typing}
    (hctx : ctx.Fits s.run) (harguments : ∀ t ∈ arguments, s.run.catalog.Definite t)
    (hsupplied : ∀ p ∈ ps.drop arguments.length, p.fallback.isSome = true) :
    (typing (ctx.stage due)).Keeps s (RunM.typeParameters typer ctx place ps arguments) fun _ s' =>
      s'.run.Slotted ctx.receiver (assignedDefaults ps arguments) := by
  induction ps generalizing s arguments with
  | nil => exact .pure' fun _ name hname => by cases hname
  | cons p ps ih =>
    -- what is done with the value of the first parameter, wherever it comes from
    have rest : ∀ (value : Node) (s₁ : Typing), s.run.Leads s₁.run → s₁.run.Valid value →
        s₁.run.Slotted ctx.receiver
          (if arguments.isEmpty then Expr.assignedOption p.fallback else []) →
        (typing (ctx.stage due)).Keeps s₁ (do
          let var ← RunM.freshNode place
          RunM.bind var value
          modify fun s => { s with scopes := s.scopes.define p.name var }
          RunM.typeParameters typer ctx place ps arguments.tail) fun _ s' =>
            s'.run.Slotted ctx.receiver (assignedDefaults (p :: ps) arguments) := by
      intro value s₁ hl₁ hvalue hslots
      refine .bind' (keeps_lift (keeps_freshNode place)) fun var s₂ _ hl₂ hvar => ?_
      refine .bind' (keeps_lift (keeps_bind hvar (hl₂.toGrows.valid hvalue)))
        fun _ s₃ _ hl₃ _ => ?_
      refine .bind' (keeps_define (hl₃.bindable hvar)) fun _ s₄ _ hl₄ _ => ?_
      have hl := hl₂.trans (hl₃.trans hl₄)
      refine .mono (ih ((hl₁.trans hl).contextFits hctx) (fun t ht =>
        (hl₁.trans hl).toGrows.definite (harguments t (List.mem_of_mem_tail ht))) fun q hq => ?_)
        fun _ s₅ _ hl₅ hrest name hname => ?_
      · cases arguments with
        | nil => exact hsupplied q (List.mem_cons_of_mem p hq)
        | cons t ts => exact hsupplied q hq
      rcases List.mem_append.mp hname with hname | hname
      · exact (hl.trans hl₅).toGrows.slotted hslots name hname
      · exact hrest name hname
    unfold RunM.typeParameters
    cases arguments with
    | cons t _ =>
      refine .bind' (keeps_lift (keeps_sharedNode (harguments t List.mem_cons_self)))
        fun value s₁ _ hl₁ hvalue => rest value s₁ hl₁ hvalue.2.1 fun name hname => by cases hname
    | nil =>
      cases hfallback : p.fallback with
      | some fallback =>
        refine .bind' (htyper due s ctx fallback hctx) fun value s₁ _ hl₁ hvalue =>
          rest value s₁ hl₁ hvalue.1 ?_
        rw [hfallback]
        exact hvalue.2
      | none =>
        have hp := hsupplied p List.mem_cons_self
        rw [hfallback] at hp
        cases hp

theorem keeps_typeBody (htyper : typer.Sound) {method : Method} {body : Expr} {flow : BodyFlow}
    (howner : r.catalog.Definite owner) (hmethod : r.catalog.Definite method.owner)
    (harguments : ∀ t ∈ arguments, r.catalog.Definite t)
    (hsupplied : ∀ p ∈ method.parameters.drop arguments.length, p.fallback.isSome = true)
    (hflow : flow.Fits r) :
    (running ⟨due, active, none⟩).Keeps r (RunM.typeBody typer owner method body arguments flow active)
      fun _ r' => r'.Slotted owner (assignedDefaults method.parameters arguments ++ body.assigned) := by
  refine keeps_catalog ?_
  intro hr
  have hctx : (⟨owner, r.catalog.subject method.owner, some flow, false, active⟩ : Context).Fits r :=
    ⟨howner, hr.store.catalog.subject hmethod.1, fun b hb => by cases hb; exact hflow⟩
  refine keeps_inFreshScopes ?_ hr
  refine .bind' (keeps_typeParameters (s := ⟨.empty, r⟩) htyper hctx harguments hsupplied)
    fun _ s₁ hs₁ hl₁ hdefaults => ?_
  refine .bind' (htyper due s₁ _ body (hl₁.contextFits hctx)) fun value s₂ hs₂ hl₂ hvalue => ?_
  refine .mono (keeps_lift (keeps_bind ((hl₁.trans hl₂).bindable hflow.result) hvalue.1))
    fun _ s₃ _ hl₃ _ => ?_
  intro name hname
  rcases List.mem_append.mp hname with hname | hname
  · exact (hl₂.trans hl₃).toGrows.slotted hdefaults name hname
  · exact hl₃.toGrows.slotted hvalue.2 name hname

/-- A builtin method has the node of its result's type as its result. -/
theorem keeps_builtinResult (key : Invocation) {b : Builtin}
    (hasks : r.Asks site asked key.arguments)
    (huses : r.catalog.Uses (r.site site) asked key.arguments key.owner key.method)
    (hbody : (r.catalog.method key.method).body = .builtin b)
    (hnone : r.results.get? key = none) (howner : r.catalog.Definite key.owner)
    (harguments : ∀ t ∈ key.arguments, r.catalog.Definite t) :
    (running ⟨due, active, some site⟩).Keeps r (do
      let t ← RunM.ofExcept (r.catalog.builtinType key.owner (r.catalog.method key.method).name b
        key.arguments (r.site site).place)
      let result ← RunM.sharedNode t
      modify fun r => { r with results := r.results.put key result }
      pure result) fun n r' => r'.Valid n ∧ r'.results.get? key = some n := by
  refine .of_good fun hr => ?_
  have hbuiltin : ∀ u ∈ b.types, r.catalog.Definite u := fun u hu => by
    refine hr.store.catalog.methods key.method u (List.mem_append_right _ ?_)
    show u ∈ (r.catalog.method key.method).body.types
    rw [hbody]
    exact hu
  refine .bind' (keeps_ofExcept fun e he =>
    Run.stops_of_refuses hasks (hr.callable.refuses huses hbody he))
    fun t r₁ _ hl₁ ht => ?_
  obtain ⟨rfl, ht⟩ := ht
  have ht := hr.store.catalog.builtinType howner.1 harguments hbuiltin ht
  refine .bind' (keeps_sharedNode ht) fun n r₂ _ hl₂ hn => ?_
  obtain ⟨-, hvalid, hresults⟩ := hn
  have hput : (running ⟨due, active, some site⟩).Keeps r₂
      (modify fun r => { r with results := r.results.put key n } : RunM Unit)
      fun _ r' => r'.Valid n ∧ r'.results.get? key = some n :=
    .modify' (fun hr₂ => by
      obtain ⟨hr₃, hl₃⟩ := hr₂.putBuiltin (by rw [hresults]; exact hnone)
        ((congrArg Method.body (hl₂.toGrows.method_eq key.method)).trans hbody)
        (hl₂.toGrows.definite howner) hvalid
      exact ⟨hr₃, hl₃, hl₃.toGrows.valid hvalid, Table.get?_put_self⟩) (.of_sites rfl)
  exact .bind' hput fun _ r₃ _ _ hput => .pure' fun _ => hput

/-- A method with code is entered before its body is typed, and is complete afterwards. -/
theorem keeps_codeResult (htyper : typer.Sound) (key : Invocation) (frame : Frame) {body : Expr}
    {block : Option BlockFlow} (hs : site.index < r.sites.size)
    (hframe : frame.place = (r.site site).place)
    (htakes : (r.catalog.method key.method).Takes key.arguments)
    (hbody : (r.catalog.method key.method).body = .code body)
    (hnone : r.results.get? key = none) (howner : r.catalog.Definite key.owner)
    (harguments : ∀ t ∈ key.arguments, r.catalog.Definite t)
    (hblock : ∀ flow, block = some flow → flow.Fits r) :
    (running ⟨due, active, some site⟩).Keeps r (do
      let result ← RunM.freshNode (r.catalog.method key.method).place
      modify fun r => r.enterInstance key frame.signature result
      RunM.framed frame (RunM.typeBody typer key.owner (r.catalog.method key.method) body
        key.arguments ⟨result, block⟩ (frame :: active))
      pure result) fun n r' => r'.Valid n ∧ r'.results.get? key = some n := by
  intro hr
  obtain ⟨hr₁, hl₁, hn⟩ := hr.freshPlain (r.catalog.method key.method).place
  -- the new node is nobody's result yet
  obtain ⟨hr₂, hl₂⟩ := hr₁.enterInstance frame.signature hnone
    (hl₁.toGrows.definite howner) hn.1 fun i hi heq =>
    Nat.lt_irrefl _ (heq ▸ hr.instances i hi)
  have hl := hl₁.trans hl₂
  have hflow : (⟨(r.freshNode .plain (r.catalog.method key.method).place).1, block⟩ :
      BodyFlow).Fits _ :=
    ⟨hl₂.bindable hn, fun flow hb => hl.blockFits (hblock flow hb)⟩
  have hmethod : r.catalog.Definite (r.catalog.method key.method).owner :=
    hr.store.catalog.methods key.method _ List.mem_cons_self
  refine keeps_due hr₂ hl rfl (keeps_framed hs hframe (keeps_typeBody htyper (hl.toGrows.definite howner)
    (hl.toGrows.definite hmethod) (fun t ht => hl.toGrows.definite (harguments t ht))
    htakes.supplied hflow)) (fun _ r₃ hr₃ hl₃ hslots => ?_) rfl hr
  refine ⟨_, r₃, rfl, rfl, hr₃.discharge ?_, hl.trans hl₃, (hl₂.trans hl₃).toGrows.valid hn.1,
    hl₃.toGrows.results _ _ Table.get?_put_self⟩
  show r₃.Slotted _ ((r₃.catalog.method key.method).assigned key.arguments)
  rw [(hl.trans hl₃).toGrows.method_eq]
  unfold Method.assigned
  rw [hbody]
  exact hslots

theorem keeps_instantiateMethod (htyper : typer.Sound) (hs : site.index < r.sites.size)
    (howner : r.catalog.Definite owner) (id : MethodHandle)
    (harguments : ∀ t ∈ arguments, r.catalog.Definite t) (hasks : r.Asks site asked arguments)
    (huses : r.catalog.Uses (r.site site) asked arguments owner id) :
    (running ⟨due, active, some site⟩).Keeps r
      (RunM.instantiateMethod typer active site owner id arguments)
      fun n r' => r'.Valid n ∧
        r'.results.get? ((r.site site).invocation site owner id arguments) = some n := by
  unfold RunM.instantiateMethod
  refine keeps_siteAt (.get' ?_)
  dsimp only
  split
  · next n hknown => exact .pure' fun hr => ⟨(hr.results _ n hknown).1, hknown⟩
  · next hnone =>
    refine .of_good fun hr => keeps_catalog ?_
    split
    · next b hbody =>
      exact keeps_builtinResult ((r.site site).invocation site owner id arguments) hasks huses hbody
        hnone howner harguments
    · next body hbody =>
      exact keeps_codeResult htyper ((r.site site).invocation site owner id arguments)
        ⟨r.catalog.instanceText owner (r.catalog.method id).name arguments, (r.site site).place⟩
        hs rfl (hr.callable.takes_of_uses huses) hbody hnone howner harguments (hr.sites site hs).block

/-! ## New values -/

theorem keeps_runInitializer (htyper : typer.Sound) (hs : site.index < r.sites.size)
    (howner : r.catalog.Definite owner) (harguments : ∀ t ∈ arguments, r.catalog.Definite t)
    (hasks : r.Asks site asked arguments)
    (hnew : r.catalog.Initializes (r.site site) asked arguments owner) :
    (running ⟨due, active, some site⟩).Keeps r
      (RunM.runInitializer typer active site owner arguments)
      fun _ r' => r'.Initialized site owner arguments := by
  unfold RunM.runInitializer
  refine .of_good fun hr => keeps_siteAt (keeps_catalog ?_)
  split
  · next id hid =>
    refine .discard' (keeps_instantiateMethod htyper hs howner id harguments hasks
      (.inr ⟨hnew, hid⟩)) fun n r' _ hl hn =>
      ⟨hl.toGrows.definite howner, fun t ht => hl.toGrows.definite (harguments t ht),
        fun id' hid' => ⟨n, ?_⟩⟩
    rw [hl.toGrows.initializing_eq hs, hl.toGrows.extended.select_eq hr.store.catalog howner
      ⟨harguments, howner⟩] at hid'
    obtain rfl : id' = id := Except.ok.inj (hid'.symm.trans hid)
    rw [hl.toGrows.invocation_eq hs]
    exact hn.2
  · next miss hmiss =>
    -- without an initializer there is nothing that would have to be instantiated
    split
    · refine .pure' fun _ => ⟨howner, harguments, fun id hid => ?_⟩
      have := hid.symm.trans hmiss
      cases this
    · next hneeded =>
      exact .throw' fun _ => Run.stops_of_refuses hasks (.initialized hnew hmiss hneeded)

/-- What `new` makes without a definition is no specialization. -/
theorem template_of_constructed {c : Catalog} (hc : c.Sound) {t : Ty}
    (h : c.constructed owner = some t) (hgeneric : c.isGeneric t = true) : c.Template t := by
  unfold Catalog.constructed at h
  split at h
  · next k u hu =>
    split at h
    · next o ho =>
      cases h
      have hlinked := hc.links owner
      rw [hu] at hlinked
      unfold Catalog.isGeneric at hgeneric
      rw [ho] at hgeneric
      exact ⟨o, ho, hgeneric, hlinked o ho⟩
    · cases h
  · cases h

theorem definite_of_constructed {c : Catalog} {t : Ty} (h : c.constructed owner = some t) :
    c.Definite t := by
  unfold Catalog.constructed at h
  split at h
  · split at h
    · next o ho =>
      cases h
      exact ⟨lt_size_of_object ho, by rw [ho]; rfl⟩
    · cases h
  · cases h

/-- The instance variables of a type that have nodes. -/
theorem Run.Sound.mem_slotNodesOf (hr : r.Sound due) {own : Ty} {b : String × Node} :
    b ∈ RunM.slotNodesOf r own ↔ r.slotNodes.get? (own, b.1) = some b.2 := by
  unfold RunM.slotNodesOf Table.get?
  rw [lookup_eq_some_iff_mem hr.slotKeys, List.mem_filterMap]
  constructor
  · rintro ⟨⟨⟨owner, name⟩, n⟩, hentry, heq⟩
    split at heq
    · next howner =>
      cases heq
      exact howner ▸ hentry
    · cases heq
  · exact fun h => ⟨_, h, if_pos rfl⟩

/-- Each instance variable has one node. -/
theorem Run.Sound.nodup_slotNodesOf (hr : r.Sound due) (own : Ty) :
    ((RunM.slotNodesOf r own).map (·.1)).Nodup := by
  have hnames : (RunM.slotNodesOf r own).map (·.1) =
      r.slotNodes.keys.filterMap fun key => if key.1 = own then some key.2 else none := by
    unfold RunM.slotNodesOf Table.keys
    rw [List.map_filterMap, List.filterMap_map]
    refine List.filterMap_congr fun entry _ => ?_
    simp only [Function.comp]
    split <;> rfl
  rw [hnames]
  refine hr.slotKeys.filterMap fun key key' name h h' => ?_
  split at h <;> split at h' <;> simp_all [Prod.ext_iff]

/-- A generic value is done when a provisional type is installed on its node, after its initializer
was typed on a specialization of its class. -/
theorem Run.Sound.closeValue {key : Site × List Ty} (hr : r.Sound (.value key :: due))
    (hs : key.1.index < r.sites.size) {n : Node} (hentered : r.constructions.get? key = some n)
    (hfree : ∀ t p, r.catalog.shape t = .provisional p → p.holder ≠ n) {t own q : Ty}
    (ht : r.catalog.Template t) (hmade : r.Makes key.1 t) (hcopy : r.catalog.Specializes own t)
    (hinitialized : r.Initialized key.1 own key.2)
    (hcomplete : ∀ key m, r.results.get? key = some m → key.owner = own → r.Complete key)
    {s : Store} (h : Store.install t (RunM.slotNodesOf r own) n r.store = .ok q s) :
    (r.withStore s).Sound due ∧ r.Advances n.index r.sites.size (r.withStore s) := by
  have hplays : r.Plays n .value := .inl ⟨key, hentered⟩
  have hobserved : ∀ b ∈ RunM.slotNodesOf r own, r.Valid b.2 := fun b hb =>
    (hr.slotNodes _ _ (hr.mem_slotNodesOf.mp hb)).valid
  obtain ⟨hr', ha, p, hp, hholder, htemplate, hbound⟩ :=
    hr.install hplays hfree ht.definite hobserved h
  have hext := ha.toGrows.extended.toGrows
  refine ⟨hr'.discharge fun m hm => ?_, ha⟩
  obtain rfl : n = m := Option.some.inj (hentered.symm.trans hm)
  exact ⟨t, own, ⟨Nat.lt_of_lt_of_le hs ha.toGrows.sites, hext.template ht,
    ha.toGrows.makes hr.store hs hmade, hext.specializes hcopy, ⟨q, p, hp, hholder, htemplate⟩,
    ha.toGrows.initialized hr.store hs hinitialized⟩, r, ha.toRetains, ⟨q, s, h, .refl _⟩,
    hinitialized, hcomplete,
    ⟨q, p, hp, hholder, htemplate, hbound ▸ hr.nodup_slotNodesOf own,
      fun _ _ => hbound ▸ hr.mem_slotNodesOf⟩⟩

/-- A call goes on to make what it is dispatched to. -/
theorem Run.Grows.initializes {r' : Run} (hg : r.Grows r') (hr : r.store.Sound)
    (hs : site.index < r.sites.size) {t self : Ty} (howner : r.catalog.Definite owner)
    (harguments : ∀ u ∈ arguments, r.catalog.Definite u)
    (hdispatch : r.catalog.dispatch (r.site site) owner arguments = .construct t)
    (hself : self = t ∨ r'.catalog.Specializes self t) :
    r'.catalog.Initializes (r'.site site) owner arguments self := by
  refine ⟨t, ?_, hself⟩
  obtain ⟨targets, hsite⟩ := hg.site site hs
  rw [hsite, hg.extended.dispatch_eq hr.catalog _ howner harguments]
  exact hdispatch

/-- A generic value is made once for a call and its arguments. -/
theorem keeps_constructGeneric (htyper : typer.Sound) (hs : site.index < r.sites.size) {t : Ty}
    (ht : r.catalog.Template t) (hmade : r.Makes site t) (howner : r.catalog.Definite owner)
    (harguments : ∀ u ∈ arguments, r.catalog.Definite u) (hasks : r.Asks site owner arguments)
    (hdispatch : r.catalog.dispatch (r.site site) owner arguments = .construct t)
    (hnone : r.constructions.get? (site, arguments) = none) :
    (running ⟨due, active, some site⟩).Keeps r (do
      let holder ← RunM.freshNode (← RunM.siteAt site).place
      modify fun r => { r with constructions := r.constructions.put (site, arguments) holder }
      let own ← modifyGet fun r => (r.catalog.specialize t []).map id r.withCatalog
      RunM.runInitializer typer active site own arguments
      discard (RunM.onStore (Store.install t (RunM.slotNodesOf (← get) own) holder))
      pure holder) fun n r' => r'.Valid n ∧ r'.constructions.get? (site, arguments) = some n := by
  intro hr
  obtain ⟨hr₁, hl₁, hvalue, hfree⟩ := hr.openValue (r.site site).place hnone
  have ht₁ : (r.openValue (site, arguments) (r.site site).place).catalog.Template t :=
    hl₁.toGrows.extended.toGrows.template ht
  -- nothing is due on the type that is made for the value, which is new
  obtain ⟨hr₂, hl₂⟩ := (hr₁.narrow (ht₁.size_le_specialize [])).withCatalog
    (specialize_extends _ t [])
    (hr₁.store.catalog.specialize ht₁ fun b hb => by cases hb) (.specialize _ t [])
  have hcopy := ht₁.specialize []
  have hl₁₂ := hl₁.trans hl₂
  have hs₂ := Nat.lt_of_lt_of_le hs hl₁₂.toGrows.sites
  have hnew := hl₁₂.toGrows.initializes hr.store hs howner harguments hdispatch (.inr hcopy)
  refine keeps_due hr₂ hl₁₂ rfl (keeps_runInitializer htyper hs₂ hcopy.definite
    (fun u hu => hl₁₂.toGrows.definite (harguments u hu)) (hl₁₂.toGrows.asks hasks) hnew)
    (fun _ r₃ hr₃ hl₃ hinitialized => ?_) rfl hr
  have hl₂₃ := hl₂.trans hl₃
  have hl₁₃ := hl₁.trans hl₂₃
  have hvalid := (hr₁.played _ _ hvalue).1
  have hentered : r₃.constructions.get? (site, arguments) =
      some (r.freshNode .plain (r.site site).place).1 :=
    hl₂₃.toGrows.constructions _ _ Table.get?_put_self
  -- nothing was installed on the new node while the initializer was typed
  have hfree₃ : ∀ t p, r₃.catalog.shape t = .provisional p →
      p.holder ≠ (r.freshNode .plain (r.site site).place).1 := by
    intro u p hp heq
    obtain ⟨u', p', hp', hholder⟩ := hl₂₃.holders u p hp (by rw [heq]; exact hvalid)
    exact hfree u' p' hp' (hholder.trans heq)
  have ht₃ := hl₂₃.toGrows.extended.toGrows.template ht₁
  obtain ⟨q, s, hinstall⟩ := Store.exists_install (s := r₃.store) ht₃.templateOf_eq
    (RunM.slotNodesOf r₃ _) (r.freshNode .plain (r.site site).place).1
  have hcomplete : ∀ key m, r₃.results.get? key = some m →
      key.owner = ((r.openValue (site, arguments) (r.site site).place).catalog.specialize t []).1 →
      r₃.Complete key :=
    fun key m hm howner => (hr₃.complete key m hm).resolve_right fun hdue => by
      obtain ⟨-, hother⟩ := List.mem_filter.mp hdue
      simp [Task.isBodyOn, howner] at hother
  obtain ⟨hr₄, ha₄⟩ := hr₃.closeValue (Nat.lt_of_lt_of_le hs hl₁₃.toGrows.sites) hentered hfree₃
    ht₃ (hl₁₃.toGrows.makes hr.store hs hmade)
    (hl₃.toGrows.extended.toGrows.specializes hcopy) hinitialized hcomplete hinstall
  have hl : r.Leads (r₃.withStore s) :=
    Run.Advances.trans hl₁₃ (ha₄.weaken (Nat.le_refl _) hl₁₃.toGrows.sites)
  refine ⟨_, r₃.withStore s, ?_, rfl, hr₄.weaken fun _ h => (List.mem_filter.mp h).1, hl,
    (hl₂₃.toGrows.trans ha₄.toGrows).valid hvalid, ha₄.toGrows.constructions _ _ hentered⟩
  refine Steps.get_bind_ok.mpr (Steps.bind_ok.mpr ⟨.unit, _, Steps.discard_ok.mpr ⟨q, ?_⟩, rfl⟩)
  exact onStore_ok.mpr ⟨s, hinstall, rfl⟩

theorem keeps_construct (htyper : typer.Sound) (hs : site.index < r.sites.size) {t : Ty}
    (ht : r.catalog.constructed owner = some t) (hmade : r.Makes site t)
    (howner : r.catalog.Definite owner) (harguments : ∀ u ∈ arguments, r.catalog.Definite u)
    (hasks : r.Asks site owner arguments)
    (hdispatch : r.catalog.dispatch (r.site site) owner arguments = .construct t) :
    (running ⟨due, active, some site⟩).Keeps r (RunM.construct typer active site t arguments)
      fun n r' => r'.Valid n ∧ r'.Yields site arguments n (.construct t) := by
  have hdefinite := definite_of_constructed ht
  unfold RunM.construct
  refine .of_good fun hr => keeps_catalog ?_
  cases hgeneric : r.catalog.isGeneric t with
  | false =>
    refine .bind' (keeps_runInitializer htyper hs hdefinite harguments hasks
      ⟨t, hdispatch, .inl rfl⟩) fun _ r₁ hr₁ hl₁ hinit => ?_
    refine .mono (keeps_sharedNode (hl₁.toGrows.definite hdefinite)) fun n r₂ _ hl₂ hn => ?_
    refine ⟨hn.2.1, .inr ⟨?_, hn.1, ?_⟩⟩
    · rw [(hl₁.trans hl₂).toGrows.isGeneric_eq hdefinite.1, hgeneric]
    · exact hl₂.toGrows.initialized hr₁.store (Nat.lt_of_lt_of_le hs hl₁.toGrows.sites) hinit
  | true =>
    -- a value for these arguments is there already, or is made now
    have hgeneric' : ∀ r', r.Leads r' → r'.catalog.isGeneric t = true := fun r' hl =>
      (hl.toGrows.isGeneric_eq hdefinite.1).trans hgeneric
    refine .get' ?_
    split
    · next n hknown =>
      refine .pure' fun _ => ⟨(hr.played n .value (.inl ⟨_, hknown⟩)).1, .inl ⟨hgeneric, hknown⟩⟩
    · next hnone =>
      refine .mono (keeps_constructGeneric htyper hs
        (template_of_constructed hr.store.catalog ht hgeneric) hmade howner harguments hasks
        hdispatch hnone) fun n r' _ hl hn => ⟨hn.1, .inl ⟨hgeneric' r' hl, hn.2⟩⟩

/-! ## Dispatching a call -/

theorem keeps_dispatch (htyper : typer.Sound) (hs : site.index < r.sites.size)
    (howner : r.catalog.Definite owner)
    (hmade : ∀ t, r.catalog.constructed owner = some t → r.Makes site t)
    (harguments : ∀ u ∈ arguments, r.catalog.Definite u) (hasks : r.Asks site owner arguments) :
    (running ⟨due, active, some site⟩).Keeps r
      (RunM.dispatch typer active site owner arguments) fun n r' =>
      r'.Valid n ∧ r'.Yields site arguments n (r.catalog.dispatch (r.site site) owner arguments) := by
  unfold RunM.dispatch
  refine .of_good fun hr => keeps_siteAt (keeps_catalog ?_)
  rcases dispatch_cases r.catalog (r.site site) owner arguments with
    ⟨o, id, heq, ho, -⟩ | ⟨t, heq, ht⟩ | ⟨miss, heq⟩
  · rw [heq]
    have ho : r.catalog.Definite o := by
      rcases ho with rfl | rfl
      · exact howner
      · exact hr.store.catalog.builtin (by decide)
    refine .mono (keeps_instantiateMethod htyper hs ho id harguments hasks (.inl heq))
      fun n r' _ hl hn => ⟨hn.1, ?_⟩
    show r'.results.get? _ = _
    rw [hl.toGrows.invocation_eq hs]
    exact hn.2
  · rw [heq]
    exact keeps_construct htyper hs ht (hmade t ht) howner harguments hasks heq
  · rw [heq]
    exact .throw' fun _ => Run.stops_of_refuses hasks (.dispatched heq)

/-- All nodes that a call yields for some combinations are collected, and no others. -/
structure Collected (r : Run) (site : Site) (c : Catalog) (combinations : List (Ty × List Ty))
    (old new : List Node) : Prop where
  valid : ∀ n ∈ new, r.Valid n
  kept : ∀ n ∈ old, n ∈ new
  answered : ∀ one ∈ combinations,
    ∃ n ∈ new, r.Yields site one.2 n (c.dispatch (r.site site) one.1 one.2)
  wanted : ∀ n ∈ new, n ∈ old ∨ ∃ one ∈ combinations,
    r.Yields site one.2 n (c.dispatch (r.site site) one.1 one.2)

theorem keeps_dispatchAll (htyper : typer.Sound) {c : Catalog} (hc : c.Sound)
    {combinations : List (Ty × List Ty)} {targets : List Node} (hs : site.index < r.sites.size)
    (hext : c.Extends r.catalog)
    (hdefinite : ∀ one ∈ combinations, c.Definite one.1 ∧ ∀ u ∈ one.2, c.Definite u)
    (hmade : ∀ one ∈ combinations, ∀ t, c.constructed one.1 = some t → r.Makes site t)
    (hasks : ∀ one ∈ combinations, r.Asks site one.1 one.2)
    (htargets : ∀ n ∈ targets, r.Valid n) :
    (running ⟨due, active, some site⟩).Keeps r
      (RunM.dispatchAll typer active site combinations targets)
      fun new r' => Collected r' site c combinations targets new := by
  induction combinations generalizing r targets with
  | nil =>
    exact .pure' fun _ => ⟨htargets, fun _ h => h, fun _ h => (by cases h), fun _ h => .inl h⟩
  | cons one rest ih =>
    obtain ⟨howner, harguments⟩ := hdefinite one List.mem_cons_self
    have hgrow : ∀ t, c.Definite t → r.catalog.Definite t := fun t => hext.toGrows.definite
    refine .of_good fun hr => ?_
    refine .bind' (keeps_dispatch htyper hs (hgrow _ howner) (fun t ht => ?_)
      (fun u hu => hgrow u (harguments u hu)) (hasks one List.mem_cons_self))
      fun n r₁ hr₁ hl₁ hn => ?_
    · rw [hext.constructed_eq hc howner] at ht
      exact hmade one List.mem_cons_self t ht
    -- what is dispatched on later catalogs is what was dispatched on the one at the start
    rw [hext.dispatch_eq hc _ howner harguments, ← hl₁.untouched site hs] at hn
    have hs₁ := Nat.lt_of_lt_of_le hs hl₁.toGrows.sites
    have hmade₁ : ∀ o ∈ rest, ∀ t, c.constructed o.1 = some t → r₁.Makes site t := fun o ho t ht =>
      hl₁.toGrows.makes hr.store hs (hmade o (List.mem_cons_of_mem _ ho) t ht)
    refine .mono (ih hs₁ (hext.trans hl₁.toGrows.extended)
      (fun o ho => hdefinite o (List.mem_cons_of_mem _ ho)) hmade₁
      (fun o ho => hl₁.toGrows.asks (hasks o (List.mem_cons_of_mem _ ho))) fun m hm => ?_)
      fun new r₂ _ hl₂ h => ?_
    · rcases Graph.mem_addOnce.mp hm with rfl | hm
      · exact hn.1
      · exact hl₁.toGrows.valid (htargets m hm)
    · have hy := hl₂.toGrows.yields hr₁.store hs₁ hn.2
      rw [← hl₂.untouched site hs₁] at hy
      have hmem := h.kept n (Graph.mem_addOnce.mpr (.inl rfl))
      refine ⟨h.valid, fun m hm => h.kept m (Graph.mem_addOnce.mpr (.inr hm)), fun o ho => ?_,
        fun m hm => ?_⟩
      · rcases List.mem_cons.mp ho with rfl | ho
        · exact ⟨n, hmem, hy⟩
        · exact h.answered o ho
      · rcases h.wanted m hm with hm | ⟨o, ho, hyields⟩
        · rcases Graph.mem_addOnce.mp hm with rfl | hm
          · exact .inr ⟨one, List.mem_cons_self, hy⟩
          · exact .inl hm
        · exact .inr ⟨o, List.mem_cons_of_mem _ ho, hyields⟩

end FlowTyping
