import FlowTyping.Proofs.Inference.Calls

/-
  Resolving a call

  A call that is resolved ends bound to what it yields for the types that its
  receiver and arguments had at the start. If one of these has changed while
  bodies were typed, its node is dirty and the call will be woken
  (`rebindCall_ok`). A call is entered together with a new node for its result
  and is resolved at once (`enterCall_ok`).
-/
namespace FlowTyping

open Catalog

variable {typer : Typer} {due : List Task} {r r' : Run} {site : Site} {active : List Frame}

namespace Run

/-- The targets of a call have no part in what it is resolved for. -/
theorem combinations_targets (r : Run) (call : CallSite) (targets : List Node) :
    r.combinations { call with targets := targets } = r.combinations call := rfl

/-- A call for which some watched node has no type yet is bound to the right targets. -/
theorem Sound.current_of_none (hr : r.Sound due) (hs : site.index < r.sites.size)
    (h : r.combinations (r.site site) = none) : r.Current site := by
  refine ⟨r.catalog, hr.store.catalog, .refl _, (hr.sites site hs).caller,
    fun n _ t ht => hr.store.typed n t ht, fun all hall => ?_, fun all hall => ?_⟩
  all_goals
    have := h.symm.trans hall
    cases this

/-- A call that is bound to what was collected for it is attended to: either its receiver and
arguments still have the types that this was collected for, or one of their nodes is dirty. -/
theorem Grows.attended_of_collected (hg : r.Grows r') (hr : r.Sound due)
    (hs : site.index < r.sites.size) {all : List (Ty × List Ty)} {targets : List Node}
    (hall : r.combinations (r.site site) = some all)
    (hsite : r'.site site = { r.site site with targets := targets })
    (hcollected : Collected r' site r.catalog all [] targets) : r'.Attended site := by
  -- unless a watched node has changed, the combinations are those that were dispatched
  by_cases hdirty : ∃ n ∈ (r'.site site).watched, r'.graph.dirtyAt n = true
  · exact .inr hdirty
  · have hwatched : (r'.site site).watched = (r.site site).watched := by rw [hsite]; rfl
    have hcaller : (r'.site site).caller = (r.site site).caller := by rw [hsite]
    have htargets : (r'.site site).targets = targets := by rw [hsite]
    have htypes : ∀ n ∈ (r.site site).watched, r'.graph.typeAt n = r.graph.typeAt n := by
      intro n hn
      refine (hg.store.types n ((hr.sites site hs).watched n hn).1).resolve_right fun hd => ?_
      exact hdirty ⟨n, hwatched ▸ hn, hd⟩
    have hcombinations : (r'.withCatalog r.catalog).combinations (r'.site site) = some all := by
      rw [hsite, combinations_targets, ← hall]
      exact combinations_congr fun n hn => congrArg (Option.map r.catalog.members) (htypes n hn)
    refine .inl ⟨r.catalog, hr.store.catalog, hg.extended, hcaller ▸ (hr.sites site hs).caller,
      fun n hn t ht => ?_, fun found hfound => ?_, fun found hfound n hn => ?_⟩
    · rw [hwatched] at hn
      exact hr.store.typed n t ((htypes n hn).symm.trans ht)
    · obtain rfl : all = found := Option.some.inj (hcombinations.symm.trans hfound)
      rw [htargets]
      exact hcollected.answered
    · obtain rfl : all = found := Option.some.inj (hcombinations.symm.trans hfound)
      rw [htargets] at hn
      exact (hcollected.wanted n hn).resolve_left fun h => by cases h

/-- What was collected stays so while the run grows. -/
theorem Grows.collected (hg : r.Grows r') (hr : r.store.Sound) (hs : site.index < r.sites.size)
    {c : Catalog} {all : List (Ty × List Ty)} {old new : List Node}
    (h : Collected r site c all old new) : Collected r' site c all old new := by
  have hdispatch : c.dispatch (r'.site site) = c.dispatch (r.site site) := by
    obtain ⟨targets, heq⟩ := hg.site site hs
    rw [heq]
    rfl
  refine ⟨fun n hn => hg.valid (h.valid n hn), h.kept, fun one hone => ?_, fun n hn => ?_⟩
  · obtain ⟨n, hn, hy⟩ := h.answered one hone
    exact ⟨n, hn, hdispatch ▸ hg.yields hr hs hy⟩
  · refine (h.wanted n hn).imp_right ?_
    rintro ⟨one, hone, hy⟩
    exact ⟨one, hone, hdispatch ▸ hg.yields hr hs hy⟩

end Run

open Run

/-- A member of the type of the receiver makes what it makes for the call. -/
theorem Run.Sound.makes (hr : r.Sound due) (hs : site.index < r.sites.size) {owner t : Ty}
    {arguments : List Ty} (hchoice : r.Chooses (r.site site) owner arguments)
    (howner : r.catalog.Definite owner) (ht : r.catalog.constructed owner = some t) :
    r.Makes site t := by
  intro d hd
  have hholds := hchoice.owner
  rw [hd] at hholds
  obtain ⟨v, hv, hmember⟩ := hholds
  have hwatched : d ∈ (r.site site).watched := mem_watched_of_receiver hd
  refine ⟨((hr.sites site hs).watched d hwatched).1, fun u hu => ?_⟩
  obtain ⟨-, hdefinite, htype, -⟩ := hr.played d (.shared u) hu
  obtain rfl : u = v := Option.some.inj (htype.symm.trans hv)
  exact ⟨hdefinite, owner, hmember, howner, ht⟩

/-- A call is dispatched for all types that its receiver and arguments have. -/
theorem keeps_combinations (htyper : typer.Sound) (hs : site.index < r.sites.size)
    {all : List (Ty × List Ty)} (hall : r.combinations (r.site site) = some all) :
    (running ⟨due, active, some site⟩).Keeps r (RunM.dispatchAll typer active site all [])
      fun targets r' => Collected r' site r.catalog all [] targets := by
  refine .of_good fun hr => ?_
  have hdefinite : ∀ one ∈ all, r.catalog.Definite one.1 ∧ ∀ t ∈ one.2, r.catalog.Definite t :=
    fun one hone => ((mem_combinations hall).mp hone).definite hr.store.catalog
      (hr.sites site hs).caller fun n _ t ht => hr.store.typed n t ht
  exact keeps_dispatchAll htyper hr.store.catalog hs (.refl _)
    hdefinite (fun one hone t ht => hr.makes hs ((mem_combinations hall).mp hone)
      (hdefinite one hone).1 ht) (fun one hone => ⟨r, .refl hr.store hr.balanced, (mem_combinations hall).mp hone⟩)
    fun n hn => by cases hn

/-- If a call cannot be resolved, it is to blame or what was typed for it. -/
theorem rebindCall_stops (htyper : typer.Sound) (hr : r.Sound due) (hs : site.index < r.sites.size)
    {halt : Halt} (h : RunM.rebindCall typer active site r = .error halt r') :
    r.Stops active (some site) halt r' := by
  rw [show RunM.rebindCall typer active site r = _ from Steps.get_bind_eq] at h
  cases hall : r.combinations (r.site site) with
  | none =>
    simp only [hall] at h
    cases h
  | some all =>
    simp only [hall] at h
    rcases Steps.bind_error.mp h with h | ⟨targets, r₁, -, h⟩
    · exact (keeps_combinations htyper hs hall hr).error halt r' h
    · cases h

/-- A call that is resolved is attended to afterwards. -/
theorem rebindCall_ok (htyper : typer.Sound) (hr : r.Sound due) (hs : site.index < r.sites.size)
    (hdue : .call site ∈ due) {u : Unit} (h : RunM.rebindCall typer active site r = .ok u r') :
    r'.Sound due ∧ r'.Attended site ∧
      r.Advances (r.site site).result.index site.index r' := by
  have h := Steps.get_bind_ok.mp h
  cases hall : r.combinations (r.site site) with
  | none =>
    simp only [hall] at h
    obtain ⟨-, rfl⟩ := Steps.pure_ok.mp h
    exact ⟨hr, .inl (hr.current_of_none hs hall), .refl hr.store hr.balanced⟩
  | some all =>
    simp only [hall] at h
    obtain ⟨targets, r₁, h₁, h₂⟩ := Steps.bind_ok.mp h
    obtain rfl := Steps.modify_ok.mp h₂
    obtain ⟨hr₁, hl₁, hcollected⟩ := (keeps_combinations htyper hs hall hr).ok _ _ h₁
    have hs₁ := Nat.lt_of_lt_of_le hs hl₁.toGrows.sites
    have hsite₁ := hl₁.untouched site hs
    obtain ⟨hr₂, hg₂, hsite₂, ha₂, -⟩ := hr₁.retarget hs₁ hdue hcollected.valid
    have hresult := (hr.played (r.site site).result (.result site) ⟨hs, rfl⟩).1
    rw [hsite₁] at hsite₂ ha₂
    exact ⟨hr₂, (hl₁.toGrows.trans hg₂).attended_of_collected hr hs hall hsite₂
      (hg₂.collected hr₁.store hs₁ hcollected),
      (hl₁.weaken (Nat.le_of_lt hresult) (Nat.le_of_lt hs)).trans ha₂⟩

/-- The calls that are entered while a call is resolved lie inside the instances that are typed
for it. -/
theorem rebindCall_nests (htyper : typer.Sound) (hr : r.Sound due) (hs : site.index < r.sites.size)
    (hdue : .call site ∈ due) :
    r.Nests active (some site) (Steps.left (RunM.rebindCall typer active site r)) := by
  rw [show RunM.rebindCall typer active site r = _ from Steps.get_bind_eq]
  cases hall : r.combinations (r.site site) with
  | none => exact .of_sites rfl
  | some all =>
    dsimp only
    obtain ⟨hok, -, henters⟩ := keeps_combinations htyper hs hall hr
    rw [Steps.bind_eq]
    cases hact : RunM.dispatchAll typer active site all [] r with
    | error halt r₁ =>
      rw [hact] at henters
      exact henters
    | ok targets r₁ =>
      rw [hact] at henters
      obtain ⟨hr₁, hl₁, hcollected⟩ := hok _ _ hact
      obtain ⟨-, hg₂, -, -, hcount⟩ :=
        hr₁.retarget (Nat.lt_of_lt_of_le hs hl₁.toGrows.sites) hdue hcollected.valid
      exact Nests.trans henters (.of_retains hg₂.toRetains hcount)

variable {place : Place} {call : CallSite}

/-- A call is entered together with a new node for its result, and resolved. -/
theorem keeps_enterCall (htyper : typer.Sound)
    (hresult : call.result = (r.freshNode .plain place).1) (htargets : call.targets = [])
    (hwatched : ∀ n ∈ call.watched, r.Valid n) (hcaller : r.catalog.Definite call.caller)
    (hblock : ∀ block, call.block = some block → block.Fits r) :
    (running ⟨due, call.frames, none⟩).Keeps r
      (RunM.freshNode place >>= fun _ => RunM.enterCall typer call)
      fun _ r' => r'.Valid call.result := by
  intro hr
  obtain ⟨hr₁, hl₁⟩ := hr.openCall hresult htargets hwatched hcaller hblock
  have hsites : ((r.freshNode .plain place).2.enterSite call).sites.size = r.sites.size + 1 :=
    Array.size_push call
  have hsite := site_enterSite_new (r.freshNode .plain place).2 call
  have hs : (⟨r.sites.size⟩ : Site).index <
      ((r.freshNode .plain place).2.enterSite call).sites.size := by
    rw [hsites]
    exact Nat.lt_succ_self _
  have hkept : ∀ s : Site, s.index < r.sites.size →
      ((r.freshNode .plain place).2.enterSite call).site s = r.site s := fun s hlt =>
    site_enterSite_old (r.freshNode .plain place).2 call hlt
  have heq : (RunM.freshNode place >>= fun _ => RunM.enterCall typer call) r =
      RunM.rebindCall typer call.frames ⟨r.sites.size⟩
        ((r.freshNode .plain place).2.enterSite call) := rfl
  have hnests : ((r.freshNode .plain place).2.enterSite call).Nests call.frames
      (some ⟨r.sites.size⟩) (Steps.left (RunM.rebindCall typer call.frames ⟨r.sites.size⟩
        ((r.freshNode .plain place).2.enterSite call))) :=
    rebindCall_nests htyper hr₁ hs List.mem_cons_self
  refine ⟨fun u r' h => ?_, fun halt r' h => ?_, ?_⟩
  · obtain ⟨hr', hattended, ha⟩ :=
      rebindCall_ok htyper hr₁ hs List.mem_cons_self (heq.symm.trans h)
    have hnew : (((r.freshNode .plain place).2.enterSite call).site ⟨r.sites.size⟩).result =
        call.result := congrArg CallSite.result hsite
    have hv := (hr₁.played _ (.result ⟨r.sites.size⟩) ⟨hs, rfl⟩).1
    rw [hnew] at ha hv
    refine ⟨hr'.discharge hattended, ?_, ha.toGrows.valid hv⟩
    rw [hresult] at ha
    exact Run.Advances.trans hl₁ ha
  · have hact := heq.symm.trans h
    rw [hact] at hnests
    cases halt with
    | failed e =>
      have hframes := (hnests.kept _ hs).1.trans (congrArg CallSite.frames hsite)
      exact Blames.of_first (rebindCall_stops htyper hr₁ hs hact) hl₁.toRetains (Nat.le_refl _)
        (Nat.lt_of_lt_of_le hs hnests.size) hframes
    | _ => trivial
  · rw [heq]
    exact hnests.of_first hsites hkept rfl (congrArg CallSite.frames hsite)

end FlowTyping
