import FlowTyping.Proofs.Inference.Casting

/-
  Binding a call anew

  The result of a call is unbound from the targets that are outdated and bound
  to those that are new. It then depends on the new targets and on nothing else
  (`Sound.retarget`), and no other node with a role is touched.
-/
namespace FlowTyping.Run

open Catalog

variable {r r' : Run} {n : Node} {due : List Task}

/-- What binding and unbinding one node any number of times does to a store. -/
structure Rebinds (n : Node) (s s' : Store) : Prop where
  advances : s.Advances (· = n) s'
  works : s.Works s'
  steady : s.catalog.Steady s'.catalog
  unwatched : s.Unwatched s'

namespace Rebinds

variable {s s' s'' : Store}

theorem refl (hs : s.Sound) (hb : s.Balanced []) : Rebinds n s s :=
  ⟨.refl hs hb, .refl, .refl _, .refl _⟩

theorem trans (h₁ : Rebinds n s s') (h₂ : Rebinds n s' s'') : Rebinds n s s'' :=
  ⟨h₁.advances.trans h₂.advances, h₁.works.trans h₂.works, h₁.steady.trans h₂.steady, h₁.unwatched.trans h₂.unwatched⟩

/-- A plain node without a provisional type stays one. -/
theorem loose (h : Rebinds n s s') (hn : n.index < s.graph.size)
    (hplain : (s.graph.cell n).kind = .plain) (hloose : s.Loose n) :
    (s'.graph.cell n).kind = .plain ∧ s'.Loose n := by
  have hkind := (h.advances.kind n hn).trans hplain
  exact ⟨hkind, fun t p hp => hloose.unheld t p (h.steady t p hp), .inl hkind⟩

end Rebinds

/-- Unbinding takes the listed dependencies away. -/
theorem unbindAll (l : List Node) (hs : r.store.Sound) (hb : r.store.Balanced [])
    (hn : n.index < r.graph.size) (hplain : (r.graph.cell n).kind = .plain)
    (hloose : r.store.Loose n) :
    ∃ store, l.foldl (fun r d => r.unbind n d) r = r.withStore store ∧
      Rebinds n r.store store ∧
      ∀ e, e ∈ store.graph.dependencies n ↔ e ∈ r.graph.dependencies n ∧ e ∉ l := by
  induction l generalizing r with
  | nil => exact ⟨r.store, rfl, .refl hs hb, fun e => by simp; rfl⟩
  | cons d l ih =>
    have hone : Rebinds n r.store (r.store.unbind n d) :=
      ⟨.unbind hs hb n d, .single (.unbind d hloose), Store.unbind_steady _ _ _, .unbind _ _ _⟩
    obtain ⟨hplain', hloose'⟩ := hone.loose hn hplain hloose
    obtain ⟨store, heq, hrest, hdeps⟩ := ih (r := r.unbind n d) hone.advances.sound
      hone.advances.balanced (Nat.lt_of_lt_of_le hn hone.advances.size) hplain' hloose'
    refine ⟨store, heq, hone.trans hrest, fun e => ?_⟩
    rw [hdeps]
    show e ∈ (r.store.unbind n d).graph.dependencies n ∧ _ ↔ _
    rw [Store.mem_dependencies_unbind hn]
    simp [and_assoc]
    exact fun _ _ => Iff.rfl

/-- Binding adds the listed dependencies. -/
theorem bindAll (l : List Node) (hs : r.store.Sound) (hb : r.store.Balanced [])
    (hn : n.index < r.graph.size) (hplain : (r.graph.cell n).kind = .plain)
    (hloose : r.store.Loose n) (hl : ∀ d ∈ l, d.index < r.graph.size) :
    ∃ store, l.foldl (fun r d => r.bind n d) r = r.withStore store ∧
      Rebinds n r.store store ∧
      ∀ e, e ∈ store.graph.dependencies n ↔ e ∈ r.graph.dependencies n ∨ e ∈ l := by
  induction l generalizing r with
  | nil => exact ⟨r.store, rfl, .refl hs hb, fun e => by simp; rfl⟩
  | cons d l ih =>
    have hone : Rebinds n r.store (r.store.bind n d) :=
      ⟨.bind hs hb n (hl d List.mem_cons_self), .single (.bind hloose (hl d List.mem_cons_self)),
        Store.bind_steady _ _ _, .bind _ _ _⟩
    obtain ⟨hplain', hloose'⟩ := hone.loose hn hplain hloose
    obtain ⟨store, heq, hrest, hdeps⟩ := ih (r := r.bind n d) hone.advances.sound
      hone.advances.balanced (Nat.lt_of_lt_of_le hn hone.advances.size) hplain' hloose'
      fun e he => Nat.lt_of_lt_of_le (hl e (List.mem_cons_of_mem d he)) hone.advances.size
    refine ⟨store, heq, hone.trans hrest, fun e => ?_⟩
    rw [hdeps]
    show e ∈ (r.store.bind n d).graph.dependencies n ∨ _ ↔ _
    rw [Store.mem_dependencies_bind hn]
    simp [or_assoc]
    rfl

theorem site_modify (r : Run) (site other : Site) (f : CallSite → CallSite) :
    Run.site { r with sites := r.sites.modify site.index f } other =
      if other = site ∧ site.index < r.sites.size then f (r.site site) else r.site other := by
  unfold Run.site
  rw [Array.getElem?_modify]
  by_cases h : site.index = other.index
  · obtain rfl : site = other := by
      cases site; cases other
      exact congrArg Site.mk h
    by_cases hlt : site.index < r.sites.size
    · simp [hlt]
    · simp [hlt]
  · have : other ≠ site := fun e => h (congrArg Site.index e).symm
    simp [h, this]

/-- What `retarget` makes of a run. -/
theorem retarget_eq {site : Site} {targets : List Node} (hs : r.store.Sound)
    (hb : r.store.Balanced []) (hn : (r.site site).result.index < r.graph.size)
    (hplain : (r.graph.cell (r.site site).result).kind = .plain)
    (hloose : r.store.Loose (r.site site).result)
    (hdeps : ∀ d, d ∈ r.graph.dependencies (r.site site).result ↔ d ∈ (r.site site).targets)
    (hvalid : ∀ d ∈ targets, r.Valid d) :
    ∃ store, RunM.retarget r site targets = { r.withStore store with
        sites := r.sites.modify site.index fun call => { call with targets := targets } } ∧
      Rebinds (r.site site).result r.store store ∧
      ∀ d, d ∈ store.graph.dependencies (r.site site).result ↔ d ∈ targets := by
  obtain ⟨s₁, h₁, hr₁, hd₁⟩ := unbindAll
    ((r.site site).targets.filter fun n => !targets.contains n) hs hb hn hplain hloose
  obtain ⟨hplain₁, hloose₁⟩ := hr₁.loose hn hplain hloose
  obtain ⟨s₂, h₂, hr₂, hd₂⟩ := bindAll (r := r.withStore s₁)
    (targets.filter fun n => !(r.site site).targets.contains n) hr₁.advances.sound
    hr₁.advances.balanced (Nat.lt_of_lt_of_le hn hr₁.advances.size) hplain₁ hloose₁ fun d hd =>
      Nat.lt_of_lt_of_le (hvalid d (List.mem_filter.mp hd).1) hr₁.advances.size
  refine ⟨s₂, ?_, hr₁.trans hr₂, fun d => ?_⟩
  · unfold RunM.retarget
    dsimp only
    rw [h₁, h₂]
    rfl
  · rw [hd₂]
    show d ∈ s₁.graph.dependencies _ ∨ _ ↔ _
    rw [hd₁, hdeps]
    by_cases hold : d ∈ (r.site site).targets <;> by_cases hnew : d ∈ targets <;> simp [hold, hnew]

/-- In the second run one call has other targets and is bound to these. Nothing else has changed. -/
structure Retargets (r r' : Run) (site : Site) (targets : List Node) : Prop where
  rebinds : Rebinds (r.site site).result r.store r'.store
  bound : ∀ d, d ∈ r'.graph.dependencies (r.site site).result ↔ d ∈ targets
  calls : ∀ other, r'.site other =
    if other = site then { r.site site with targets := targets } else r.site other
  count : r'.sites.size = r.sites.size
  sharedNodes : r'.sharedNodes = r.sharedNodes
  constructions : r'.constructions = r.constructions
  results : r'.results = r.results
  slotNodes : r'.slotNodes = r.slotNodes
  constantNodes : r'.constantNodes = r.constantNodes
  instances : r'.instances = r.instances

namespace Retargets

variable {site : Site} {targets : List Node} {m : Node} {a : Role}

theorem plays (h : Retargets r r' site targets) : r'.Plays m a ↔ r.Plays m a := by
  cases a with
  | result other =>
    show _ ∧ _ ↔ _ ∧ _
    rw [h.count, h.calls]
    split
    · next heq => rw [heq]
    · exact Iff.rfl
  | shared t =>
    show r'.sharedNodes.get? t = _ ↔ _
    rw [h.sharedNodes]
    exact Iff.rfl
  | value =>
    show (∃ key, r'.constructions.get? key = _) ∨ _ ↔ _
    rw [h.constructions]
    exact plays_withStore h.rebinds.steady h.rebinds.advances.catalog.toGrows m .value

/-- Only the result of the call plays the result of the call. -/
theorem ne_result (hr : r.Sound due) (hs : site.index < r.sites.size) (hp : r.Plays m a)
    (hne : a ≠ .result site) : m ≠ (r.site site).result := by
  rintro rfl
  exact hne (hr.roles _ _ _ hp ⟨hs, rfl⟩)

/-- No other node with a role is bound anew. -/
theorem dependencies (h : Retargets r r' site targets) (hr : r.Sound due)
    (hs : site.index < r.sites.size) (hp : r.Plays m a) (hne : a ≠ .result site) :
    r'.graph.dependencies m = r.graph.dependencies m :=
  h.rebinds.advances.dependencies m (hr.played m a hp).1 (ne_result hr hs hp hne)

theorem grows (h : Retargets r r' site targets) : r.Grows r' := by
  refine .of_store (h.rebinds.advances.weaken fun _ _ => trivial) h.rebinds.works
    h.rebinds.unwatched (Nat.le_of_eq h.count.symm) (fun s _ => ?_) (fun key m hm => h.results ▸ hm)
    (fun key m hm => h.constructions ▸ hm) (fun key m hm => h.slotNodes ▸ hm)
    (fun t m hm => h.sharedNodes ▸ hm) fun t m hm => .inl (h.sharedNodes ▸ hm)
  rw [h.calls]
  split
  · next heq => exact ⟨targets, by rw [heq]⟩
  · exact ⟨_, rfl⟩

/-- Every node with a role fills it still, the result of the call with its new targets. -/
theorem fills (h : Retargets r r' site targets) (hr : r.Sound due) (hs : site.index < r.sites.size)
    (hp : r.Plays m a) : r'.Fills m a := by
  obtain ⟨hvalid, hfills⟩ := hr.played m a hp
  cases a with
  | result other =>
    refine ⟨(h.grows.store.kind m hvalid).trans hfills.1, fun d => ?_⟩
    by_cases heq : other = site
    · subst heq
      obtain rfl : (r.site other).result = m := hp.2
      rw [h.calls, if_pos rfl]
      exact h.bound d
    · rw [h.calls, if_neg heq, h.dependencies hr hs hp (by simp [heq])]
      exact hfills.2 d
  | shared t =>
    obtain ⟨hdefinite, htype, hnone⟩ := hfills
    have hheld := h.rebinds.advances.held m hvalid (ne_result hr hs hp (by simp)) hnone
    exact ⟨h.grows.definite hdefinite, Eq.trans hheld htype,
      (h.dependencies hr hs hp (by simp)).trans hnone⟩
  | value => exact (h.dependencies hr hs hp (by simp)).trans hfills

theorem held (h : Retargets r r' site targets) (hr : r.Sound due)
    (hs : site.index < r.sites.size) : r'.store.Held := by
  refine hr.held.advance hr.store h.rebinds.advances h.rebinds.steady fun t p hp => ?_
  obtain ⟨hplays, hlt, hnone⟩ := hr.kept hp
  exact ⟨hlt, ne_result hr hs hplays (by simp), hnone⟩

/-- Such a step keeps a run sound while the call is due: whether its targets are the right ones is
left to be shown. -/
theorem sound (h : Retargets r r' site targets) (hr : r.Sound due) (hs : site.index < r.sites.size)
    (hdue : .call site ∈ due) : r'.Sound due := by
  have hgrows := h.grows
  have hnothing : Enters due r r' :=
    hgrows.entersNothing hr h.count h.results h.instances h.slotNodes h.constantNodes h.constructions
  refine hgrows.toRetains.sound hr hnothing (List.Subset.refl _) hgrows.store.sound
    hgrows.store.balanced (h.held hr hs)
    (fun m a b ha hb => hr.roles m a b (h.plays.mp ha) (h.plays.mp hb))
    (fun m a hp => ⟨hgrows.valid (hr.played m a (h.plays.mp hp)).1, h.fills hr hs (h.plays.mp hp)⟩)
    (fun m hm => ⟨hgrows.valid hm.valid, (hgrows.store.kind m hm.valid).trans hm.plain,
      fun a hp => hm.free a (h.plays.mp hp)⟩) fun other hlt => ?_
  by_cases heq : other = site
  · exact .inr (heq ▸ hdue)
  · refine (hr.attended other hlt).imp_left
      (hgrows.attended hr.store hlt (hr.sites other hlt) ?_)
    rw [h.calls, if_neg heq]

/-- Earlier calls and nodes are left alone. -/
theorem advances (h : Retargets r r' site targets) (hr : r.Sound due)
    (hs : site.index < r.sites.size) :
    r.Advances (r.site site).result.index site.index r' := by
  refine ⟨h.grows, .of_unwatched h.rebinds.unwatched, fun other hlt => ?_, fun m a _ => h.plays, fun m a hlt hp => ?_,
    fun t p hp _ => ⟨t, p, h.rebinds.steady t p hp, rfl⟩⟩
  · rw [h.calls, if_neg fun heq => Nat.lt_irrefl _ (heq ▸ hlt)]
  · refine h.dependencies hr hs hp fun heq => ?_
    subst heq
    obtain rfl : (r.site site).result = m := hp.2
    exact Nat.lt_irrefl _ hlt

end Retargets

/-- A call that is bound to other targets depends on these alone. Whether they are the right ones
is left to be shown. -/
theorem Sound.retarget (hr : r.Sound due) {site : Site} {targets : List Node}
    (hs : site.index < r.sites.size) (hdue : .call site ∈ due) (hvalid : ∀ d ∈ targets, r.Valid d) :
    (RunM.retarget r site targets).Sound due ∧ r.Grows (RunM.retarget r site targets) ∧
      (RunM.retarget r site targets).site site = { r.site site with targets := targets } ∧
      r.Advances (r.site site).result.index site.index (RunM.retarget r site targets) ∧
      (RunM.retarget r site targets).sites.size = r.sites.size := by
  obtain ⟨hv, hkind, hdeps⟩ := hr.played (r.site site).result (.result site) ⟨hs, rfl⟩
  have hloose : r.store.Loose (r.site site).result := by
    refine ⟨fun t p hp hholder => ?_, .inl hkind⟩
    cases hr.roles _ .value (.result site) (hr.kept hp).1 ⟨hs, hholder.symm⟩
  obtain ⟨store, heq, hre, hnew⟩ :=
    retarget_eq hr.store hr.balanced hv hkind hloose hdeps hvalid
  have h : Retargets r (RunM.retarget r site targets) site targets := by
    rw [heq]
    refine ⟨hre, hnew, fun other => ?_, Array.size_modify, rfl, rfl, rfl, rfl, rfl, rfl⟩
    refine (site_modify (r.withStore store) site other _).trans ?_
    by_cases h : other = site
    · rw [if_pos ⟨h, hs⟩, if_pos h]
      rfl
    · rw [if_neg fun h' => h h'.1, if_neg h]
      rfl
  refine ⟨h.sound hr hs hdue, h.grows, ?_, h.advances hr hs, h.count⟩
  rw [h.calls, if_pos rfl]

end FlowTyping.Run
