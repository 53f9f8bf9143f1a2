import FlowTyping.Proofs.Inference.Advance

/-
  Single steps of a run

  A step works on the store and may give one new node a role (`Run.Step`). The
  steps that a run consists of keep it sound: adding nodes, binding those that
  have no role, letting the catalog grow, and entering what was made in a table.
-/
namespace FlowTyping.Run

open Catalog

/-! ## What is entered -/

/-- What is entered in the tables of a run is as it should be, and what is begun with it is done or
due. -/
structure Enters (due : List Task) (r r' : Run) : Prop where
  sites : ∀ s : Site, s.index < r'.sites.size →
    s.index < r.sites.size ∨ ((r'.site s).Fits s r' ∧ .call s ∈ due)
  results : ∀ key n, r'.results.get? key = some n →
    r.results.get? key = some n ∨
      (r'.Valid n ∧ r'.catalog.Definite key.owner ∧ (r'.Complete key ∨ .body key ∈ due))
  typed : ∀ key n, r'.results.get? key = some n →
    ∀ body, (r'.catalog.method key.method).body = .code body → r'.typings n = 1
  instances : ∀ i ∈ r'.instances, i ∈ r.instances ∨ r'.Valid i.result
  slotNodes : ∀ key n, r'.slotNodes.get? key = some n →
    r.slotNodes.get? key = some n ∨ r'.Bindable n
  slotKeys : r'.slotNodes.keys.Nodup
  constantNodes : ∀ t n, r'.constantNodes.get? t = some n →
    r.constantNodes.get? t = some n ∨ r'.Valid n
  constructions : ∀ key n, r'.constructions.get? key = some n →
    r.constructions.get? key = some n ∨ .value key ∈ due

variable {r r' : Run} {new n : Node} {role : Role} {due : List Task}

/-- A run stays sound if what it enters is as it should be. What becomes of the store, of the nodes
that have a role and of the calls that were there is shown apart. -/
theorem Retains.sound {due' : List Task} (h : r.Retains r') (hr : r.Sound due)
    (he : Enters due' r r') (hdue : due ⊆ due') (hstore : r'.store.Sound)
    (hbalanced : r'.store.Balanced []) (hheld : r'.store.Held)
    (hroles : ∀ n a b, r'.Plays n a → r'.Plays n b → a = b)
    (hplayed : ∀ n a, r'.Plays n a → r'.Valid n ∧ r'.Fills n a)
    (hbindable : ∀ n, r.Bindable n → r'.Bindable n)
    (hattended : ∀ s : Site, s.index < r.sites.size → r'.Attended s ∨ .call s ∈ due') :
    r'.Sound due' where
  store := hstore
  balanced := hbalanced
  held := hheld
  roles := hroles
  played := hplayed
  sites s hs := by
    rcases he.sites s hs with hold | ⟨hnew, -⟩
    · exact h.callFits hbindable hold (hr.sites s hold)
    · exact hnew
  results key n hn := by
    refine ⟨?_, he.typed key n hn⟩
    rcases he.results key n hn with hold | ⟨hnew, -⟩
    · exact h.valid (hr.results key n hold).1
    · exact hnew
  owners key n hn := by
    rcases he.results key n hn with hold | ⟨-, hnew, -⟩
    · exact h.definite (hr.owners key n hold)
    · exact hnew
  instances i hi := (he.instances i hi).elim (fun hold => h.valid (hr.instances i hold)) id
  slotNodes key n hn :=
    (he.slotNodes key n hn).elim (fun hold => hbindable n (hr.slotNodes key n hold)) id
  constantNodes t n hn :=
    (he.constantNodes t n hn).elim (fun hold => h.valid (hr.constantNodes t n hold)) id
  attended s hs := by
    rcases he.sites s hs with hold | ⟨-, hnew⟩
    · exact hattended s hold
    · exact .inr hnew
  complete key n hn := by
    rcases he.results key n hn with hold | ⟨-, -, hnew⟩
    · exact (hr.complete key n hold).imp h.complete (@hdue _)
    · exact hnew
  built key n hn := by
    rcases he.constructions key n hn with hold | hnew
    · exact (hr.built key n hold).imp (h.built hr.store) (@hdue _)
    · exact .inr hnew
  watching := h.entered hr
  slotKeys := he.slotKeys
  callable := hr.callable.of_extends h.extended
  array := h.extended.toGrows.template hr.array

theorem Retains.entersNothing {due' : List Task} (h : r.Retains r') (hr : r.Sound due)
    (hsites : r'.sites.size = r.sites.size) (hresults : r'.results = r.results)
    (hinstances : r'.instances = r.instances) (hslotNodes : r'.slotNodes = r.slotNodes)
    (hconstantNodes : r'.constantNodes = r.constantNodes)
    (hconstructions : r'.constructions = r.constructions) : Enters due' r r' where
  sites s hs := .inl (hsites ▸ hs)
  results key n hn := .inl (hresults ▸ hn)
  typed key n hn body hbody := by
    rw [h.method_eq] at hbody
    unfold typings
    rw [hinstances]
    exact (hr.results key n (hresults ▸ hn)).2 body hbody
  instances i hi := .inl (hinstances ▸ hi)
  slotNodes key n hn := .inl (hslotNodes ▸ hn)
  slotKeys := hslotNodes ▸ hr.slotKeys
  constantNodes t n hn := .inl (hconstantNodes ▸ hn)
  constructions key n hn := .inl (hconstructions ▸ hn)

/-! ## Steps -/

/-- What one step does: nodes that have a role keep it and what they depend on, and at most one new
node is cast. -/
structure Step (r r' : Run) (new : Node) (role : Role) : Prop extends Grows r r' where
  newcomers : r.Newcomers r'
  untouched : ∀ s : Site, s.index < r.sites.size → r'.site s = r.site s
  held : r'.store.Held
  plays : ∀ n a, r.Plays n a → r'.Plays n a
  cast : ∀ n a, r'.Plays n a → r.Plays n a ∨
    (n = new ∧ a = role ∧ r.graph.size ≤ n.index ∧ r'.Valid n ∧ r'.Fills n a)
  dependencies : ∀ n a, r.Plays n a → r'.graph.dependencies n = r.graph.dependencies n
  shared : ∀ t n, r.sharedNodes.get? t = some n → r'.graph.typeAt n = r.graph.typeAt n

namespace Step

theorem plays_iff (h : r.Step r' new role) (hn : r.Valid n) (a : Role) :
    r'.Plays n a ↔ r.Plays n a := by
  refine ⟨fun hp => (h.cast n a hp).resolve_right fun hnew => ?_, h.plays n a⟩
  exact absurd hn (Nat.not_lt.mpr hnew.2.2.1)

theorem bindable (h : r.Step r' new role) (hn : r.Bindable n) : r'.Bindable n :=
  ⟨h.toGrows.valid hn.valid, (h.store.kind n hn.valid).trans hn.plain,
    fun a hp => hn.free a ((h.plays_iff hn.valid a).mp hp)⟩

theorem roles (h : r.Step r' new role) (hr : r.Sound due) :
    ∀ n a b, r'.Plays n a → r'.Plays n b → a = b := by
  intro n a b ha hb
  rcases h.cast n a ha with ha | ⟨-, rfl, hle, -⟩
  · exact hr.roles n a b ha ((h.plays_iff (hr.played n a ha).1 b).mp hb)
  · rcases h.cast n b hb with hb | ⟨-, rfl, -⟩
    · exact absurd (hr.played n b hb).1 (Nat.not_lt.mpr hle)
    · rfl

theorem fills (h : r.Step r' new role) {a : Role} (hv : r.Valid n) (hp : r.Plays n a)
    (hf : r.Fills n a) : r'.Fills n a := by
  have hdeps := h.dependencies n a hp
  cases a with
  | result site =>
    refine ⟨(h.store.kind n hv).trans hf.1, fun d => ?_⟩
    rw [hdeps, h.untouched site hp.1]
    exact hf.2 d
  | shared t => exact ⟨h.toGrows.definite hf.1, (h.shared t n hp).trans hf.2.1, hdeps.trans hf.2.2⟩
  | value => exact hdeps.trans hf

theorem played (h : r.Step r' new role) (hr : r.Sound due) :
    ∀ n a, r'.Plays n a → r'.Valid n ∧ r'.Fills n a := by
  intro n a hp
  rcases h.cast n a hp with hp | ⟨-, -, -, hv, hf⟩
  · obtain ⟨hv, hf⟩ := hr.played n a hp
    exact ⟨h.toGrows.valid hv, h.fills hv hp hf⟩
  · exact ⟨hv, hf⟩

theorem advances {nodes calls : Nat} (h : r.Step r' new role) (hn : nodes ≤ r.graph.size)
    (hs : calls ≤ r.sites.size)
    (hholders : ∀ t p, r'.catalog.shape t = .provisional p → p.holder.index < nodes →
      ∃ t' p', r.catalog.shape t' = .provisional p' ∧ p'.holder = p.holder) :
    r.Advances nodes calls r' :=
  ⟨h.toGrows, h.newcomers, fun s hlt => h.untouched s (Nat.lt_of_lt_of_le hlt hs),
    fun _ a hlt => h.plays_iff (Nat.lt_of_lt_of_le hlt hn) a,
    fun n a _ => h.dependencies n a, hholders⟩

theorem leads_of_continues (h : r.Step r' new role) (hc : r.store.Continues r'.store) :
    r.Leads r' :=
  h.advances (Nat.le_refl _) (Nat.le_refl _) fun t p hp _ => by
    obtain ⟨t', p', hp', hholder, -⟩ := hc t p hp
    exact ⟨t', p', hp', hholder⟩

/-- A step keeps a run sound if what it enters is as it should be, or due. -/
theorem sound {due' : List Task} (h : r.Step r' new role) (hr : r.Sound due)
    (he : Enters due' r r') (hdue : due ⊆ due') : r'.Sound due' :=
  h.toRetains.sound hr he hdue h.store.sound h.store.balanced h.held (h.roles hr)
    (h.played hr) (fun _ => h.bindable) fun s hs => (hr.attended s hs).imp
      (h.toGrows.attended hr.store hs (hr.sites s hs) (h.untouched s hs)) (@hdue _)

/-- A step that only works on the store and on the nodes of fixed types keeps a run sound. -/
theorem sound_of_same (h : r.Step r' new role) (hr : r.Sound due) (hsites : r'.sites = r.sites)
    (hresults : r'.results = r.results) (hinstances : r'.instances = r.instances)
    (hslotNodes : r'.slotNodes = r.slotNodes) (hconstantNodes : r'.constantNodes = r.constantNodes)
    (hconstructions : r'.constructions = r.constructions) : r'.Sound due :=
  h.sound hr (h.toGrows.entersNothing hr (congrArg Array.size hsites) hresults hinstances hslotNodes
    hconstantNodes hconstructions) (List.Subset.refl _)

end Step

/-! ## Steps on the store -/

/-- A run with another store. -/
def withStore (r : Run) (store : Store) : Run := { r with store := store }

theorem Sound.kept (hr : r.Sound due) {t : Ty} {p : Provisional}
    (hp : r.catalog.shape t = .provisional p) :
    r.Plays p.holder .value ∧ p.holder.index < r.graph.size ∧
      r.graph.dependencies p.holder = [] := by
  have hplays : r.Plays p.holder .value := .inr ⟨t, p, hp, rfl⟩
  obtain ⟨hv, hf⟩ := hr.played _ _ hplays
  exact ⟨hplays, hv, hf⟩

theorem plays_withStore {store : Store} (hsteady : r.catalog.Steady store.catalog)
    (hgrows : r.catalog.Grows store.catalog) (n : Node) (a : Role) :
    (r.withStore store).Plays n a ↔ r.Plays n a := by
  cases a with
  | result site => exact Iff.rfl
  | shared t => exact Iff.rfl
  | value =>
    refine or_congr Iff.rfl (exists_congr fun t => exists_congr fun p => ?_)
    exact and_congr_left' (hsteady.provisional_iff hgrows)

/-- A step on the store that touches no provisional type and binds no node with a role. -/
theorem Sound.step (hr : r.Sound due) {free : Node → Prop} {store : Store}
    (ha : r.store.Advances free store) (hworks : r.store.Works store)
    (hsteady : r.catalog.Steady store.catalog)
    (hunwatched : r.store.Unwatched store) (hfree : ∀ n, free n → ∀ a, ¬ r.Plays n a) :
    r.Step (r.withStore store) ⟨r.graph.size⟩ .value := by
  have hplays := plays_withStore hsteady ha.catalog.toGrows
  have hnot : ∀ n a, r.Plays n a → r.Valid n ∧ ¬ free n := fun n a hp =>
    ⟨(hr.played n a hp).1, fun hf => hfree n hf a hp⟩
  have hgrows : r.Grows (r.withStore store) := .of_store (ha.weaken fun _ _ => trivial) hworks
    hunwatched (Nat.le_refl _) (fun s _ => ⟨_, rfl⟩) (fun _ _ h => h) (fun _ _ h => h) (fun _ _ h => h)
    (fun _ _ h => h) fun _ _ h => .inl h
  refine ⟨hgrows, .of_unwatched hunwatched, fun _ _ => rfl, ?_,
    fun n a => (hplays n a).mpr, fun n a hp => .inl ((hplays n a).mp hp), fun n a hp => ?_,
    fun t n hn => ?_⟩
  · refine hr.held.advance hr.store ha hsteady fun t p hp => ?_
    obtain ⟨hplays, hv, hd⟩ := hr.kept hp
    exact ⟨hv, (hnot _ _ hplays).2, hd⟩
  · exact ha.dependencies n (hnot n a hp).1 (hnot n a hp).2
  · have hp : r.Plays n (.shared t) := hn
    exact ha.held n (hnot n _ hp).1 (hnot n _ hp).2 (hr.played n _ hp).2.2.2

/-- Such a step keeps a run sound. -/
theorem Sound.withStore (hr : r.Sound due) {free : Node → Prop} {store : Store}
    (ha : r.store.Advances free store) (hworks : r.store.Works store)
    (hsteady : r.catalog.Steady store.catalog)
    (hunwatched : r.store.Unwatched store) (hfree : ∀ n, free n → ∀ a, ¬ r.Plays n a) :
    (r.withStore store).Sound due ∧ r.Leads (r.withStore store) := by
  have h := hr.step ha hworks hsteady hunwatched hfree
  exact ⟨h.sound_of_same hr rfl rfl rfl rfl rfl rfl, h.leads_of_continues (.of_steady hsteady)⟩

theorem Sound.freshNode (hr : r.Sound due) (kind : CellKind) (place : Place) :
    (r.freshNode kind place).2.Sound due ∧ r.Leads (r.freshNode kind place).2 ∧
      (r.freshNode kind place).2.Ready (r.freshNode kind place).1 := by
  have ha : r.store.Advances (fun _ => False) ⟨r.catalog, (r.graph.add kind none place).2⟩ :=
    .add hr.store hr.balanced kind place fun t ht => by cases ht
  obtain ⟨hs, hl⟩ := hr.withStore ha (.single (.add kind none place fun t ht => by cases ht))
    (.refl _) (.add _ _ _ _) fun _ => False.elim
  refine ⟨hs, hl, ?_, .inr ?_, fun a hp => ?_⟩
  · exact r.graph.size_lt_size_add kind none place
  · exact congrArg Cell.dependencies (r.graph.cell_add_new kind none place)
  · have hp := (plays_withStore (.refl _) ha.catalog.toGrows _ a).mp hp
    exact absurd (hr.played _ _ hp).1 (Nat.lt_irrefl _)

/-- A new plain node may be bound by anything. -/
theorem Sound.freshPlain (hr : r.Sound due) (place : Place) :
    (r.freshNode .plain place).2.Sound due ∧ r.Leads (r.freshNode .plain place).2 ∧
      (r.freshNode .plain place).2.Bindable (r.freshNode .plain place).1 := by
  obtain ⟨hs, hl, hn⟩ := hr.freshNode .plain place
  exact ⟨hs, hl, hn.valid, congrArg Cell.kind (r.graph.cell_add_new .plain none place), hn.free⟩

theorem Sound.loose (hr : r.Sound due) (hn : r.Ready n) : r.store.Loose n :=
  ⟨fun _ _ hp hholder => hn.free .value (hholder ▸ (hr.kept hp).1), hn.unbound⟩

theorem Sound.bind (hr : r.Sound due) {d : Node} (hn : r.Ready n) (hd : r.Valid d) :
    (r.bind n d).Sound due ∧ r.Leads (r.bind n d) :=
  hr.withStore (.bind hr.store hr.balanced n hd) (.single (.bind (hr.loose hn) hd))
    (Store.bind_steady _ _ _) (.bind _ _ _) fun _ hm => hm ▸ hn.free

theorem Sound.withCatalog (hr : r.Sound due) {c : Catalog} (hext : r.catalog.Extends c)
    (hc : c.Sound) (happends : r.catalog.Appends c) :
    (r.withCatalog c).Sound due ∧ r.Leads (r.withCatalog c) :=
  hr.withStore (Store.Advances.extend hr.store hr.balanced hext hc)
    (.single (.extend hext hc happends)) happends.steady
    (.of_watchers_eq fun _ => rfl) fun _ => False.elim

/-! ## Steps on tables -/

/-- A step that leaves the store alone and casts no node. -/
theorem Sound.step_tables (hr : r.Sound due) (r' : Run) (hstore : r'.store = r.store)
    (hsites : r'.sites = r.sites) (hsharedNodes : r'.sharedNodes = r.sharedNodes)
    (hconstructions : r'.constructions = r.constructions)
    (hresults : ∀ key n, r.results.get? key = some n → r'.results.get? key = some n)
    (hslotNodes : ∀ key n, r.slotNodes.get? key = some n → r'.slotNodes.get? key = some n) :
    r.Step r' ⟨r.graph.size⟩ .value ∧ r.Leads r' := by
  have hsite : ∀ s, r'.site s = r.site s := fun s => by unfold site; rw [hsites]
  have hgraph : r'.graph = r.graph := congrArg Store.graph hstore
  have hplays : ∀ n a, r'.Plays n a ↔ r.Plays n a := by
    intro n a
    cases a with
    | result s =>
      show _ ∧ _ ↔ _ ∧ _
      rw [hsites, hsite]
    | shared t =>
      show r'.sharedNodes.get? t = _ ↔ _
      rw [hsharedNodes]
      exact Iff.rfl
    | value =>
      show _ ∨ _ ↔ _ ∨ _
      unfold catalog
      rw [hconstructions, hstore]
  have hstep : r.Step r' ⟨r.graph.size⟩ .value := by
    have hgrows : r.Grows r' := .of_store (by rw [hstore]; exact .refl hr.store hr.balanced)
      (by rw [hstore]; exact .refl) (by rw [hstore]; exact .refl _)
      (Nat.le_of_eq (by rw [hsites])) (fun s _ => ⟨_, hsite s⟩)
      hresults (fun key n h => hconstructions ▸ h) hslotNodes (fun t n h => hsharedNodes ▸ h)
      fun t n h => .inl (hsharedNodes ▸ h)
    refine ⟨hgrows, .of_unwatched (by rw [hstore]; exact .refl _), fun s _ => hsite s, hstore ▸ hr.held,
      fun n a => (hplays n a).mpr, fun n a hp => .inl ((hplays n a).mp hp),
      fun n a _ => by rw [hgraph], fun t n _ => by rw [hgraph]⟩
  exact ⟨hstep, hstep.leads_of_continues fun t p hp => ⟨t, p, hstore ▸ hp, rfl, rfl⟩⟩

/-- What a run is asked about later has no part in its invariant. -/
theorem Sound.congr (hr : r.Sound due) (hstore : r'.store = r.store) (hsites : r'.sites = r.sites)
    (hsharedNodes : r'.sharedNodes = r.sharedNodes)
    (hconstructions : r'.constructions = r.constructions) (hresults : r'.results = r.results)
    (hslotNodes : r'.slotNodes = r.slotNodes) (hinstances : r'.instances = r.instances)
    (hconstantNodes : r'.constantNodes = r.constantNodes) : r'.Sound due ∧ r.Leads r' := by
  obtain ⟨hstep, hl⟩ := hr.step_tables r' hstore hsites hsharedNodes hconstructions
    (fun key n h => hresults ▸ h) (fun key n h => hslotNodes ▸ h)
  exact ⟨hstep.sound_of_same hr hsites hresults hinstances hslotNodes hconstantNodes hconstructions,
    hl⟩

theorem Sound.putSlot (hr : r.Sound due) {key : Ty × String} (hnone : r.slotNodes.get? key = none)
    (hn : r.Bindable n) :
    Sound due { r with slotNodes := r.slotNodes.put key n } ∧
      r.Leads { r with slotNodes := r.slotNodes.put key n } := by
  obtain ⟨hstep, hl⟩ := hr.step_tables { r with slotNodes := r.slotNodes.put key n }
    rfl rfl rfl rfl (fun _ _ h => h) (Table.get?_put_of_none hnone)
  refine ⟨hstep.sound hr ⟨fun _ => .inl, fun _ _ => .inl, fun key m hm => (hr.results key m hm).2,
    fun _ => .inl, fun other m hm => ?_, Table.nodup_keys_put hr.slotKeys, fun _ _ => .inl,
    fun _ _ => .inl⟩ (List.Subset.refl _), hl⟩
  rcases Table.of_get?_put hm with ⟨-, rfl⟩ | hm
  · exact .inr (hstep.bindable hn)
  · exact .inl hm

theorem Sound.putConstant (hr : r.Sound due) (t : Ty) (hn : r.Valid n) :
    Sound due { r with constantNodes := r.constantNodes.put t n } ∧
      r.Leads { r with constantNodes := r.constantNodes.put t n } := by
  obtain ⟨hstep, hl⟩ := hr.step_tables { r with constantNodes := r.constantNodes.put t n }
    rfl rfl rfl rfl (fun _ _ h => h) (fun _ _ h => h)
  refine ⟨hstep.sound hr ⟨fun _ => .inl, fun _ _ => .inl, fun key m hm => (hr.results key m hm).2,
    fun _ => .inl, fun _ _ => .inl, hr.slotKeys, fun other m hm => ?_, fun _ _ => .inl⟩
    (List.Subset.refl _), hl⟩
  rcases Table.of_get?_put hm with ⟨-, rfl⟩ | hm
  · exact .inr hn
  · exact .inl hm

/-- A builtin method has its result at once. -/
theorem Sound.putBuiltin (hr : r.Sound due) {key : Invocation} {b : Builtin}
    (hnone : r.results.get? key = none) (hbody : (r.catalog.method key.method).body = .builtin b)
    (howner : r.catalog.Definite key.owner) (hn : r.Valid n) :
    Sound due { r with results := r.results.put key n } ∧
      r.Leads { r with results := r.results.put key n } := by
  obtain ⟨hstep, hl⟩ := hr.step_tables { r with results := r.results.put key n }
    rfl rfl rfl rfl (Table.get?_put_of_none hnone) (fun _ _ h => h)
  -- nothing is assigned where there is no code
  have hcomplete : Complete { r with results := r.results.put key n } key := by
    show Slotted _ _ ((r.catalog.method key.method).assigned _)
    unfold Method.assigned
    rw [hbody]
    exact fun name hname => by cases hname
  refine ⟨hstep.sound hr ⟨fun _ => .inl, fun other m hm => ?_, fun other m hm body hcode => ?_,
    fun _ => .inl, fun _ _ => .inl, hr.slotKeys, fun _ _ => .inl, fun _ _ => .inl⟩
    (List.Subset.refl _), hl⟩
  · rcases Table.of_get?_put hm with ⟨rfl, rfl⟩ | hm
    · exact .inr ⟨hn, howner, .inl hcomplete⟩
    · exact .inl hm
  · rcases Table.of_get?_put hm with ⟨rfl, rfl⟩ | hm
    · exact absurd (hbody.symm.trans hcode) (by simp)
    · exact (hr.results other m hm).2 body hcode

/-- The result of an instance and the instance itself. -/
def enterInstance (r : Run) (key : Invocation) (signature : String) (n : Node) : Run :=
  { r with
    results := r.results.put key n
    instances := r.instances.push ⟨signature, n⟩ }

/-- An instance is entered under a node that is no result yet; its body is then due. -/
theorem Sound.enterInstance (hr : r.Sound due) {key : Invocation} (signature : String)
    (hnone : r.results.get? key = none) (howner : r.catalog.Definite key.owner) (hn : r.Valid n)
    (hnew : ∀ i ∈ r.instances, i.result ≠ n) :
    (r.enterInstance key signature n).Sound (.body key :: due) ∧
      r.Leads (r.enterInstance key signature n) := by
  obtain ⟨hstep, hl⟩ := hr.step_tables (r.enterInstance key signature n)
    rfl rfl rfl rfl (Table.get?_put_of_none hnone) (fun _ _ h => h)
  have htypings : ∀ m, (r.enterInstance key signature n).typings m =
      r.typings m + if n = m then 1 else 0 := by
    intro m
    unfold typings Run.enterInstance
    rw [Array.toList_push, List.countP_append]
    simp
  have hzero : r.typings n = 0 := by
    refine List.countP_eq_zero.mpr fun i hi => ?_
    simpa using hnew i (Array.mem_toList_iff.mp hi)
  refine ⟨hstep.sound hr ⟨fun _ => .inl, fun other m hm => ?_, fun other m hm body hbody => ?_,
    fun i hi => ?_, fun _ _ => .inl, hr.slotKeys, fun _ _ => .inl, fun _ _ => .inl⟩
    (List.subset_cons_self _ _), hl⟩
  · rcases Table.of_get?_put hm with ⟨rfl, rfl⟩ | hm
    · exact .inr ⟨hn, howner, .inr List.mem_cons_self⟩
    · exact .inl hm
  · rw [htypings]
    rcases Table.of_get?_put hm with ⟨rfl, rfl⟩ | hm
    · rw [hzero, if_pos rfl]
    · have hone := (hr.results other m hm).2 body hbody
      rw [hone, if_neg]
      -- the result of another instance has been counted
      rintro rfl
      rw [hzero] at hone
      cases hone
  · rcases Array.mem_push.mp hi with hi | rfl
    · exact .inl hi
    · exact .inr hn

/-- What it takes for a task to be done. -/
def Done (r : Run) : Task → Prop
  | .call site => r.Attended site
  | .body key => r.Complete key
  | .value key => ∀ n, r.constructions.get? key = some n → r.Built key n

theorem done_or_due {done : Prop} {task other : Task} (h : done ∨ other ∈ task :: due)
    (hdone : task = other → done) : done ∨ other ∈ due := by
  rcases h with h | h
  · exact .inl h
  · rcases List.mem_cons.mp h with heq | h
    · exact .inl (hdone heq.symm)
    · exact .inr h

/-- A task that is done is no longer due. -/
theorem Sound.discharge {task : Task} (hr : r.Sound (task :: due)) (hdone : r.Done task) :
    r.Sound due :=
  { hr with
    attended := fun s hs => done_or_due (hr.attended s hs) fun h => by
      subst h
      exact hdone
    complete := fun key n hn => done_or_due (hr.complete key n hn) fun h => by
      subst h
      exact hdone
    built := fun key n hn => done_or_due (hr.built key n hn) fun h => by
      subst h
      exact hdone n hn }

/-- More may be due than there is to do. -/
theorem Sound.weaken {due' : List Task} (hr : r.Sound due) (h : due ⊆ due') : r.Sound due' :=
  { hr with
    attended := fun s hs => (hr.attended s hs).imp_right (@h _)
    complete := fun key n hn => (hr.complete key n hn).imp_right (@h _)
    built := fun key n hn => (hr.built key n hn).imp_right (@h _) }

/-- No body is due on a type that is still to be entered. -/
theorem Sound.narrow (hr : r.Sound due) {owner : Ty} (hnew : r.catalog.size ≤ owner.index) :
    r.Sound (due.filter fun task => !task.isBodyOn owner) :=
  { hr with
    attended := fun s hs => (hr.attended s hs).imp_right fun h => List.mem_filter.mpr ⟨h, rfl⟩
    complete := fun key n hn => (hr.complete key n hn).imp_right fun h =>
      List.mem_filter.mpr ⟨h, by
        have hne : key.owner ≠ owner := fun heq =>
          Nat.not_lt.mpr hnew (heq ▸ (hr.owners key n hn).1)
        simpa [Task.isBodyOn] using hne⟩
    built := fun key n hn => (hr.built key n hn).imp_right fun h => List.mem_filter.mpr ⟨h, rfl⟩ }

/-! ## Steps that cast a node -/

theorem sharedNode_found {t : Ty} (h : r.sharedNodes.get? t = some n) :
    r.sharedNode t = (n, r) := by
  unfold Run.sharedNode
  rw [h]

theorem sharedNode_new {t : Ty} (h : r.sharedNodes.get? t = none) :
    r.sharedNode t = (⟨r.graph.size⟩,
      { r.withGraph (r.graph.add .plain (some t) .synthesized).2 with
        sharedNodes := r.sharedNodes.put t ⟨r.graph.size⟩ }) := by
  unfold Run.sharedNode
  rw [h]
  rfl

/-- The node of a fixed type is found, or is new and is cast for that. -/
theorem Sound.sharedNode (hr : r.Sound due) {t : Ty} (ht : r.catalog.Definite t) :
    (r.sharedNode t).2.Sound due ∧ r.Leads (r.sharedNode t).2 ∧
      (r.sharedNode t).2.sharedNodes.get? t = some (r.sharedNode t).1 ∧
      (r.sharedNode t).2.slotNodes = r.slotNodes ∧ (r.sharedNode t).2.results = r.results := by
  cases hfound : r.sharedNodes.get? t with
  | some n =>
    rw [sharedNode_found hfound]
    exact ⟨hr, .refl hr.store hr.balanced, hfound, rfl, rfl⟩
  | none =>
    rw [sharedNode_new hfound]
    have ha : r.store.Advances (fun _ => False)
        ⟨r.catalog, (r.graph.add .plain (some t) .synthesized).2⟩ :=
      .add hr.store hr.balanced .plain .synthesized fun u hu => by cases hu; exact ht.1
    have hwork : r.store.Work ⟨r.catalog, (r.graph.add .plain (some t) .synthesized).2⟩ :=
      .add .plain (some t) .synthesized fun u hu => by cases hu; exact ht.1
    have hbase := hr.step ha (.single hwork) (.refl _) (.add _ _ _ _) fun _ => False.elim
    have hplays := plays_withStore (r := r) (.refl _) ha.catalog.toGrows
    have hcell := r.graph.cell_add_new .plain (some t) .synthesized
    have hstep : r.Step { r.withGraph (r.graph.add .plain (some t) .synthesized).2 with
        sharedNodes := r.sharedNodes.put t ⟨r.graph.size⟩ } ⟨r.graph.size⟩ (.shared t) := by
      refine ⟨.of_store hbase.store hbase.works (.add _ _ _ _) hbase.sites hbase.site hbase.results
        hbase.constructions hbase.slotNodes (Table.get?_put_of_none hfound) fun u m hm => ?_,
        hbase.newcomers, hbase.untouched, hbase.held, fun m a hp => ?_,
        fun m a hp => ?_, hbase.dependencies, hbase.shared⟩
      · rcases Table.of_get?_put hm with ⟨-, rfl⟩ | hm
        · exact .inr (Nat.le_refl _)
        · exact .inl hm
      · cases a with
        | shared u => exact Table.get?_put_of_none hfound u m hp
        | result s => exact hbase.plays m _ hp
        | value => exact hbase.plays m _ hp
      · cases a with
        | shared u =>
          rcases Table.of_get?_put hp with ⟨rfl, rfl⟩ | hp
          · exact .inr ⟨rfl, rfl, Nat.le_refl _,
              r.graph.size_lt_size_add .plain (some u) .synthesized, ht, congrArg Cell.type hcell,
              congrArg Cell.dependencies hcell⟩
          · exact .inl hp
        | result s => exact .inl ((hplays m (.result s)).mp hp)
        | value => exact .inl ((hplays m .value).mp hp)
    exact ⟨hstep.sound_of_same hr rfl rfl rfl rfl rfl rfl,
      hstep.leads_of_continues (.of_steady (.refl _)), Table.get?_put_self, rfl, rfl⟩

end FlowTyping.Run
