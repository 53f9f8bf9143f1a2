import FlowTyping.Proofs.Inference.Step

/-
  Steps that begin something

  Instance variables get nodes that anything may bind. A generic value and a
  call get new nodes with a role, and with them something to be done.
-/
namespace FlowTyping.Run

open Catalog

variable {r r' : Run} {n : Node} {due : List Task}

/-- The node of an instance variable is found or new. -/
theorem Sound.slotNode (hr : r.Sound due) (owner : Ty) (name : String) :
    (r.slotNode owner name).2.Sound due ∧ r.Leads (r.slotNode owner name).2 ∧
      (r.slotNode owner name).2.slotNodes.get? (owner, name) = some (r.slotNode owner name).1 := by
  cases hfound : r.slotNodes.get? (owner, name) with
  | some n =>
    have heq : r.slotNode owner name = (n, r) := by
      unfold Run.slotNode
      rw [hfound]
    rw [heq]
    exact ⟨hr, .refl hr.store hr.balanced, hfound⟩
  | none =>
    obtain ⟨hs₁, hl₁, hb₁⟩ := hr.freshPlain .synthesized
    -- however the new node was seeded, it is then entered
    have put : ∀ r₂ : Run, r₂.Sound due → (r.freshNode .plain .synthesized).2.Leads r₂ →
        r₂.slotNodes = r.slotNodes →
        Sound due { r₂ with slotNodes := r₂.slotNodes.put (owner, name) ⟨r.graph.size⟩ } ∧
        r.Leads { r₂ with slotNodes := r₂.slotNodes.put (owner, name) ⟨r.graph.size⟩ } ∧
        (r₂.slotNodes.put (owner, name) ⟨r.graph.size⟩).get? (owner, name) =
          some ⟨r.graph.size⟩ := by
      intro r₂ hs₂ hl₂ hsame
      obtain ⟨hs₃, hl₃⟩ := hs₂.putSlot (by rw [hsame]; exact hfound) (hl₂.bindable hb₁)
      exact ⟨hs₃, hl₁.trans (hl₂.trans hl₃), Table.get?_put_self⟩
    unfold Run.slotNode
    rw [hfound]
    dsimp only
    split
    · next declared hdeclared =>
      obtain ⟨hs₂, hl₂, hnode, hsame, -⟩ := hs₁.sharedNode (hs₁.store.catalog.slot? hdeclared)
      have hseed := (hs₂.played _ (.shared declared) hnode).1
      obtain ⟨hs₃, hl₃⟩ := hs₂.bind (hl₂.bindable hb₁).ready hseed
      exact put _ hs₃ (hl₂.trans hl₃) hsame
    · exact put _ hs₁ (.refl hs₁.store hs₁.balanced) rfl

/-! ## Generic values -/

/-- A provisional type that is installed casts its holder and no other node. -/
theorem plays_of_install {template t : Ty} {observed : List (String × Node)} {holder : Node}
    {store s : Store} (hs : store.Sound) (hsteady : r.catalog.Steady store.catalog)
    (hvalid : holder.index < store.graph.size) (htemplate : store.catalog.Definite template)
    (h : Store.install template observed holder store = .ok t s) {a : Role}
    (hp : (r.withStore s).Plays n a) : r.Plays n a ∨ (n = holder ∧ a = .value) := by
  obtain ⟨p, u, -, hholder, hline, hothers⟩ := Store.install_line hs hvalid htemplate h
  cases a with
  | result s => exact .inl hp
  | shared t => exact .inl hp
  | value =>
    rcases hp with hp | ⟨v, q, hq, hh⟩
    · exact .inl (.inl hp)
    · rcases hothers v q hq with rfl | hq'
      · obtain rfl : p = q := Shape.provisional.inj (hline.shape.symm.trans hq)
        exact .inr ⟨hh.symm.trans hholder, rfl⟩
      · exact .inl (.inr ⟨v, q, hsteady v q hq', hh⟩)

/-- A provisional type is installed on a node that plays the part of a value, or is new. -/
theorem Sound.install_step (hr : r.Sound due) {free : Node → Prop} {store : Store}
    (ha : r.store.Advances free store) (hworks : r.store.Works store)
    (hsteady : r.catalog.Steady store.catalog)
    (hunwatched : r.store.Unwatched store) (hfree : ∀ n, free n → ∀ a, ¬ r.Plays n a)
    {template t : Ty} {observed : List (String × Node)} {holder : Node} {s : Store}
    (hplays : r.Plays holder .value ∨ r.graph.size ≤ holder.index)
    (hvalid : holder.index < store.graph.size) (hdeps : store.graph.dependencies holder = [])
    (hnone : ∀ t p, r.catalog.shape t = .provisional p → p.holder ≠ holder)
    (htemplate : store.catalog.Definite template)
    (hobserved : ∀ b ∈ observed, b.2.index < store.graph.size)
    (h : Store.install template observed holder store = .ok t s) :
    r.Step (r.withStore s) holder .value := by
  have hbase := hr.step ha hworks hsteady hunwatched hfree
  have hvacant : store.Vacant holder :=
    ⟨hvalid, fun t p hp => hnone t p (hsteady t p hp), hdeps⟩
  have hi := Store.Advances.install ha.sound ha.balanced htemplate hdeps h
  -- the holder plays no other part
  have hnot : ∀ m a, r.Plays m a → a ≠ .value → m ≠ holder := by
    rintro m a hp hne rfl
    rcases hplays with hv | hle
    · exact hne (hr.roles m a .value hp hv)
    · exact absurd (hr.played m a hp).1 (Nat.not_lt.mpr hle)
  have hstore : r.store.Advances (fun _ => True) s :=
    (ha.weaken fun _ _ => trivial).trans (hi.weaken fun _ _ => trivial)
  have hgrows : r.Grows (r.withStore s) := .of_store hstore
    (hworks.tail (.install htemplate hvacant hobserved h)) (hunwatched.trans (.install h))
    (Nat.le_refl _) (fun s _ => ⟨_, rfl⟩) (fun _ _ h => h) (fun _ _ h => h) (fun _ _ h => h)
    (fun _ _ h => h) fun _ _ h => .inl h
  refine ⟨hgrows, .of_unwatched (hunwatched.trans (.install h)), fun _ _ => rfl, ?_,
    fun m a hp => ?_, fun m a hp => ?_, fun m a hp => ?_, fun t m hm => ?_⟩
  · refine hbase.held.install ha.sound ha.balanced htemplate hvalid hdeps (fun t p hp => ?_) h
    have hp₀ := hsteady t p hp
    obtain ⟨hv, hlt, hd⟩ := hr.kept hp₀
    exact ⟨Nat.lt_of_lt_of_le hlt ha.size, hnone t p hp₀, (hbase.dependencies _ _ hv).trans hd⟩
  · cases a with
    | result s => exact hp
    | shared t => exact hp
    | value =>
      rcases hp with hp | ⟨t, p, hp, hh⟩
      · exact .inl hp
      · obtain ⟨st, hst⟩ := hgrows.provisional hp
        exact .inr ⟨t, _, hst, hh⟩
  · rcases plays_of_install ha.sound hsteady hvalid htemplate h hp with hold | ⟨rfl, rfl⟩
    · exact .inl hold
    · refine hplays.imp id fun hle => ⟨rfl, rfl, hle, Nat.lt_of_lt_of_le hvalid hi.size, ?_⟩
      exact (Store.dependencies_install h m).trans hdeps
  · exact (Store.dependencies_install h m).trans (hbase.dependencies m a hp)
  · have hp : r.Plays m (.shared t) := hm
    obtain ⟨hv, -, -, hd⟩ := hr.played m _ hp
    refine (hi.held m (Nat.lt_of_lt_of_le hv ha.size) (hnot m _ hp (by simp)) ?_).trans
      (hbase.shared t m hm)
    exact (hbase.dependencies m _ hp).trans hd

/-- Nodes before the one that a provisional type is installed on hold nothing that they did not
hold. -/
theorem shape_of_install {template t : Ty} {observed : List (String × Node)} {holder : Node}
    {store s : Store} (hs : store.Sound) (hvalid : holder.index < store.graph.size)
    (htemplate : store.catalog.Definite template)
    (h : Store.install template observed holder store = .ok t s) {v : Ty} {q : Provisional}
    (hq : s.catalog.shape v = .provisional q) (hlt : q.holder.index < holder.index) :
    store.catalog.shape v = .provisional q := by
  obtain ⟨p, u, -, hholder, hline, hothers⟩ := Store.install_line hs hvalid htemplate h
  rcases hothers v q hq with rfl | hq'
  · obtain rfl : p = q := Shape.provisional.inj (hline.shape.symm.trans hq)
    rw [hholder] at hlt
    exact absurd hlt (Nat.lt_irrefl _)
  · exact hq'

/-- Installing on the node of a value that has no provisional type yet. -/
theorem Sound.install (hr : r.Sound due) {template t : Ty} {observed : List (String × Node)}
    {holder : Node} {s : Store} (hplays : r.Plays holder .value)
    (hnone : ∀ t p, r.catalog.shape t = .provisional p → p.holder ≠ holder)
    (htemplate : r.catalog.Definite template) (hobserved : ∀ b ∈ observed, r.Valid b.2)
    (h : Store.install template observed holder r.store = .ok t s) :
    (r.withStore s).Sound due ∧ r.Advances holder.index r.sites.size (r.withStore s) ∧
      ∃ p, s.catalog.shape t = .provisional p ∧ p.holder = holder ∧ p.template = template ∧
        p.observed = observed := by
  obtain ⟨hv, hd⟩ := hr.played holder _ hplays
  have hstep := hr.install_step (.refl hr.store hr.balanced) .refl (.refl _) (.refl _)
    (fun _ => False.elim) (.inl hplays) hv hd hnone htemplate hobserved h
  refine ⟨hstep.sound_of_same hr rfl rfl rfl rfl rfl rfl,
    hstep.advances (Nat.le_of_lt hv) (Nat.le_refl _) fun v q hq hlt =>
      ⟨v, q, shape_of_install hr.store hv htemplate h hq hlt, rfl⟩, ?_⟩
  obtain ⟨target, c, -, rfl, rfl⟩ := Store.install_ok h
  exact ⟨_, (shape_push c _ _).trans (if_pos rfl), rfl, rfl, rfl⟩

/-- Installing on a new node. -/
theorem Sound.installFresh (hr : r.Sound due) {template t : Ty} {observed : List (String × Node)}
    {place : Place} {s : Store} (htemplate : r.catalog.Definite template)
    (hobserved : ∀ b ∈ observed, r.Valid b.2)
    (h : Store.install template observed (r.freshNode .plain place).1
      (r.freshNode .plain place).2.store = .ok t s) :
    (r.withStore s).Sound due ∧ r.Leads (r.withStore s) ∧
      (r.withStore s).Valid (r.freshNode .plain place).1 := by
  have ha : r.store.Advances (fun _ => False) (r.freshNode .plain place).2.store :=
    .add hr.store hr.balanced .plain place fun t ht => by cases ht
  have hwork : r.store.Work (r.freshNode .plain place).2.store :=
    .add .plain none place fun t ht => by cases ht
  have hv := r.graph.size_lt_size_add .plain none place
  have hd := congrArg Cell.dependencies (r.graph.cell_add_new .plain none place)
  have hnew : ∀ t p, r.catalog.shape t = .provisional p →
      p.holder ≠ (r.freshNode .plain place).1 := by
    intro t p hp heq
    have := (hr.kept hp).2.1
    rw [heq] at this
    exact Nat.lt_irrefl _ this
  have hstep := hr.install_step ha (.single hwork) (.refl _) (.add _ _ _ _) (fun _ => False.elim)
    (.inr (Nat.le_refl _)) hv hd hnew htemplate
    (fun b hb => Nat.lt_of_lt_of_le (hobserved b hb) ha.size) h
  exact ⟨hstep.sound_of_same hr rfl rfl rfl rfl rfl rfl,
    hstep.advances (Nat.le_refl _) (Nat.le_refl _) fun v q hq hlt =>
      ⟨v, q, shape_of_install ha.sound hv htemplate h hq hlt, rfl⟩,
    Nat.lt_of_lt_of_le hv (Store.Advances.install ha.sound ha.balanced htemplate hd h).size⟩

/-- A new node is entered as the generic value that a call makes from some arguments. -/
def openValue (r : Run) (key : Site × List Ty) (place : Place) : Run :=
  { (r.freshNode .plain place).2 with
    constructions := r.constructions.put key (r.freshNode .plain place).1 }

theorem Sound.openValue (hr : r.Sound due) {key : Site × List Ty} (place : Place)
    (hnone : r.constructions.get? key = none) :
    (r.openValue key place).Sound (.value key :: due) ∧ r.Leads (r.openValue key place) ∧
      (r.openValue key place).Plays (r.freshNode .plain place).1 .value ∧
      ∀ t p, (r.openValue key place).catalog.shape t = .provisional p →
        p.holder ≠ (r.freshNode .plain place).1 := by
  have ha : r.store.Advances (fun _ => False) (r.freshNode .plain place).2.store :=
    .add hr.store hr.balanced .plain place fun t ht => by cases ht
  have hwork : r.store.Work (r.freshNode .plain place).2.store :=
    .add .plain none place fun t ht => by cases ht
  have hbase := hr.step ha (.single hwork) (.refl _) (.add _ _ _ _) fun _ => False.elim
  have hplays := plays_withStore (r := r) (.refl _) ha.catalog.toGrows
  have hentered : (r.openValue key place).constructions.get? key =
      some (r.freshNode .plain place).1 := Table.get?_put_self
  have hstep : r.Step (r.openValue key place) (r.freshNode .plain place).1 .value := by
    refine ⟨.of_store hbase.store hbase.works (.add _ _ _ _) hbase.sites hbase.site hbase.results
      (Table.get?_put_of_none hnone) hbase.slotNodes hbase.sharedNodes hbase.sharedBefore,
      hbase.newcomers, hbase.untouched, hbase.held, fun m a hp => ?_,
      fun m a hp => ?_, hbase.dependencies, hbase.shared⟩
    · cases a with
      | result s => exact hp
      | shared t => exact hp
      | value =>
        exact hp.imp_left fun ⟨other, hp⟩ => ⟨other, Table.get?_put_of_none hnone other m hp⟩
    · cases a with
      | result s => exact .inl hp
      | shared t => exact .inl hp
      | value =>
        rcases hp with ⟨other, hp⟩ | hp
        · rcases Table.of_get?_put hp with ⟨-, rfl⟩ | hp
          · exact .inr ⟨rfl, rfl, Nat.le_refl _, r.graph.size_lt_size_add .plain none place,
              congrArg Cell.dependencies (r.graph.cell_add_new .plain none place)⟩
          · exact .inl (.inl ⟨other, hp⟩)
        · exact .inl (.inr hp)
  refine ⟨hstep.sound hr ⟨fun _ => .inl, fun _ _ => .inl, fun key m hm => (hr.results key m hm).2,
    fun _ => .inl, fun _ _ => .inl, hr.slotKeys, fun _ _ => .inl, fun other m hm => ?_⟩
    (List.subset_cons_self _ _),
    hstep.leads_of_continues (.of_steady (.refl _)), .inl ⟨key, hentered⟩, fun t p hp heq => ?_⟩
  · rcases Table.of_get?_put hm with ⟨rfl, -⟩ | hm
    · exact .inr List.mem_cons_self
    · exact .inl hm
  · have := (hr.kept (t := t) hp).2.1
    rw [heq] at this
    exact Nat.lt_irrefl _ this

/-! ## Calls -/

/-- Lets a call watch some nodes. -/
def watchFor (g : Graph) (site : Site) (watched : List Node) : Graph :=
  watched.foldl (fun g n => g.watch n (.site site)) g

theorem watchFor_rewatches (g : Graph) (site : Site) (watched : List Node) :
    g.Rewatches (watchFor g site watched) := by
  unfold watchFor
  induction watched generalizing g with
  | nil => exact .refl g
  | cons n watched ih => exact (Graph.Rewatches.watch g n _).trans (ih _)

theorem watchFor_works (c : Catalog) (g : Graph) (site : Site) (watched : List Node) :
    Store.Works ⟨c, g⟩ ⟨c, watchFor g site watched⟩ := by
  unfold watchFor
  induction watched generalizing g with
  | nil => exact .refl
  | cons n watched ih => exact .head (.watch n site) (ih _)

theorem mem_watchers_watchFor {g : Graph} {site : Site} {watched : List Node} (hn : n ∈ watched)
    (hv : n.index < g.size) : .site site ∈ ((watchFor g site watched).cell n).watchers := by
  unfold watchFor
  induction watched generalizing g with
  | nil => cases hn
  | cons m watched ih =>
    have hrest := watchFor_rewatches (g.watch m (.site site)) site watched
    by_cases hmem : n ∈ watched
    · exact ih hmem (by rw [(Graph.Rewatches.watch g m _).size]; exact hv)
    · obtain rfl : n = m := (List.mem_cons.mp hn).resolve_right hmem
      exact hrest.kept n _ ((Graph.mem_watchers_watch hv).mpr (.inl ⟨rfl, rfl⟩)) fun t => by simp

/-- Only the call itself comes to watch. -/
theorem site_of_watchFor {g : Graph} {site other : Site} {watched : List Node}
    (h : .site other ∈ ((watchFor g site watched).cell n).watchers) :
    other = site ∨ .site other ∈ (g.cell n).watchers := by
  unfold watchFor at h
  induction watched generalizing g with
  | nil => exact .inr h
  | cons m watched ih =>
    refine (ih h).elim .inl fun h => ?_
    unfold Graph.watch at h
    rw [Graph.cell_modify] at h
    split at h
    · exact (Graph.mem_addOnce.mp h).imp_left fun h => by cases h; rfl
    · exact .inr h

/-- Adds a call site that watches its receiver and arguments. -/
def enterSite (r : Run) (call : CallSite) : Run :=
  { r.withGraph (watchFor r.graph ⟨r.sites.size⟩ call.watched) with sites := r.sites.push call }

theorem site_enterSite_new (r : Run) (call : CallSite) :
    (r.enterSite call).site ⟨r.sites.size⟩ = call := by
  unfold site enterSite
  simp

theorem site_enterSite_old (r : Run) (call : CallSite) {s : Site} (hs : s.index < r.sites.size) :
    (r.enterSite call).site s = r.site s := by
  unfold site enterSite
  show (r.sites.push call)[s.index]?.getD default = _
  rw [Array.getElem?_push, if_neg (Nat.ne_of_lt hs)]

/-- The call that was entered last, or one before it. -/
theorem lt_or_eq_last {s : Site} {count : Nat} (h : s.index < count + 1) :
    s.index < count ∨ s = ⟨count⟩ := by
  rcases Nat.lt_or_eq_of_le (Nat.le_of_lt_succ h) with hlt | heq
  · exact .inl hlt
  · cases s
    exact .inr (congrArg Site.mk heq)

/-- Entering a call casts its result and no other node. -/
theorem plays_of_enterSite {call : CallSite} {a : Role} (hp : (r.enterSite call).Plays n a) :
    r.Plays n a ∨ (n = call.result ∧ a = .result ⟨r.sites.size⟩) := by
  cases a with
  | result s =>
    obtain ⟨hs, hn⟩ := hp
    rcases lt_or_eq_last (Nat.lt_of_lt_of_eq hs (Array.size_push call)) with hlt | rfl
    · rw [site_enterSite_old r call hlt] at hn
      exact .inl ⟨hlt, hn⟩
    · rw [site_enterSite_new] at hn
      exact .inr ⟨hn.symm, rfl⟩
  | shared t => exact .inl hp
  | value => exact .inl hp

/-- Entering a call together with a new node for its result casts that node. -/
theorem Sound.openCall_step (hr : r.Sound due) {place : Place} {call : CallSite}
    (hresult : call.result = (r.freshNode .plain place).1) (htargets : call.targets = []) :
    r.Step ((r.freshNode .plain place).2.enterSite call) (r.freshNode .plain place).1
      (.result ⟨r.sites.size⟩) := by
  have ha : r.store.Advances (fun _ => False) (r.freshNode .plain place).2.store :=
    .add hr.store hr.balanced .plain place fun t ht => by cases ht
  have hrw := watchFor_rewatches (r.freshNode .plain place).2.graph ⟨r.sites.size⟩ call.watched
  have hw : r.store.Advances (fun _ => False)
      ⟨r.catalog, watchFor (r.freshNode .plain place).2.graph ⟨r.sites.size⟩ call.watched⟩ :=
    ha.trans (.rewatch ha.sound ha.balanced hrw)
  have hwork : r.store.Work (r.freshNode .plain place).2.store :=
    .add .plain none place fun t ht => by cases ht
  have hcell := r.graph.cell_add_new .plain none place
  have hnew := site_enterSite_new (r.freshNode .plain place).2 call
  have hold : ∀ s : Site, s.index < r.sites.size →
      ((r.freshNode .plain place).2.enterSite call).site s = r.site s := fun s hs =>
    site_enterSite_old (r.freshNode .plain place).2 call hs
  have hcount : ((r.freshNode .plain place).2.enterSite call).sites.size = r.sites.size + 1 :=
    Array.size_push call
  have hnewcomers : r.Newcomers ((r.freshNode .plain place).2.enterSite call) := fun m s h =>
    (site_of_watchFor h).symm.imp (Store.Unwatched.add r.store .plain none place m s) fun heq =>
      Nat.le_of_eq (congrArg Site.index heq.symm)
  have hretains : r.Retains ((r.freshNode .plain place).2.enterSite call) := by
    refine ⟨hw.catalog, hw.size, hw.watchers, fun m s h => ?_, by rw [hcount]; exact Nat.le_succ _,
      fun s hs => ⟨_, hold s hs⟩, fun _ _ h => h, fun _ _ h => h, fun _ _ h => h, fun _ _ h => h,
      fun _ _ h => .inl h⟩
    rcases site_of_watchFor h with rfl | h
    · exact .inr (by rw [hcount]; exact Nat.lt_succ_self _)
    · exact .inl (Store.Unwatched.add r.store .plain none place m s h)
  refine ⟨⟨hretains, hw.weaken fun _ h => h.elim, .head hwork (watchFor_works _ _ _ _)⟩,
    hnewcomers, hold, hr.held.advance hr.store hw (.refl _)
      fun t p hp => ⟨(hr.kept hp).2.1, id, (hr.kept hp).2.2⟩, fun m a hp => ?_, fun m a hp => ?_,
    fun m a hp => hw.dependencies m (hr.played m a hp).1 id, fun t m hm => ?_⟩
  · cases a with
    | result s => exact ⟨by rw [hcount]; exact Nat.lt_succ_of_lt hp.1, by rw [hold s hp.1]; exact hp.2⟩
    | shared t => exact hp
    | value => exact hp
  · rcases plays_of_enterSite hp with hp | ⟨rfl, rfl⟩
    · cases a with
      | result s => exact .inl hp
      | shared t => exact .inl hp
      | value => exact .inl hp
    · rw [hresult]
      refine .inr ⟨rfl, rfl, Nat.le_refl _, ?_, (hrw.kind _).trans (congrArg Cell.kind hcell),
        fun d => ?_⟩
      · exact Nat.lt_of_lt_of_eq (r.graph.size_lt_size_add .plain none place) hrw.size.symm
      · -- it depends on nothing yet, and the call has no targets
        have hdeps : ((r.freshNode .plain place).2.enterSite call).graph.dependencies
            (r.freshNode .plain place).1 = [] :=
          (hrw.dependencies _).trans (congrArg Cell.dependencies hcell)
        rw [hdeps, hnew, htargets]
  · have hp : r.Plays m (.shared t) := hm
    obtain ⟨hv, -, -, hd⟩ := hr.played m _ hp
    exact hw.held m hv id hd

/-- A call is entered together with a new node for its result, and is then to be resolved. -/
theorem Sound.openCall (hr : r.Sound due) {place : Place} {call : CallSite}
    (hresult : call.result = (r.freshNode .plain place).1) (htargets : call.targets = [])
    (hwatched : ∀ n ∈ call.watched, r.Valid n) (hcaller : r.catalog.Definite call.caller)
    (hblock : ∀ block, call.block = some block → block.Fits r) :
    ((r.freshNode .plain place).2.enterSite call).Sound (.call ⟨r.sites.size⟩ :: due) ∧
      r.Leads ((r.freshNode .plain place).2.enterSite call) := by
  have hstep := hr.openCall_step hresult htargets
  have hl := hstep.leads_of_continues (.of_steady (.refl _))
  have hcount : ((r.freshNode .plain place).2.enterSite call).sites.size = r.sites.size + 1 :=
    Array.size_push call
  refine ⟨hstep.sound hr ⟨fun s hs => ?_, fun _ _ => .inl, fun key m hm => (hr.results key m hm).2,
    fun _ => .inl, fun _ _ => .inl, hr.slotKeys, fun _ _ => .inl, fun _ _ => .inl⟩
    (List.subset_cons_self _ _), hl⟩
  rw [hcount] at hs
  refine (lt_or_eq_last hs).imp_right fun hlast => ?_
  subst hlast
  refine ⟨?_, List.mem_cons_self⟩
  rw [show ((r.freshNode .plain place).2.enterSite call).site ⟨r.sites.size⟩ = call from
    site_enterSite_new (r.freshNode .plain place).2 call]
  refine ⟨fun m hm => ⟨hl.toGrows.valid (hwatched m hm), ?_⟩, hl.toGrows.definite hcaller,
    fun block hb => hl.blockFits (hblock block hb)⟩
  exact mem_watchers_watchFor hm
    (Nat.lt_trans (hwatched m hm) (r.graph.size_lt_size_add .plain none place))

end FlowTyping.Run
