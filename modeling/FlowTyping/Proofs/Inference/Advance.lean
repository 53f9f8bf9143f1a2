import FlowTyping.Proofs.Flow.Watching
import FlowTyping.Proofs.Flow.Work
import FlowTyping.Proofs.Inference.Combinations

/-
  How a run advances

  Whatever a run does, it keeps what it has: calls, instances and nodes stay,
  and only the targets of calls change (`Run.Retains`). Between two rounds of
  propagation a node that gets another type is dirty (`Run.Grows`). While
  something new is typed, the calls that were there keep their targets too, and
  nodes that have a role keep it together with their dependencies
  (`Run.Advances`). What holds of calls, instances and values then goes on to
  hold.
-/
namespace FlowTyping.Run

/-- What a run keeps in all that it does between two rounds of propagation. -/
structure Grows (r r' : Run) : Prop extends Retains r r' where
  store : r.store.Advances (fun _ => True) r'.store
  works : r.store.Works r'.store

/-- No call comes to watch a node but one that is entered. -/
def Newcomers (r r' : Run) : Prop :=
  ∀ n (site : Site), .site site ∈ (r'.graph.cell n).watchers →
    .site site ∈ (r.graph.cell n).watchers ∨ r.sites.size ≤ site.index

/-- What the first so many nodes and calls keep while something new is typed. -/
structure Advances (nodes calls : Nat) (r r' : Run) : Prop extends Grows r r' where
  newcomers : r.Newcomers r'
  untouched : ∀ s : Site, s.index < calls → r'.site s = r.site s
  roles : ∀ n role, n.index < nodes → (r'.Plays n role ↔ r.Plays n role)
  dependencies : ∀ n role, n.index < nodes → r.Plays n role →
    r'.graph.dependencies n = r.graph.dependencies n
  holders : ∀ t p, r'.catalog.shape t = .provisional p → p.holder.index < nodes →
    ∃ t' p', r.catalog.shape t' = .provisional p' ∧ p'.holder = p.holder

/-- All nodes and calls of `r` keep what they have while something new is typed. -/
def Leads (r r' : Run) : Prop := r.Advances r.graph.size r.sites.size r'

variable {r r' r'' : Run} {n : Node} {site : Site} {due : List Task}

namespace Retains

theorem refl (r : Run) : r.Retains r :=
  ⟨.refl _, Nat.le_refl _, fun _ _ h => h, fun _ _ h => .inl h, Nat.le_refl _, fun _ _ => ⟨_, rfl⟩,
    fun _ _ h => h, fun _ _ h => h, fun _ _ h => h, fun _ _ h => h, fun _ _ h => .inl h⟩

theorem trans (h₁ : r.Retains r') (h₂ : r'.Retains r'') : r.Retains r'' where
  extended := h₁.extended.trans h₂.extended
  size := Nat.le_trans h₁.size h₂.size
  watchers n site h := h₂.watchers n site (h₁.watchers n site h)
  watching n site h := by
    rcases h₂.watching n site h with h | h
    · exact (h₁.watching n site h).imp_right fun hlt => Nat.lt_of_lt_of_le hlt h₂.sites
    · exact .inr h
  sites := Nat.le_trans h₁.sites h₂.sites
  site s hs := by
    obtain ⟨targets, h⟩ := h₁.site s hs
    obtain ⟨targets', h'⟩ := h₂.site s (Nat.lt_of_lt_of_le hs h₁.sites)
    exact ⟨targets', by rw [h', h]⟩
  results key n h := h₂.results key n (h₁.results key n h)
  constructions key n h := h₂.constructions key n (h₁.constructions key n h)
  slotNodes key n h := h₂.slotNodes key n (h₁.slotNodes key n h)
  sharedNodes t n h := h₂.sharedNodes t n (h₁.sharedNodes t n h)
  sharedBefore t n h := by
    rcases h₂.sharedBefore t n h with h | h
    · exact h₁.sharedBefore t n h
    · exact .inr (Nat.le_trans h₁.size h)

/-- The calls that watch have been entered. -/
theorem entered (h : r.Retains r') (hr : r.Sound due) (n : Node) (site : Site)
    (hw : .site site ∈ (r'.graph.cell n).watchers) : site.index < r'.sites.size :=
  (h.watching n site hw).elim (fun hw => Nat.lt_of_lt_of_le (hr.watching n site hw) h.sites) id

theorem valid (h : r.Retains r') (hn : r.Valid n) : r'.Valid n :=
  Nat.lt_of_lt_of_le hn h.size

theorem definite (h : r.Retains r') {t : Ty} (ht : r.catalog.Definite t) : r'.catalog.Definite t :=
  h.extended.toGrows.definite ht

theorem method_eq (h : r.Retains r') (id : MethodHandle) :
    r'.catalog.method id = r.catalog.method id := by
  unfold Catalog.method
  rw [h.extended.methods]

/-- What the instances of a call are known by does not depend on its targets. -/
theorem invocation_eq (h : r.Retains r') (hs : site.index < r.sites.size) :
    (r'.site site).invocation site = (r.site site).invocation site := by
  obtain ⟨targets, heq⟩ := h.site site hs
  rw [heq]
  rfl

theorem initializing_eq (h : r.Retains r') (hs : site.index < r.sites.size) :
    (r'.site site).initializing = (r.site site).initializing := by
  obtain ⟨targets, heq⟩ := h.site site hs
  rw [heq]
  rfl

theorem initialized (h : r.Retains r') (hr : r.store.Sound) (hs : site.index < r.sites.size)
    {owner : Ty} {arguments : List Ty} (hi : r.Initialized site owner arguments) :
    r'.Initialized site owner arguments := by
  refine ⟨h.definite hi.self, fun t ht => h.definite (hi.given t ht), fun id hid => ?_⟩
  rw [h.initializing_eq hs] at hid
  rw [h.extended.select_eq hr.catalog hi.self ⟨hi.given, hi.self⟩] at hid
  obtain ⟨n, hn⟩ := hi.done id hid
  exact ⟨n, by rw [h.invocation_eq hs]; exact h.results _ n hn⟩

theorem isGeneric_eq (h : r.Retains r') {t : Ty} (ht : t.index < r.catalog.size) :
    r'.catalog.isGeneric t = r.catalog.isGeneric t := by
  have hb := h.extended.shape t ht
  unfold Catalog.isGeneric
  generalize r.catalog.shape t = a at hb ⊢
  generalize r'.catalog.shape t = b at hb ⊢
  cases hb <;> rfl

theorem lt_size_of_isGeneric {c : Catalog} {t : Ty} (h : c.isGeneric t = true) :
    t.index < c.size := by
  unfold Catalog.isGeneric at h
  split at h
  · next o ho => exact Catalog.lt_size_of_object ho
  · cases h

theorem yields (h : r.Retains r') (hr : r.store.Sound) (hs : site.index < r.sites.size)
    {arguments : List Ty} {d : Dispatch} (hy : r.Yields site arguments n d) :
    r'.Yields site arguments n d := by
  cases d with
  | method owner id =>
    show r'.results.get? _ = _
    rw [h.invocation_eq hs]
    exact h.results _ n hy
  | construct t =>
    rcases hy with ⟨hg, hn⟩ | ⟨hg, hn, hi⟩
    · exact .inl ⟨(h.isGeneric_eq (lt_size_of_isGeneric hg)).trans hg, h.constructions _ n hn⟩
    · exact .inr ⟨(h.isGeneric_eq hi.self.1).trans hg, h.sharedNodes t n hn,
        h.initialized hr hs hi⟩
  | miss miss => exact hy.elim

theorem slotted (h : r.Retains r') {owner : Ty} {names : List String} (hs : r.Slotted owner names) :
    r'.Slotted owner names := by
  intro name hname
  obtain ⟨n, hn⟩ := hs name hname
  exact ⟨n, h.slotNodes _ n hn⟩

theorem complete (h : r.Retains r') {key : Invocation} (hk : r.Complete key) : r'.Complete key := by
  unfold Complete
  rw [h.method_eq]
  exact h.slotted hk

theorem provisional (h : r.Retains r') {t : Ty} {p : Provisional}
    (hp : r.catalog.shape t = .provisional p) :
    ∃ st, r'.catalog.shape t = .provisional { p with standing := st } := by
  have hb := h.extended.shape t (Catalog.lt_size_of_provisional hp)
  rw [hp] at hb
  generalize r'.catalog.shape t = s at hb ⊢
  cases hb with
  | same => exact ⟨p.standing, rfl⟩
  | standing _ st _ => exact ⟨st, rfl⟩

theorem makes (h : r.Retains r') (hr : r.store.Sound) (hs : site.index < r.sites.size) {t : Ty}
    (hm : r.Makes site t) : r'.Makes site t := by
  intro d hd
  obtain ⟨targets, heq⟩ := h.site site hs
  rw [heq] at hd
  obtain ⟨hv, hfixed⟩ := hm d hd
  refine ⟨h.valid hv, fun u hu => ?_⟩
  have hu₀ := (h.sharedBefore u d hu).resolve_right (Nat.not_le.mpr hv)
  obtain ⟨hdefinite, o, ho, hod, hmade⟩ := hfixed u hu₀
  refine ⟨h.definite hdefinite, o, ?_, h.definite hod, ?_⟩
  · rw [h.extended.members_eq hdefinite]
    exact ho
  · rw [h.extended.constructed_eq hr.catalog hod]
    exact hmade

theorem builtAs (h : r.Retains r') (hr : r.store.Sound) {arguments : List Ty} {t own : Ty}
    (hb : r.BuiltAs site arguments n t own) : r'.BuiltAs site arguments n t own := by
  obtain ⟨q, p, hp, hholder, htemplate⟩ := hb.held
  obtain ⟨st, hst⟩ := h.provisional hp
  exact ⟨Nat.lt_of_lt_of_le hb.entered h.sites, h.extended.toGrows.template hb.template,
    h.makes hr hb.entered hb.made, h.extended.toGrows.specializes hb.copy,
    ⟨q, _, hst, hholder, htemplate⟩, h.initialized hr hb.entered hb.initialized⟩

theorem furnished (h : r.Retains r') {r₀ : Run} {arguments : List Ty} {t own : Ty}
    (hf : r.Furnished r₀ site arguments n t own) : r'.Furnished r₀ site arguments n t own := by
  obtain ⟨q, p, hp, hholder, htemplate, hobserved⟩ := hf.observed
  obtain ⟨st, hst⟩ := h.provisional hp
  obtain ⟨q₀, s, hinstall, hafter⟩ := hf.installed
  exact ⟨hf.before.trans h, ⟨q₀, s, hinstall, hafter.trans h⟩, hf.initialized, hf.complete,
    ⟨q, _, hst, hholder, htemplate, hobserved⟩⟩

theorem built (h : r.Retains r') (hr : r.store.Sound) {key : Site × List Ty} (hb : r.Built key n) :
    r'.Built key n := by
  obtain ⟨t, own, hb, r₀, hf⟩ := hb
  exact ⟨t, own, h.builtAs hr hb, r₀, h.furnished hf⟩

/-- A call whose targets stay and whose watched nodes keep their types stays resolved. -/
theorem resolvedIn (h : r.Retains r') (hr : r.store.Sound) (hs : site.index < r.sites.size)
    (hsite : r'.site site = r.site site)
    (htypes : ∀ n ∈ (r.site site).watched, r'.graph.typeAt n = r.graph.typeAt n) {c : Catalog}
    (hc : r.ResolvedIn site c) : r'.ResolvedIn site c := by
  have hcombinations : (r'.withCatalog c).combinations (r'.site site) =
      (r.withCatalog c).combinations (r.site site) := by
    rw [hsite]
    exact combinations_congr fun n hn => congrArg (Option.map c.members) (htypes n hn)
  refine ⟨hc.sound, hc.extended.trans h.extended, hsite ▸ hc.caller, fun n hn t ht => ?_,
    fun all hall one hone => ?_, fun all hall n hn => ?_⟩
  · rw [hsite] at hn
    exact hc.entered n hn t ((htypes n hn).symm.trans ht)
  · obtain ⟨n, hn, hy⟩ := hc.answered all (hcombinations.symm.trans hall) one hone
    rw [hsite]
    exact ⟨n, hn, h.yields hr hs hy⟩
  · rw [hsite] at hn ⊢
    obtain ⟨one, hone, hy⟩ := hc.wanted all (hcombinations.symm.trans hall) n hn
    exact ⟨one, hone, h.yields hr hs hy⟩

theorem blockFits (h : r.Retains r') (hbind : ∀ n, r.Bindable n → r'.Bindable n) {block : BlockFlow}
    (hb : block.Fits r) : block.Fits r' :=
  ⟨fun n hn => hbind n (hb.parameters n hn), h.valid hb.result⟩

theorem callFits (h : r.Retains r') (hbind : ∀ n, r.Bindable n → r'.Bindable n)
    (hs : site.index < r.sites.size) (hf : (r.site site).Fits site r) :
    (r'.site site).Fits site r' := by
  obtain ⟨targets, heq⟩ := h.site site hs
  rw [heq]
  exact ⟨fun n hn => ⟨h.valid (hf.watched n hn).1, h.watchers n site (hf.watched n hn).2⟩,
    h.definite hf.caller, fun block hb => h.blockFits hbind (hf.block block hb)⟩

end Retains

namespace Grows

theorem refl (hs : r.store.Sound) (hb : r.store.Balanced []) : r.Grows r :=
  ⟨.refl r, .refl hs hb, .refl⟩

theorem trans (h₁ : r.Grows r') (h₂ : r'.Grows r'') : r.Grows r'' :=
  ⟨h₁.toRetains.trans h₂.toRetains, h₁.store.trans h₂.store, h₁.works.trans h₂.works⟩

/-- A run with another store, and with new entries in its tables perhaps. -/
theorem of_store (hstore : r.store.Advances (fun _ => True) r'.store)
    (hworks : r.store.Works r'.store)
    (hunwatched : r.store.Unwatched r'.store) (hsites : r.sites.size ≤ r'.sites.size)
    (hsite : ∀ s : Site, s.index < r.sites.size →
      ∃ targets, r'.site s = { r.site s with targets := targets })
    (hresults : ∀ key n, r.results.get? key = some n → r'.results.get? key = some n)
    (hconstructions : ∀ key n, r.constructions.get? key = some n →
      r'.constructions.get? key = some n)
    (hslotNodes : ∀ key n, r.slotNodes.get? key = some n → r'.slotNodes.get? key = some n)
    (hsharedNodes : ∀ t n, r.sharedNodes.get? t = some n → r'.sharedNodes.get? t = some n)
    (hsharedBefore : ∀ t n, r'.sharedNodes.get? t = some n →
      r.sharedNodes.get? t = some n ∨ r.graph.size ≤ n.index) :
    r.Grows r' :=
  ⟨⟨hstore.catalog, hstore.size, hstore.watchers, fun n s h => .inl (hunwatched n s h), hsites, hsite,
    hresults, hconstructions, hslotNodes, hsharedNodes, hsharedBefore⟩, hstore, hworks⟩

theorem attended (h : r.Grows r') (hr : r.store.Sound) (hs : site.index < r.sites.size)
    (hfits : (r.site site).Fits site r) (hsite : r'.site site = r.site site)
    (ha : r.Attended site) : r'.Attended site := by
  by_cases hdirty : ∃ n ∈ (r'.site site).watched, r'.graph.dirtyAt n = true
  · exact .inr hdirty
  · rw [hsite] at hdirty
    rcases ha with ⟨c, hc⟩ | ⟨n, hn, hd⟩
    · refine .inl ⟨c, h.resolvedIn hr hs hsite (fun n hn => ?_) hc⟩
      exact (h.store.types n (hfits.watched n hn).1).resolve_right fun hd => hdirty ⟨n, hn, hd⟩
    · exact absurd ⟨n, hn, h.store.dirty n hd⟩ hdirty

end Grows

namespace Newcomers

theorem of_unwatched (h : r.store.Unwatched r'.store) : r.Newcomers r' :=
  fun n site hw => .inl (h n site hw)

theorem trans (h₁ : r.Newcomers r') (h₂ : r'.Newcomers r'') (hsites : r.sites.size ≤ r'.sites.size) :
    r.Newcomers r'' := by
  intro n site hw
  rcases h₂ n site hw with hw | hnew
  · exact h₁ n site hw
  · exact .inr (Nat.le_trans hsites hnew)

end Newcomers

namespace Advances

variable {nodes calls : Nat}

theorem refl (hs : r.store.Sound) (hb : r.store.Balanced []) : r.Advances nodes calls r :=
  ⟨.refl hs hb, .of_unwatched (.refl _), fun _ _ => rfl, fun _ _ _ => Iff.rfl, fun _ _ _ _ => rfl,
    fun t p hp _ => ⟨t, p, hp, rfl⟩⟩

theorem trans (h₁ : r.Advances nodes calls r') (h₂ : r'.Advances nodes calls r'') :
    r.Advances nodes calls r'' where
  toGrows := h₁.toGrows.trans h₂.toGrows
  newcomers := h₁.newcomers.trans h₂.newcomers h₁.sites
  untouched s hs := (h₂.untouched s hs).trans (h₁.untouched s hs)
  roles n role hn := (h₂.roles n role hn).trans (h₁.roles n role hn)
  dependencies n role hn hp :=
    (h₂.dependencies n role hn ((h₁.roles n role hn).mpr hp)).trans (h₁.dependencies n role hn hp)
  holders t p hp hn := by
    obtain ⟨t', p', hp', heq⟩ := h₂.holders t p hp hn
    obtain ⟨t'', p'', hp'', heq'⟩ := h₁.holders t' p' hp' (heq ▸ hn)
    exact ⟨t'', p'', hp'', heq'.trans heq⟩

theorem weaken {nodes' calls' : Nat} (h : r.Advances nodes calls r') (hn : nodes' ≤ nodes)
    (hs : calls' ≤ calls) : r.Advances nodes' calls' r' where
  toGrows := h.toGrows
  newcomers := h.newcomers
  untouched s hs' := h.untouched s (Nat.lt_of_lt_of_le hs' hs)
  roles n role hn' := h.roles n role (Nat.lt_of_lt_of_le hn' hn)
  dependencies n role hn' := h.dependencies n role (Nat.lt_of_lt_of_le hn' hn)
  holders t p hp hn' := h.holders t p hp (Nat.lt_of_lt_of_le hn' hn)

end Advances

namespace Leads

theorem refl (hs : r.store.Sound) (hb : r.store.Balanced []) : r.Leads r := Advances.refl hs hb

theorem trans (h₁ : r.Leads r') (h₂ : r'.Leads r'') : r.Leads r'' :=
  Advances.trans h₁ (h₂.weaken h₁.store.size h₁.sites)

theorem bindable (h : r.Leads r') (hn : r.Bindable n) : r'.Bindable n :=
  ⟨h.toGrows.valid hn.valid, (h.store.kind n hn.valid).trans hn.plain,
    fun role hp => hn.free role ((h.roles n role hn.valid).mp hp)⟩

theorem blockFits (h : r.Leads r') {block : BlockFlow} (hb : block.Fits r) : block.Fits r' :=
  h.toGrows.blockFits (fun _ => h.bindable) hb

theorem contextFits (h : r.Leads r') {ctx : Context} (hc : ctx.Fits r) : ctx.Fits r' :=
  ⟨h.toGrows.definite hc.receiver, h.toGrows.definite hc.home, fun body hb =>
    ⟨h.bindable (hc.body body hb).result, fun block hblock =>
      h.blockFits ((hc.body body hb).block block hblock)⟩⟩

end Leads

end FlowTyping.Run

namespace FlowTyping

theorem Context.Fits.block {ctx : Context} {r : Run} (h : ctx.Fits r) {block : BlockFlow}
    (hb : ctx.block = some block) : block.Fits r := by
  obtain ⟨body, hbody, hb⟩ := Option.bind_eq_some_iff.mp hb
  exact (h.body body hbody).block block hb

end FlowTyping
