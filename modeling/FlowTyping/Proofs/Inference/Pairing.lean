import FlowTyping.Inference.Expression
import FlowTyping.Proofs.Flow.Pairing
import FlowTyping.Proofs.Table

/-
  Runs with other nodes

  Two runs are paired if their stores are and if all that they remember is the
  same up to the nodes and the handles of methods. The node of `Nil` that the
  second run may have to spare is found in its table of types that stay, and so
  is the node of one expression that only this run has recorded so far.
-/
namespace FlowTyping

open Steps Catalog

variable {w v : Pairing} {n m d e : Node}

/-! ## Tables and local variables -/

namespace Table

variable {κ : Type} {f : κ → κ} {t t' : Table κ Node}

/-- Tables with nodes that correspond, under keys that `f` takes to each other. -/
def Paired (f : κ → κ) (w : Pairing) (t t' : Table κ Node) : Prop :=
  List.Forall₂ (fun a b => b.1 = f a.1 ∧ w.pairs a.2 b.2) t.entries t'.entries

theorem Paired.mono (h : t.Paired f w t') (hw : w ≤ v) : t.Paired f v t' :=
  h.imp fun _ _ hab => ⟨hab.1, hw.1 _ _ hab.2⟩

theorem Paired.empty : Paired f w .empty .empty := .nil

variable [DecidableEq κ]

theorem Paired.get? (h : t.Paired f w t') (hf : Function.Injective f) (key : κ) :
    Option.Rel w.pairs (t.get? key) (t'.get? (f key)) := by
  obtain ⟨entries⟩ := t
  obtain ⟨entries'⟩ := t'
  replace h : List.Forall₂ (fun a b => b.1 = f a.1 ∧ w.pairs a.2 b.2) entries entries' := h
  show Option.Rel w.pairs (entries.lookup key) (entries'.lookup (f key))
  induction h with
  | nil => exact .none
  | @cons a b as bs hab _ ih =>
    obtain ⟨k, x⟩ := a
    obtain ⟨k', y⟩ := b
    obtain ⟨rfl, hxy⟩ := hab
    rw [List.lookup_cons, List.lookup_cons]
    by_cases hkey : key = k
    · rw [hkey, beq_self_eq_true, beq_self_eq_true]
      exact .some hxy
    · rw [beq_eq_false_iff_ne.mpr hkey, beq_eq_false_iff_ne.mpr (hf.ne hkey)]
      exact ih

theorem Paired.put (h : t.Paired f w t') (hf : Function.Injective f) (key : κ)
    (hn : w.pairs n m) : (t.put key n).Paired f w (t'.put (f key) m) := by
  obtain ⟨entries⟩ := t
  obtain ⟨entries'⟩ := t'
  replace h : List.Forall₂ (fun a b => b.1 = f a.1 ∧ w.pairs a.2 b.2) entries entries' := h
  show List.Forall₂ (fun a b => b.1 = f a.1 ∧ w.pairs a.2 b.2) (putEntry key n entries)
    (putEntry (f key) m entries')
  induction h with
  | nil => exact .cons ⟨rfl, hn⟩ .nil
  | @cons a b as bs hab hrest ih =>
    obtain ⟨k, x⟩ := a
    obtain ⟨k', y⟩ := b
    obtain ⟨rfl, hxy⟩ := hab
    unfold putEntry
    by_cases hkey : k = key
    · rw [if_pos hkey, if_pos (congrArg f hkey)]
      exact .cons ⟨rfl, hn⟩ hrest
    · rw [if_neg hkey, if_neg (hf.ne hkey)]
      exact .cons ⟨rfl, hxy⟩ ih

end Table

/-- Blocks over nodes that correspond. -/
structure BlockFlow.Paired (w : Pairing) (b b' : BlockFlow) : Prop where
  parameters : List.Forall₂ w.pairs b.parameters b'.parameters
  result : w.pairs b.result b'.result

/-- Method instances over nodes that correspond. -/
structure BodyFlow.Paired (w : Pairing) (b b' : BodyFlow) : Prop where
  result : w.pairs b.result b'.result
  block : Option.Rel (BlockFlow.Paired w) b.block b'.block

/-- Contexts that are the same but for the nodes of their method instance. -/
structure Context.Paired (w : Pairing) (ctx ctx' : Context) : Prop where
  receiver : ctx'.receiver = ctx.receiver
  home : ctx'.home = ctx.home
  body : Option.Rel (BodyFlow.Paired w) ctx.body ctx'.body
  records : ctx'.records = ctx.records
  active : ctx'.active = ctx.active

/-- Scopes with the same names, of nodes that correspond. -/
def Scopes.Paired (w : Pairing) (s s' : Scopes) : Prop :=
  List.Forall₂ (Table.Paired id w) (s.inner :: s.outer) (s'.inner :: s'.outer)

theorem rel_mono {α β : Type} {R Q : α → β → Prop} (hRQ : ∀ a b, R a b → Q a b)
    {a : Option α} {b : Option β} (h : Option.Rel R a b) : Option.Rel Q a b := by
  cases h with
  | none => exact .none
  | some h => exact .some (hRQ _ _ h)

theorem BlockFlow.Paired.mono {b b' : BlockFlow} (h : b.Paired w b') (hw : w ≤ v) : b.Paired v b' :=
  ⟨Pairing.mono_all hw h.parameters, Pairing.mono hw h.result⟩

theorem BodyFlow.Paired.mono {b b' : BodyFlow} (h : b.Paired w b') (hw : w ≤ v) : b.Paired v b' :=
  ⟨Pairing.mono hw h.result, rel_mono (fun _ _ h => h.mono hw) h.block⟩

theorem Context.Paired.mono {ctx ctx' : Context} (h : ctx.Paired w ctx') (hw : w ≤ v) :
    ctx.Paired v ctx' :=
  ⟨h.receiver, h.home, rel_mono (fun _ _ h => h.mono hw) h.body, h.records, h.active⟩

theorem Context.Paired.block {ctx ctx' : Context} (h : ctx.Paired w ctx') :
    Option.Rel (BlockFlow.Paired w) ctx.block ctx'.block := by
  have hbody := h.body
  unfold Context.block
  generalize ctx.body = b at hbody ⊢
  generalize ctx'.body = b' at hbody ⊢
  cases hbody with
  | none => exact .none
  | some h => exact h.block

/-- A context outside methods is as it is in both runs. -/
theorem Context.Paired.outside (receiver home : Ty) (records : Bool) (active : List Frame) :
    Context.Paired w ⟨receiver, home, none, records, active⟩
      ⟨receiver, home, none, records, active⟩ :=
  ⟨rfl, rfl, .none, rfl, rfl⟩

namespace Scopes.Paired

variable {s s' : Scopes}

theorem mono (h : s.Paired w s') (hw : w ≤ v) : s.Paired v s' := h.imp fun _ _ h => h.mono hw

theorem empty : Scopes.Paired w .empty .empty := .cons .nil .nil

theorem push (h : s.Paired w s') : s.push.Paired w s'.push := .cons .nil h

theorem pop (h : s.Paired w s') : (s.pop?.getD s).Paired w (s'.pop?.getD s') := by
  obtain ⟨inner, outer⟩ := s
  obtain ⟨inner', outer'⟩ := s'
  obtain ⟨hinner, houter⟩ := List.forall₂_cons.mp h
  cases houter with
  | nil => exact h
  | cons hscope hrest => exact .cons hscope hrest

theorem define (h : s.Paired w s') (name : String) (hn : w.pairs n m) :
    (s.define name n).Paired w (s'.define name m) := by
  obtain ⟨hinner, houter⟩ := List.forall₂_cons.mp h
  exact .cons (hinner.put Function.injective_id name hn) houter

theorem find (h : s.Paired w s') (name : String) :
    Option.Rel w.pairs (s.find name) (s'.find name) := by
  unfold Scopes.find
  unfold Scopes.Paired at h
  generalize s.inner :: s.outer = tables at h ⊢
  generalize s'.inner :: s'.outer = tables' at h ⊢
  induction h with
  | nil => exact .none
  | cons hscope _ ih =>
    rw [List.findSome?_cons, List.findSome?_cons]
    have hfound := hscope.get? Function.injective_id name
    rw [id] at hfound
    generalize Table.get? _ name = a at hfound ⊢
    generalize Table.get? _ name = b at hfound ⊢
    cases hfound with
    | none => exact ih
    | some h => exact .some h

end Scopes.Paired

/-! ## Runs -/

/-- Call sites over nodes that correspond. -/
structure CallSite.Paired (w : Pairing) (a b : CallSite) : Prop where
  name : b.name = a.name
  place : b.place = a.place
  receiver : Option.Rel w.pairs a.receiver b.receiver
  arguments : List.Forall₂ w.pairs a.arguments b.arguments
  block : Option.Rel (BlockFlow.Paired w) a.block b.block
  caller : b.caller = a.caller
  result : w.pairs a.result b.result
  targets : List.Forall₂ w.pairs a.targets b.targets
  frames : b.frames = a.frames

theorem CallSite.Paired.mono {a b : CallSite} (h : a.Paired w b) (hw : w ≤ v) : a.Paired v b :=
  ⟨h.name, h.place, rel_mono hw.1 h.receiver, h.arguments.imp hw.1,
    rel_mono (fun _ _ h => h.mono hw) h.block, h.caller, hw.1 _ _ h.result,
    h.targets.imp hw.1, h.frames⟩

/-- An instance with its method under another handle. -/
def Invocation.renumber (σ : Renumbering) (i : Invocation) : Invocation :=
  { i with method := σ i.method }

theorem Invocation.renumber_injective (σ : Renumbering) :
    Function.Injective (Invocation.renumber σ) := by
  rintro ⟨owner, method, arguments, site⟩ ⟨owner', method', arguments', site'⟩ h
  obtain ⟨howner, hmethod, harguments, hsite⟩ := Invocation.mk.inj h
  rw [Invocation.mk.injEq]
  exact ⟨howner, σ.injective hmethod, harguments, hsite⟩

/-- The nodes of a type that stays, of which the second may be the spare one. -/
inductive Shared (w : Pairing) (t : Ty) : Option Node → Option Node → Prop
  | none (h : t = .nil → w.spare = none) : Shared w t none none
  | some {n m : Node} (h : w.pairs n m) : Shared w t (some n) (some m)
  | spare {m : Node} (ht : t = .nil) (h : w.spare = some m) : Shared w t none (some m)

theorem Shared.mono {t : Ty} {a b : Option Node} (h : Shared w t a b) (hw : w ≤ v)
    (hspare : t = .nil → v.spare = w.spare) : Shared v t a b := by
  cases h with
  | none h => exact .none fun ht => (hspare ht).trans (h ht)
  | some h => exact .some (hw.1 _ _ h)
  | spare ht h => exact .spare ht ((hspare ht).trans h)

/-- Runs whose tables of nodes correspond, but for the types that stay and what is recorded. -/
structure Run.Remembers (σ : Renumbering) (w : Pairing) (r r' : Run) : Prop where
  results : r.results.Paired (Invocation.renumber σ) w r'.results
  instances : List.Forall₂ (fun a b => b.signature = a.signature ∧ w.pairs a.result b.result)
    r.instances.toList r'.instances.toList
  slotNodes : r.slotNodes.Paired id w r'.slotNodes
  constructions : r.constructions.Paired id w r'.constructions
  slotReads : r'.slotReads = r.slotReads
  constantNodes : r.constantNodes.Paired id w r'.constantNodes

/-- Runs that are the same but for their nodes and the handles of methods. The second may have
recorded `Nil` for the expression `ahead` before the first has. -/
structure Run.Paired (σ : Renumbering) (ahead : Option Nat) (w : Pairing) (r r' : Run) : Prop
    extends Run.Remembers σ w r r' where
  store : r.store.Paired σ w r'.store
  count : w.sites = r.sites.size
  size : r'.sites.size = r.sites.size
  site : ∀ s, s.index < w.sites → (r.site s).Paired w (r'.site s)
  sharedNodes : ∀ t, Shared w t (r.sharedNodes.get? t) (r'.sharedNodes.get? t)
  recorded : ∀ id, ahead ≠ some id →
    Option.Rel w.pairs (r.recorded.get? id) (r'.recorded.get? id)
  noted : ∀ id, ahead = some id →
    ∃ m, r'.recorded.get? id = some m ∧ r'.sharedNodes.get? .nil = some m
  distinct : r.recorded.keys.Nodup ∧ r'.recorded.keys.Nodup

theorem Run.Remembers.mono {σ : Renumbering} {r r' : Run} (h : r.Remembers σ w r') (hw : w ≤ v) :
    r.Remembers σ v r' :=
  ⟨h.results.mono hw, h.instances.imp fun _ _ hab => ⟨hab.1, hw.1 _ _ hab.2⟩, h.slotNodes.mono hw,
    h.constructions.mono hw, h.slotReads, h.constantNodes.mono hw⟩

namespace Run.Paired

variable {σ : Renumbering} {ahead : Option Nat} {r r' : Run}

theorem catalog (h : r.Paired σ ahead w r') : r.catalog.Paired σ w r'.catalog := h.store.catalog

theorem graph (h : r.Paired σ ahead w r') : r.graph.Paired w r'.graph := h.store.graph

/-- What is read off the outline of the catalog is the same. -/
theorem read (h : r.Paired σ ahead w r') {β : Type} {f : Catalog → β}
    (hf : ∀ c : Catalog, f c.outline = f c) : f r'.catalog = f r.catalog := h.catalog.read hf

/-- Other stores, with more pairs. -/
theorem advance (h : r.Paired σ ahead w r') (hw : w ≤ v) (hsites : v.sites = w.sites)
    (hspare : v.spare = w.spare) {s s' : Store} (hs : s.Paired σ v s') :
    Run.Paired σ ahead v { r with store := s } { r' with store := s' } where
  store := hs
  count := hsites.trans h.count
  size := h.size
  site s hs := (h.site s (hsites ▸ hs)).mono hw
  toRemembers := { h.toRemembers.mono hw with }
  sharedNodes t := (h.sharedNodes t).mono hw fun _ => hspare
  recorded id hid := rel_mono hw.1 (h.recorded id hid)
  noted := h.noted
  distinct := h.distinct

theorem restore (h : r.Paired σ ahead w r') {s s' : Store} (hs : s.Paired σ w s') :
    Run.Paired σ ahead w { r with store := s } { r' with store := s' } :=
  h.advance le_rfl rfl rfl hs

theorem bind (h : r.Paired σ ahead w r') (hn : w.pairs n m) (hd : w.pairs d e) :
    (r.bind n d).Paired σ ahead w (r'.bind m e) := h.restore (h.store.bind hn hd)

theorem unbind (h : r.Paired σ ahead w r') (hn : w.pairs n m) (hd : w.pairs d e) :
    (r.unbind n d).Paired σ ahead w (r'.unbind m e) := h.restore (h.store.unbind hn hd)

/-- A change of no other tables than these. -/
theorem remember (h : r.Paired σ ahead w r') {a a' : Run} (hrest : a.Remembers σ w a')
    (hkept : a.store = r.store ∧ a.sites = r.sites ∧ a.sharedNodes = r.sharedNodes ∧
      a.recorded = r.recorded)
    (hkept' : a'.store = r'.store ∧ a'.sites = r'.sites ∧ a'.sharedNodes = r'.sharedNodes ∧
      a'.recorded = r'.recorded) : a.Paired σ ahead w a' := by
  obtain ⟨hstore, hsites, hshared, hrecorded⟩ := hkept
  obtain ⟨hstore', hsites', hshared', hrecorded'⟩ := hkept'
  refine ⟨hrest, hstore ▸ hstore' ▸ h.store, hsites ▸ h.count, hsites ▸ hsites' ▸ h.size,
    fun s hs => ?_, hshared ▸ hshared' ▸ h.sharedNodes, hrecorded ▸ hrecorded' ▸ h.recorded,
    hrecorded' ▸ hshared' ▸ h.noted, hrecorded ▸ hrecorded' ▸ h.distinct⟩
  have hsite := h.site s hs
  unfold Run.site at hsite ⊢
  rwa [hsites, hsites']

theorem putResult (h : r.Paired σ ahead w r') (key : Invocation) (hn : w.pairs n m) :
    Run.Paired σ ahead w { r with results := r.results.put key n }
      { r' with results := r'.results.put (key.renumber σ) m } :=
  h.remember { h.toRemembers with
    results := h.results.put (Invocation.renumber_injective σ) key hn }
    ⟨rfl, rfl, rfl, rfl⟩ ⟨rfl, rfl, rfl, rfl⟩

theorem putInstance (h : r.Paired σ ahead w r') (signature : String) (hn : w.pairs n m) :
    Run.Paired σ ahead w { r with instances := r.instances.push ⟨signature, n⟩ }
      { r' with instances := r'.instances.push ⟨signature, m⟩ } :=
  h.remember { h.toRemembers with
    instances := by
      rw [Array.toList_push, Array.toList_push]
      exact List.rel_append h.instances (.cons ⟨rfl, hn⟩ .nil) }
    ⟨rfl, rfl, rfl, rfl⟩ ⟨rfl, rfl, rfl, rfl⟩

theorem putConstruction (h : r.Paired σ ahead w r') (key : Site × List Ty) (hn : w.pairs n m) :
    Run.Paired σ ahead w { r with constructions := r.constructions.put key n }
      { r' with constructions := r'.constructions.put key m } :=
  h.remember { h.toRemembers with
    constructions := h.constructions.put Function.injective_id key hn }
    ⟨rfl, rfl, rfl, rfl⟩ ⟨rfl, rfl, rfl, rfl⟩

theorem putConstant (h : r.Paired σ ahead w r') (t : Ty) (hn : w.pairs n m) :
    Run.Paired σ ahead w { r with constantNodes := r.constantNodes.put t n }
      { r' with constantNodes := r'.constantNodes.put t m } :=
  h.remember { h.toRemembers with
    constantNodes := h.constantNodes.put Function.injective_id t hn }
    ⟨rfl, rfl, rfl, rfl⟩ ⟨rfl, rfl, rfl, rfl⟩

theorem putSlot (h : r.Paired σ ahead w r') (key : Ty × String) (hn : w.pairs n m) :
    Run.Paired σ ahead w { r with slotNodes := r.slotNodes.put key n }
      { r' with slotNodes := r'.slotNodes.put key m } :=
  h.remember { h.toRemembers with slotNodes := h.slotNodes.put Function.injective_id key hn }
    ⟨rfl, rfl, rfl, rfl⟩ ⟨rfl, rfl, rfl, rfl⟩

theorem putSlotRead (h : r.Paired σ ahead w r') (read : SlotRead) :
    Run.Paired σ ahead w { r with slotReads := r.slotReads.push read }
      { r' with slotReads := r'.slotReads.push read } :=
  h.remember { h.toRemembers with slotReads := congrArg (Array.push · read) h.slotReads }
    ⟨rfl, rfl, rfl, rfl⟩ ⟨rfl, rfl, rfl, rfl⟩

/-- The node of an expression other than the one that the second run is ahead by. -/
theorem putRecorded (h : r.Paired σ ahead w r') (id : Nat) (hid : ahead ≠ some id)
    (hn : w.pairs n m) :
    Run.Paired σ ahead w { r with recorded := r.recorded.put id n }
      { r' with recorded := r'.recorded.put id m } :=
  { h with
    recorded := fun other hother => by
      rw [Table.get?_put, Table.get?_put]
      split
      · exact .some hn
      · exact h.recorded other hother
    noted := fun other hother => by
      rw [Table.get?_put, if_neg]
      · exact h.noted other hother
      · rintro rfl
        exact hid hother
    distinct := ⟨Table.nodup_keys_put h.distinct.1, Table.nodup_keys_put h.distinct.2⟩ }

/-! ### New nodes -/

theorem freshNode (h : r.Paired σ ahead w r') (kind : CellKind) (place : Place) :
    ∃ v, w ≤ v ∧ (r.freshNode kind place).2.Paired σ ahead v (r'.freshNode kind place).2 ∧
      v.pairs (r.freshNode kind place).1 (r'.freshNode kind place).1 :=
  ⟨_, w.le_add _ _ _, h.advance (w.le_add _ _ _) rfl rfl
    (h.store.grow (w.le_add _ _ _) (h.graph.add kind none place)), .inr ⟨rfl, rfl⟩⟩

theorem sharedNode (h : r.Paired σ ahead w r') (t : Ty) :
    ∃ v, w ≤ v ∧ (r.sharedNode t).2.Paired σ ahead v (r'.sharedNode t).2 ∧
      v.pairs (r.sharedNode t).1 (r'.sharedNode t).1 := by
  have hshared := h.sharedNodes t
  unfold Run.sharedNode
  cases hr : r.sharedNodes.get? t with
  | some n =>
    cases hr' : r'.sharedNodes.get? t with
    | some m =>
      rw [hr, hr'] at hshared
      cases hshared with
      | some hn => exact ⟨w, le_rfl, h, hn⟩
    | none => rw [hr, hr'] at hshared; cases hshared
  | none =>
    cases hr' : r'.sharedNodes.get? t with
    | none =>
      rw [hr, hr'] at hshared
      have hadded := h.advance (w.le_add _ _ _) rfl rfl
        (h.store.grow (w.le_add _ _ _) (h.graph.add .plain (some t) .synthesized))
      refine ⟨_, w.le_add _ _ _, { hadded with
        sharedNodes := fun u => ?_
        noted := fun id hid => ?_ }, .inr ⟨rfl, rfl⟩⟩
      · show Shared _ u ((r.sharedNodes.put t _).get? u) ((r'.sharedNodes.put t _).get? u)
        rw [Table.get?_put, Table.get?_put]
        split
        · exact .some (.inr ⟨rfl, rfl⟩)
        · exact hadded.sharedNodes u
      · obtain ⟨m, hm, hnil⟩ := h.noted id hid
        refine ⟨m, hm, ?_⟩
        show (r'.sharedNodes.put t _).get? .nil = some m
        rw [Table.get?_put, if_neg, hnil]
        rintro rfl
        rw [hnil] at hr'
        cases hr'
    | some m =>
      rw [hr, hr'] at hshared
      cases hshared with
      | spare ht hm =>
        -- the first run gets the node that the second one has to spare
        subst ht
        have hle := w.le_add ⟨r.graph.size⟩ m none
        have hstore := h.store.grow hle (h.graph.addSpare hm)
        refine ⟨_, hle, ?_, .inr ⟨rfl, rfl⟩⟩
        exact
          { store := hstore
            count := h.count
            size := h.size
            site := fun s hs => (h.site s hs).mono hle
            toRemembers := { h.toRemembers.mono hle with }
            sharedNodes := fun u => by
              show Shared _ u ((r.sharedNodes.put .nil _).get? u) (r'.sharedNodes.get? u)
              rw [Table.get?_put]
              split
              · next hu =>
                rw [hu, hr']
                exact .some (.inr ⟨rfl, rfl⟩)
              · next hu => exact (h.sharedNodes u).mono hle fun hnil => absurd hnil hu
            recorded := fun id hid => rel_mono hle.1 (h.recorded id hid)
            noted := h.noted
            distinct := h.distinct }

theorem slotNode (h : r.Paired σ ahead w r') (owner : Ty) (name : String) :
    ∃ v, w ≤ v ∧ (r.slotNode owner name).2.Paired σ ahead v (r'.slotNode owner name).2 ∧
      v.pairs (r.slotNode owner name).1 (r'.slotNode owner name).1 := by
  have hknown := h.slotNodes.get? Function.injective_id (owner, name)
  rw [id] at hknown
  unfold Run.slotNode
  generalize r.slotNodes.get? (owner, name) = a at hknown ⊢
  generalize r'.slotNodes.get? (owner, name) = b at hknown ⊢
  cases hknown with
  | some hn => exact ⟨w, le_rfl, h, hn⟩
  | none =>
    obtain ⟨v, hv, hfresh, hn⟩ := h.freshNode .plain .synthesized
    dsimp only
    have hslot : (r'.freshNode .plain .synthesized).2.catalog.slot? owner name =
        (r.freshNode .plain .synthesized).2.catalog.slot? owner name :=
      hfresh.read (f := fun c => c.slot? owner name) fun c => slot?_outline c owner name
    rw [hslot]
    rcases (r.freshNode .plain .synthesized).2.catalog.slot? owner name with _ | _ | declared
    · exact ⟨v, hv, hfresh.putSlot _ hn, hn⟩
    · exact ⟨v, hv, hfresh.putSlot _ hn, hn⟩
    · -- a slot with a declared type is bound to the node of that type
      obtain ⟨u, hu, hseed, hd⟩ := hfresh.sharedNode declared
      have hn := hu.1 _ _ hn
      exact ⟨u, le_trans hv hu, (hseed.bind hn hd).putSlot _ hn, hn⟩

end Run.Paired

end FlowTyping
