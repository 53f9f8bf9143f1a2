import Mathlib.Logic.Relation
import FlowTyping.Proofs.Catalog.Orderly
import FlowTyping.Proofs.Flow.Propagation
import FlowTyping.Proofs.Flow.Provisional

/-
  Sessions

  A session starts from the built-in types and an empty graph and takes
  operations on the catalog, on the graph and on provisional types in any order.
  An operation may mention any types: slots, bindings and declarations may hold
  provisional types, and copies may be made of copies. Only what is merged, or
  given to a node, has to be entered. Operations that fail belong to a session
  with what they have done before.

  Every session leads to an orderly store, and the catalog after it follows the
  one before it (`Session.keeps`).
-/
namespace FlowTyping

open Steps

/-- One operation of a session on the catalog. -/
inductive Catalog.Change (c : Catalog) : Catalog → Prop
  | mixin (name : String) (container : Option Ty) : Change c (c.newMixin name container).2
  | primitive (name : String) (superclass : Ty) (width : Nat) (container : Ty) :
      Change c (c.newPrimitive name superclass width container).2
  | object (name : String) (superclass : Option Ty) (container : Ty) (generic : Bool) :
      Change c (c.newObject name superclass container generic).2
  | record (name : String) (fields : Table String Ty) (container : Ty) :
      Change c (c.newRecord name fields container).2
  | constant (name : String) (value : Expr) (container : Ty) :
      Change c (c.newConstant name value container).2
  | name (scope : Ty) (name : String) (t : Ty) : Change c (c.enterName scope name t)
  | method (m : Method) : Change c (c.defineMethod m).2
  | inclusion (t included : Ty) {c' : Catalog} (h : c.includeMixin t included = .ok c') : Change c c'
  | slot (t : Ty) (name : String) (u : Ty) : Change c (c.setSlot t name u)
  | merge (ts : List Ty) (hts : ∀ t ∈ ts, t.index < c.size) : Change c (c.merge ts).2
  | pointer (t : Ty) : Change c (c.pointerFor t).2
  | copy (template : Ty) (bindings : List (String × Ty)) :
      Change c (c.specialize template bindings).2
  | specialization (t : Ty) (bindings : List (String × Ty)) {target : Ty} {c' : Catalog}
      (h : c.instantiate t bindings = .ok (target, c')) : Change c c'

theorem Catalog.Change.follows {c c' : Catalog} (h : c.Change c') (hc : c.Orderly) :
    c.Follows c' := by
  cases h with
  | mixin name container => exact follows_newMixin c name container
  | primitive name superclass width container =>
    exact follows_newPrimitive c name superclass width container
  | object name superclass container generic =>
    exact follows_newObject c name superclass container generic
  | record name fields container => exact follows_newRecord c name fields container
  | constant name value container => exact follows_newConstant c name value container
  | name scope name t => exact follows_enterName c scope name t
  | method m => exact follows_defineMethod c m
  | inclusion _ _ h => exact follows_includeMixin h
  | slot t name u => exact follows_setSlot c t name u
  | merge ts hts => exact follows_merge hts
  | pointer t => exact follows_pointerFor c t
  | copy template bindings => exact follows_specialize c template bindings
  | specialization t bindings h => exact hc.follows_instantiate h

namespace Store

/-- One operation of a session. -/
inductive Change (s : Store) : Store → Prop
  | catalog {c : Catalog} (h : s.catalog.Change c) : Change s ⟨c, s.graph⟩
  | add (kind : CellKind) (type : Option Ty) (place : Place)
      (htype : ∀ t, type = some t → t.index < s.catalog.size) :
      Change s ⟨s.catalog, (s.graph.add kind type place).2⟩
  | bind (n d : Node) : Change s (s.bind n d)
  | unbind (n d : Node) : Change s (s.unbind n d)
  | watch (n : Node) (w : Watcher) : Change s ⟨s.catalog, s.graph.watch n w⟩
  | unwatch (n : Node) (w : Watcher) : Change s ⟨s.catalog, s.graph.unwatch n w⟩
  | retype (n : Node) (t : Ty) (ht : t.index < s.catalog.size) :
      Change s ⟨s.catalog, s.graph.retype n t⟩
  | overwrite (n : Node) (t : Ty) (ht : t.index < s.catalog.size) :
      Change s ⟨s.catalog, s.graph.overwriteType n t⟩
  | propagate : Change s (left (propagate s))
  | install (template : Ty) (observed : List (String × Node)) (holder : Node) :
      Change s (left (install template observed holder s))
  | refresh (t : Ty) (limit : Nat) : Change s (left (refresh t limit s))

/-- Operations in any number and order. -/
def Session : Store → Store → Prop := Relation.ReflTransGen Change

/-- What a session leads to from the start. -/
def Started (s : Store) : Prop := ∃ limit, Session ⟨.seeded, .empty limit⟩ s

/-- An orderly catalog, and a graph over types that are entered in it. -/
structure Orderly (s : Store) : Prop where
  catalog : s.catalog.Orderly
  typed : ∀ n t, s.graph.typeAt n = some t → t.index < s.catalog.size

variable {s s' : Store} {c : Catalog}

namespace Orderly

theorem extend (h : s.Orderly) (hc : s.catalog.Follows c) : Orderly ⟨c, s.graph⟩ :=
  ⟨hc.orderly h.catalog, fun n t ht => Nat.lt_of_lt_of_le (h.typed n t ht) hc.grows.size_le⟩

theorem regraph (h : s.Orderly) {g : Graph} (hg : ∀ n, g.typeAt n = s.graph.typeAt n) :
    Orderly ⟨s.catalog, g⟩ :=
  ⟨h.catalog, fun n t ht => h.typed n t ((hg n).symm.trans ht)⟩

theorem retype (h : s.Orderly) (n : Node) {t : Ty} (ht : t.index < s.catalog.size) :
    Orderly ⟨s.catalog, s.graph.retype n t⟩ := by
  refine ⟨h.catalog, fun m u hu => ?_⟩
  have hu' : (s.graph.retype n t).typeAt m = some u := hu
  rw [Graph.typeAt_retype] at hu'
  split at hu'
  · cases hu'
    exact ht
  · exact h.typed m u hu'

theorem inputs_lt (h : s.Orderly) (n : Node) :
    ∀ t ∈ s.graph.inputs n, t.index < s.catalog.size := by
  intro t ht
  obtain ⟨d, -, hd⟩ := mem_inputs.mp ht
  exact h.typed d t hd

end Orderly

/-! ## Operations on the graph -/

theorem joined_follows {ts : List Ty} (hts : ∀ t ∈ ts, t.index < c.size) :
    c.Follows (joined c ts).2 := by
  unfold joined
  split
  · exact .refl c
  · exact .refl c
  · exact Catalog.follows_merge hts

theorem combine_follows {ts : List Ty} (hts : ∀ t ∈ ts, t.index < c.size) (kind : CellKind) :
    c.Follows (combine c kind ts).2 := by
  rw [combine_eq_joined]
  split
  · exact joined_follows hts
  · exact joined_follows hts
  · exact (joined_follows hts).trans (Catalog.follows_pointerFor _ _)

/-- What an operation of a session does to an orderly store. -/
def Keeps (s s' : Store) : Prop := s'.Orderly ∧ s.catalog.Follows s'.catalog

theorem Orderly.keeps_recompute (h : s.Orderly) (n : Node) : s.Keeps (s.recompute n) := by
  have hf := combine_follows (h.inputs_lt n) (s.graph.cell n).kind
  rcases recompute_cases s n with ⟨t, ht, heq⟩ | ⟨-, heq⟩
  · rw [heq]
    exact ⟨(h.extend hf).retype n (combine_lt_size h.catalog.canonical (h.inputs_lt n) ht), hf⟩
  · rw [heq]
    exact ⟨h.extend hf, hf⟩

theorem Orderly.keeps_bind (h : s.Orderly) (n d : Node) : s.Keeps (s.bind n d) := by
  have hlink := h.regraph (Graph.typeAt_link s.graph n d)
  rw [Store.bind_eq]
  split
  · exact hlink.keeps_recompute n
  · exact ⟨hlink, .refl _⟩

theorem Orderly.keeps_unbind (h : s.Orderly) (n d : Node) : s.Keeps (s.unbind n d) :=
  (h.regraph (Graph.typeAt_unlink s.graph n d)).keeps_recompute n

/-- A round of propagation keeps what its parts keep, also if the budget runs out. -/
theorem left_drain (P : Store → Prop) (hrecompute : ∀ s n, P s → P (s.recompute n))
    (htaken : ∀ s n rest budget, P s → P (s.taken n rest budget))
    (hdropped : ∀ s rest, P s → P ⟨s.catalog, { s.graph with queue := rest }⟩) (budget : Nat)
    {s : Store} (wakes : List Wake) (h : P s) : P (left (drain budget s wakes)) := by
  induction budget generalizing s wakes with
  | zero =>
    unfold drain
    split
    · exact h
    · exact hdropped s _ h
  | succ budget ih =>
    unfold drain
    split
    · exact h
    · exact ih _ (notify_keeps P hrecompute _ _ (htaken s _ _ _ h))

theorem Orderly.keeps_propagate (h : s.Orderly) : s.Keeps (left (propagate s)) := by
  refine left_drain s.Keeps (fun r n hr => ?_) (fun r n rest budget hr => ?_)
    (fun r rest hr => ?_) s.graph.budget [] ⟨h, .refl _⟩
  · have hn := hr.1.keeps_recompute n
    exact ⟨hn.1, hr.2.trans hn.2⟩
  · exact ⟨hr.1.regraph (field_taken (·.type) (fun _ => rfl) r n rest budget), hr.2⟩
  · exact ⟨hr.1.regraph fun _ => rfl, hr.2⟩

/-! ## Operations on provisional types -/

theorem specializationFor_cases (s : Store) (template : Ty) (observed : List (String × Node)) :
    (∃ target c, s.catalog.instantiate template (bindings s.graph observed) = .ok (target, c) ∧
      specializationFor template observed s = .ok target ⟨c, s.graph⟩) ∨
    ∃ e, specializationFor template observed s = .error e s := by
  unfold specializationFor
  split
  · next target c h => exact .inl ⟨target, c, h, rfl⟩
  · next e _ => exact .inr ⟨e, rfl⟩

/-- A specialization stands in the catalog that it is found in. -/
theorem definite_instantiate {c c' : Catalog} (hc : c.Orderly) {t target : Ty}
    {bs : List (String × Ty)} (h : c.instantiate t bs = .ok (target, c')) : c'.Definite target := by
  obtain ⟨template, -, hknown⟩ := hc.known_instantiate h
  exact (((hc.follows_instantiate h).orderly hc).known _ _ hknown).definite

theorem Orderly.keeps_install (h : s.Orderly) (template : Ty) (observed : List (String × Node))
    (holder : Node) : s.Keeps (left (install template observed holder s)) := by
  unfold install
  rw [Steps.bind_eq]
  rcases specializationFor_cases s template observed with ⟨target, c, hc, heq⟩ | ⟨e, heq⟩
  · have hf := h.catalog.follows_instantiate hc
    have hpush := hf.trans (Catalog.follows_push
      (s := .provisional (installed s.graph template observed holder target))
      (fun _ => ⟨target, target?_standing _ _ _, definite_instantiate h.catalog hc⟩)
      fun o u ho => by cases ho)
    rw [heq]
    refine ⟨((h.extend hpush).regraph
      (watchAll_rewatches s.graph observed ⟨c.size⟩).typeAt).retype holder ?_, hpush⟩
    show c.size < (c.push _).2.size
    rw [Catalog.size_push]
    exact Nat.lt_succ_self _
  · rw [heq]
    exact ⟨h, .refl _⟩

/-- A provisional type may take another standing. -/
theorem follows_setStanding {t : Ty} {p : Provisional} (hp : c.shape t = .provisional p)
    {st : Standing} (hst : p.standing.Allows st)
    (hlater : ∀ u, st = .superseded u → t.index < u.index ∧ (c.shape u).isProvisional = true) :
    c.Follows (c.setShape t (.provisional { p with standing := st })) := by
  have hb : (c.shape t).Becomes (.provisional { p with standing := st }) := by
    rw [hp]
    exact .standing p st hst
  refine ⟨fun hc => hc.grow (.setShape hb) (hc.canonical.setShape hb fun q u hq hs => ?_) rfl
    fun v o u hv ho _ => ?_, .setShape hb, fun _ _ h => h⟩
  · cases hq
    exact hlater u hs
  · rw [Catalog.shape_of_size_le (by rw [Catalog.size_setShape]; exact hv)] at ho
    cases ho

theorem Orderly.keeps_restand (h : s.Orderly) {t target : Ty} {p : Provisional}
    (hp : s.catalog.shape t = .provisional p) (htarget : p.standing.target? = some target) :
    s.Keeps (s.restand t p target) := by
  have hf := follows_setStanding hp
    (allows_of_target htarget (.inr (target?_standing s.graph p.observed target))) fun u hu => by
      have := target?_standing s.graph p.observed target
      rw [hu] at this
      cases this
  exact ⟨h.extend hf, hf⟩

theorem Orderly.keeps_supersede (h : s.Orderly) {t target former : Ty} {p : Provisional}
    (hp : s.catalog.shape t = .provisional p) (htarget : s.catalog.Definite target)
    (hformer : p.standing.target? = some former) : s.Keeps (s.supersede t p target) := by
  have ht := Catalog.lt_size_of_provisional hp
  have hpush : s.catalog.Follows (s.catalog.push (.provisional (succeeding s.graph p target))).2 :=
    Catalog.follows_push (fun _ => ⟨target, target?_standing _ _ _, htarget⟩) fun o u ho => by cases ho
  have hf : s.catalog.Follows (superseding s.catalog s.graph t p target) := by
    refine hpush.trans (follows_setStanding ?_ (allows_of_target hformer (.inl rfl)) fun u hu => ?_)
    · rw [Catalog.shape_push, if_neg (Nat.ne_of_lt ht), hp]
    · cases hu
      refine ⟨ht, ?_⟩
      rw [Catalog.shape_push, if_pos rfl]
      rfl
  rw [supersede_eq]
  have hsize : s.catalog.size < (superseding s.catalog s.graph t p target).size := by
    unfold superseding
    rw [Catalog.size_setShape, Catalog.size_push]
    exact Nat.lt_succ_self _
  exact ⟨((h.extend hf).retype p.holder hsize).regraph (handOver_rewatches _ _ _ _).typeAt, hf⟩

/-- All that a provisional type can do to a store, whether it reacts well or fails: nothing, or find
a specialization and then keep its place, be superseded or fail. -/
theorem refresh_left (s : Store) (t : Ty) (limit : Nat) :
    left (refresh t limit s) = s ∨
      ∃ p former target c, s.catalog.shape t = .provisional p ∧
        p.standing.target? = some former ∧
        s.catalog.instantiate p.template (bindings s.graph p.observed) = .ok (target, c) ∧
        (left (refresh t limit s) = ⟨c, s.graph⟩ ∨
          (target = former ∧ left (refresh t limit s) = restand ⟨c, s.graph⟩ t p target) ∨
          left (refresh t limit s) = supersede ⟨c, s.graph⟩ t p target) := by
  unfold refresh
  rw [get_bind_eq]
  cases hshape : s.catalog.shape t with
  | provisional p =>
    dsimp only
    cases hformer : p.standing.target? with
    | none => exact .inl rfl
    | some former =>
      dsimp only
      rw [Steps.bind_eq]
      rcases specializationFor_cases s p.template p.observed with ⟨target, c, hc, heq⟩ | ⟨e, heq⟩
      · refine .inr ⟨p, former, target, c, rfl, hformer, hc, ?_⟩
        rw [heq]
        dsimp only
        split
        · next hsame => exact .inr (.inl ⟨hsame, rfl⟩)
        · split
          · exact .inl rfl
          · exact .inr (.inr rfl)
      · rw [heq]
        exact .inl rfl
  | _ => exact .inl rfl

theorem Orderly.keeps_refresh (h : s.Orderly) (t : Ty) (limit : Nat) :
    s.Keeps (left (refresh t limit s)) := by
  rcases refresh_left s t limit with heq | ⟨p, former, target, c, hp, hformer, hc, hleft⟩
  · rw [heq]
    exact ⟨h, .refl _⟩
  · have hf := h.catalog.follows_instantiate hc
    have hs := h.extend hf
    have hp₁ : c.shape t = .provisional p := by
      rw [Catalog.shape_instantiate hc (Catalog.lt_size_of_provisional hp), hp]
    rcases hleft with heq | ⟨rfl, heq⟩ | heq
    · rw [heq]
      exact ⟨hs, hf⟩
    · rw [heq]
      have hkept := hs.keeps_restand hp₁ hformer
      exact ⟨hkept.1, hf.trans hkept.2⟩
    · rw [heq]
      have hkept := hs.keeps_supersede hp₁ (definite_instantiate h.catalog hc) hformer
      exact ⟨hkept.1, hf.trans hkept.2⟩

/-! ## Whole sessions -/

theorem Change.keeps (h : s.Change s') (hs : s.Orderly) : s.Keeps s' := by
  cases h with
  | catalog h =>
    have hf := h.follows hs.catalog
    exact ⟨hs.extend hf, hf⟩
  | add kind type place htype =>
    refine ⟨⟨hs.catalog, fun n t ht => ?_⟩, .refl _⟩
    have ht' : ((s.graph.add kind type place).2.cell n).type = some t := ht
    rw [Graph.cell_add] at ht'
    split at ht'
    · exact htype t ht'
    · exact hs.typed n t ht'
  | bind n d => exact hs.keeps_bind n d
  | unbind n d => exact hs.keeps_unbind n d
  | watch n w => exact ⟨hs.regraph (Graph.Rewatches.watch s.graph n w).typeAt, .refl _⟩
  | unwatch n w =>
    refine ⟨hs.regraph fun m => ?_, .refl _⟩
    refine Graph.field_modify (·.type) (fun _ => ?_) s.graph n m
    rfl
  | retype n t ht => exact ⟨hs.retype n ht, .refl _⟩
  | overwrite n t ht =>
    refine ⟨⟨hs.catalog, fun m u hu => ?_⟩, .refl _⟩
    have hu' : ((s.graph.modify n fun cell => { cell with type := some t }).cell m).type = some u :=
      hu
    rw [Graph.cell_modify] at hu'
    split at hu'
    · cases hu'
      exact ht
    · exact hs.typed m u hu'
  | propagate => exact hs.keeps_propagate
  | install template observed holder => exact hs.keeps_install template observed holder
  | refresh t limit => exact hs.keeps_refresh t limit

theorem Session.keeps (h : s.Session s') (hs : s.Orderly) : s.Keeps s' := by
  induction h with
  | refl => exact ⟨hs, .refl _⟩
  | tail _ hstep ih =>
    have hlast := hstep.keeps ih.1
    exact ⟨hlast.1, ih.2.trans hlast.2⟩

/-- A catalog without unions, provisional types and specializations is orderly. -/
theorem orderly_of_elementary (h : c.Elementary) : c.Orderly where
  canonical := h.sound.canonical
  copies t o u ho hu := by
    have hlinked := h.sound.links t
    rw [ho] at hlinked
    obtain ⟨hgen, o', ho', -, -, hcls⟩ := hlinked u hu
    exact ⟨hgen, o', ho', hcls⟩
  known key t hknown := by
    have := Table.mem_of_get? hknown
    rw [h.specializations] at this
    cases this
  once key key' t hknown := by
    have := Table.mem_of_get? hknown
    rw [h.specializations] at this
    cases this

theorem orderly_start (hc : c.Orderly) (limit : Nat) : Orderly ⟨c, .empty limit⟩ :=
  ⟨hc, (formed_start hc.canonical limit).typed⟩

theorem Started.orderly (h : s.Started) : s.Orderly := by
  obtain ⟨limit, h⟩ := h
  exact (h.keeps (orderly_start (orderly_of_elementary Catalog.elementary_seeded) limit)).1

end Store

/-- The catalogs that sessions lead to. -/
def Catalog.Started (c : Catalog) : Prop := ∃ s : Store, s.Started ∧ s.catalog = c

theorem Catalog.started_seeded : Started seeded :=
  ⟨⟨seeded, .empty 0⟩, ⟨0, .refl⟩, by dsimp only⟩

theorem Catalog.Started.canonical {c : Catalog} (h : c.Started) : c.Canonical := by
  obtain ⟨s, hs, rfl⟩ := h
  exact hs.orderly.catalog.canonical

end FlowTyping
