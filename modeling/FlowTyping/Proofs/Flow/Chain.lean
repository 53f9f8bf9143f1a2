import FlowTyping.Proofs.Flow.Session
import FlowTyping.Proofs.Flow.Succession

/-
  Chains of provisional types

  The successors of a provisional type form a chain that ends with a live one.
  Whatever is done in a session, each successor is entered after the type whose
  place it takes, for the same value and one generation later, and a live type
  stands for an object (`Catalog.Lined`). So all types of a chain stand for what
  its last one stands for, and what is superseded once is so for good
  (`provisional_chains`).
-/
namespace FlowTyping

open Relation Steps

namespace Catalog

variable {c c' : Catalog} {t u : Ty} {p q : Provisional}

/-! ## Operations that enter no provisional type -/

theorem steady_enterName (c : Catalog) (scope : Ty) (name : String) (t : Ty) :
    c.Steady (c.enterName scope name t) := by
  unfold enterName
  split
  · exact .of_shapes_eq rfl
  · exact .refl c

theorem steady_defineMethod (c : Catalog) (m : Method) : c.Steady (c.defineMethod m).2 := by
  unfold defineMethod
  dsimp only
  split
  · exact .of_shapes_eq rfl
  · exact .of_shapes_eq rfl

theorem steady_enterType (c : Catalog) (table : ClassTable) {shape : ClassHandle → Shape}
    (hshape : ∀ k, (shape k).isProvisional = false) : c.Steady (c.enterType table shape) := by
  have hadded : c.Steady { c with
      shapes := c.shapes.push (shape ⟨c.classes.size⟩), classes := c.classes.push table } :=
    (Steady.push c (hshape _)).trans (.of_shapes_eq rfl)
  unfold enterType
  split
  · exact hadded.trans (steady_enterName _ _ _ _)
  · exact hadded

theorem steady_enterMetaclass (c : Catalog) (t : Ty) (name : String) (container : Option Ty) :
    c.Steady (c.enterMetaclass t name container) := by
  have hadded : c.Steady { c with
      shapes := c.shapes.push (.metaclass ⟨c.classes.size⟩ t)
      classes := c.classes.push (.bare (name ++ ":Class") container none) } :=
    (Steady.push c (s := .metaclass ⟨c.classes.size⟩ t) rfl).trans (.of_shapes_eq rfl)
  exact hadded.trans ((steady_defineMethod _ _).trans (steady_defineMethod _ _))

theorem steady_newClassLike (c : Catalog) (name : String) (container superclass : Option Ty)
    {shape : ClassHandle → Shape} (hshape : ∀ k, (shape k).isProvisional = false) :
    c.Steady (c.newClassLike name container superclass shape).2 :=
  (steady_enterType c _ hshape).trans (steady_enterMetaclass _ _ _ _)

theorem steady_defineFields (fields : List (String × Ty)) (c : Catalog) (t : Ty) :
    c.Steady (fields.foldl (defineField t) c) := by
  induction fields generalizing c with
  | nil => exact .refl c
  | cons field fields ih =>
    exact ((steady_defineMethod _ _).trans (steady_defineMethod _ _)).trans (ih _)

theorem steady_setSlot (c : Catalog) (t : Ty) (name : String) (u : Ty) :
    c.Steady (c.setSlot t name u) := by
  unfold setSlot
  split
  · intro w p hp
    rw [shape_setShape] at hp
    split at hp
    · cases hp
    · exact hp
  · exact .refl c

/-- No operation of a session on the catalog touches provisional types. -/
theorem Change.steady (h : c.Change c') : c.Steady c' := by
  cases h with
  | mixin name container => exact steady_newClassLike c _ _ _ fun _ => rfl
  | primitive name superclass width container => exact steady_newClassLike c _ _ _ fun _ => rfl
  | object name superclass container generic =>
    rw [newObject_eq]
    exact (steady_newClassLike c _ _ _ fun _ => rfl).trans (steady_defineMethod _ _)
  | record name fields container =>
    rw [newRecord_eq]
    exact (steady_newClassLike c _ _ _ fun _ => rfl).trans
      ((steady_defineFields _ _ _).trans (steady_defineMethod _ _))
  | constant name value container =>
    exact (Steady.push c (s := .constant name container value) rfl).trans (steady_enterName _ _ _ _)
  | name scope name t => exact steady_enterName c scope name t
  | method m => exact steady_defineMethod c m
  | inclusion t included h =>
    unfold includeMixin at h
    split at h
    · cases h
    · split at h
      · cases h
      · cases h
        exact .of_shapes_eq rfl
  | slot t name u => exact steady_setSlot c t name u
  | merge ts _ => exact merge_steady c ts
  | pointer t => rw [pointerFor_eq_intern]; exact intern_steady rfl
  | copy template bindings => exact specialize_steady c template bindings
  | specialization t bindings h => exact instantiate_steady h

/-! ## Chains in a catalog -/

/-- Successors are in line, and live provisional types stand for objects. -/
structure Lined (c : Catalog) : Prop where
  successor : Store.Linked c
  target : ∀ t p u, c.shape t = .provisional p → p.standing.target? = some u →
    ∃ o, c.shape u = .object o

namespace Lined

theorem steady (h : c.Lined) (hg : c.Grows c') (hs : c.Steady c') : c'.Lined where
  successor t p u hp hu := by
    obtain ⟨st, hst⟩ := h.successor t p u ((hs.provisional_iff hg).mp hp) hu
    exact ⟨st, (hs.provisional_iff hg).mpr hst⟩
  target t p u hp hu := by
    obtain ⟨o, ho⟩ := h.target t p u ((hs.provisional_iff hg).mp hp) hu
    obtain ⟨slots, ho⟩ := hg.object ho
    exact ⟨_, ho⟩

/-- A live provisional type that stands for an object may be added. -/
theorem push (h : c.Lined) {o : ObjectShape} (hq : q.standing.target? = some u)
    (ho : c.shape u = .object o) : (c.push (.provisional q)).2.Lined := by
  have hkept : ∀ w, w.index < c.size → (c.push (.provisional q)).2.shape w = c.shape w :=
    fun w hw => by rw [shape_push, if_neg (Nat.ne_of_lt hw)]
  refine ⟨fun t p v hp hv => ?_, fun t p v hp hv => ?_⟩
  · rw [shape_push] at hp
    split at hp
    · obtain rfl := Shape.provisional.inj hp
      rw [hv] at hq
      cases hq
    · obtain ⟨st, hst⟩ := h.successor t p v hp hv
      exact ⟨st, (hkept v (lt_size_of_provisional hst)).trans hst⟩
  · rw [shape_push] at hp
    split at hp
    · obtain rfl := Shape.provisional.inj hp
      obtain rfl := Option.some.inj (hq.symm.trans hv)
      exact ⟨o, (hkept u (lt_size_of_object ho)).trans ho⟩
    · obtain ⟨o', ho'⟩ := h.target t p v hp hv
      exact ⟨o', (hkept v (lt_size_of_object ho')).trans ho'⟩

/-- A provisional type may take a standing that is fit for it. -/
theorem setStanding (h : c.Lined) (hp : c.shape t = .provisional p) {st : Standing}
    (htarget : ∀ u, st.target? = some u → ∃ o, c.shape u = .object o)
    (hsuccessor : ∀ u, st = .superseded u → u ≠ t ∧ ∃ st', c.shape u =
      .provisional { p with standing := st', generation := p.generation + 1 }) :
    (c.setShape t (.provisional { p with standing := st })).Lined := by
  have hshape : ∀ w, (c.setShape t (.provisional { p with standing := st })).shape w =
      if w = t then .provisional { p with standing := st } else c.shape w := fun w => by
    rw [shape_setShape]
    by_cases hw : w = t
    · rw [if_pos ⟨congrArg Ty.index hw, lt_size_of_provisional hp⟩, if_pos hw]
    · rw [if_neg fun e => hw (Ty.eq_of_index e.1), if_neg hw]
  have hobject : ∀ w o, c.shape w = .object o →
      (c.setShape t (.provisional { p with standing := st })).shape w = .object o := by
    intro w o ho
    rw [hshape, if_neg, ho]
    rintro rfl
    rw [hp] at ho
    cases ho
  refine ⟨fun w q v hq hv => ?_, fun w q v hq hv => ?_⟩
  · rw [hshape] at hq
    split at hq
    · obtain rfl := Shape.provisional.inj hq
      obtain ⟨hne, st', hst'⟩ := hsuccessor v hv
      exact ⟨st', (hshape v).trans ((if_neg hne).trans hst')⟩
    · obtain ⟨st', hst'⟩ := h.successor w q v hq hv
      -- the former type may itself have been a successor
      by_cases hvt : v = t
      · subst hvt
        obtain rfl := Shape.provisional.inj (hp.symm.trans hst')
        exact ⟨st, (hshape v).trans (if_pos rfl)⟩
      · exact ⟨st', (hshape v).trans ((if_neg hvt).trans hst')⟩
  · rw [hshape] at hq
    split at hq
    · obtain rfl := Shape.provisional.inj hq
      obtain ⟨o, ho⟩ := htarget v hv
      exact ⟨o, hobject v o ho⟩
    · obtain ⟨o, ho⟩ := h.target w q v hq hv
      exact ⟨o, hobject v o ho⟩

end Lined

/-- There are no chains at the start. -/
theorem Elementary.lined (h : c.Elementary) : c.Lined := by
  have hnone : ∀ t p, c.shape t ≠ .provisional p := fun t p hp => by
    have := h.plain t
    rw [hp] at this
    cases this
  exact ⟨fun t p u hp => (hnone t p hp).elim, fun t p u hp => (hnone t p hp).elim⟩

end Catalog

namespace Store

variable {s s' : Store} {t u w last target : Ty} {p q : Provisional}

/-! ## Chains in a session -/

/-- A specialization is an object, and entering it touches no provisional type. -/
theorem lined_instantiate {c c' : Catalog} (hc : c.Orderly) (hl : c.Lined)
    {bindings : List (String × Ty)} (h : c.instantiate t bindings = .ok (target, c')) :
    c'.Lined ∧ ∃ o, c'.shape target = .object o := by
  have hf := hc.follows_instantiate h
  obtain ⟨template, -, hknown⟩ := hc.known_instantiate h
  obtain ⟨o, ho, -⟩ := (hf.orderly hc).known _ _ hknown
  exact ⟨hl.steady hf.grows (Catalog.instantiate_steady h), o, ho⟩

theorem lined_install (hs : s.Orderly) (hl : s.catalog.Lined) (template : Ty)
    (observed : List (String × Node)) (holder : Node) :
    (left (install template observed holder s)).catalog.Lined := by
  unfold install
  rw [Steps.bind_eq]
  rcases specializationFor_cases s template observed with ⟨target, c, hc, heq⟩ | ⟨e, heq⟩
  · obtain ⟨hl, o, ho⟩ := lined_instantiate hs.catalog hl hc
    rw [heq]
    exact hl.push (target?_standing s.graph observed target) ho
  · rw [heq]
    exact hl

theorem lined_refresh (hs : s.Orderly) (hl : s.catalog.Lined) (t : Ty) (limit : Nat) :
    (left (refresh t limit s)).catalog.Lined := by
  rcases refresh_left s t limit with heq | ⟨p, former, target, c, hp, hformer, hc, hleft⟩
  · rw [heq]
    exact hl
  · obtain ⟨hl, o, ho⟩ := lined_instantiate hs.catalog hl hc
    have hp : c.shape t = .provisional p := by
      rw [Catalog.shape_instantiate hc (Catalog.lt_size_of_provisional hp), hp]
    have hstanding := target?_standing s.graph p.observed target
    rcases hleft with heq | ⟨-, heq⟩ | heq
    · rw [heq]
      exact hl
    · rw [heq]
      refine hl.setStanding hp (fun u hu => ?_) fun u hu => ?_
      · obtain rfl := Option.some.inj (hstanding.symm.trans hu)
        exact ⟨o, ho⟩
      · rw [hu] at hstanding
        cases hstanding
    · rw [heq, supersede_eq]
      have hne : t.index ≠ c.size := Nat.ne_of_lt (Catalog.lt_size_of_provisional hp)
      have hpushed := hl.push (q := succeeding s.graph p target) hstanding ho
      refine hpushed.setStanding ?_ (fun u hu => by cases hu) fun u hu => ?_
      · rw [Catalog.shape_push, if_neg hne, hp]
      · cases hu
        exact ⟨fun e => hne (congrArg Ty.index e).symm, _,
          (Catalog.shape_push _ _ _).trans (if_pos rfl)⟩

theorem Change.lined (h : s.Change s') (hs : s.Orderly) (hl : s.catalog.Lined) :
    s'.catalog.Lined := by
  have hf := (h.keeps hs).2
  cases h with
  | catalog h => exact hl.steady hf.grows h.steady
  | add | watch | unwatch | retype | overwrite => exact hl
  | bind n d => exact hl.steady hf.grows (bind_steady s n d)
  | unbind n d => exact hl.steady hf.grows (unbind_steady s n d)
  | propagate =>
    refine hl.steady hf.grows ?_
    refine left_drain (fun r => s.catalog.Steady r.catalog) (fun r n hr => ?_)
      (fun _ _ _ _ hr => hr) (fun _ _ hr => hr) _ _ (.refl _)
    rw [catalog_recompute]
    exact hr.trans (combine_steady _ _ _)
  | install template observed holder => exact lined_install hs hl template observed holder
  | refresh t limit => exact lined_refresh hs hl t limit

theorem Session.lined (h : s.Session s') (hs : s.Orderly) (hl : s.catalog.Lined) :
    s'.catalog.Lined := by
  induction h with
  | refl => exact hl
  | tail hbefore hstep ih => exact hstep.lined (Session.keeps hbefore hs).1 ih

theorem Started.lined (h : s.Started) : s.catalog.Lined := by
  obtain ⟨limit, h⟩ := h
  refine h.lined (orderly_start (orderly_of_elementary Catalog.elementary_seeded) limit) ?_
  dsimp only
  exact Catalog.elementary_seeded.lined

/-! ## What the types of a chain stand for -/

/-- A superseded type stands for what its successor stands for. -/
theorem Succeeds.resolve_eq (h : s.Succeeds t u) (hc : s.catalog.Grounded) :
    s.catalog.resolve t = s.catalog.resolve u := by
  obtain ⟨p, hp, hu⟩ := h
  have hlater := hc t p hp
  rw [hu] at hlater
  have hsize : u.index < s.catalog.size := by
    obtain ⟨q, hq⟩ := Shape.isProvisional_iff.mp hlater.2
    exact Catalog.lt_size_of_provisional hq
  have hstep : s.catalog.resolve t = s.catalog.resolveWithin s.catalog.size u := by
    unfold Catalog.resolve
    rw [Catalog.resolveWithin, hp]
    simp only [hu]
  exact hstep.trans (hc.resolveWithin_eq hsize (by omega))

/-- `last` is the live end of the chain that `t` belongs to. -/
structure EndsWith (s : Store) (t last : Ty) : Prop where
  path : ReflTransGen s.Succeeds t last
  live : ∃ q, s.catalog.shape last = .provisional q ∧ q.standing.isSuperseded = false

theorem Succeeds.endsWith_iff (h : s.Succeeds t u) : s.EndsWith t last ↔ s.EndsWith u last := by
  refine ⟨fun he => ⟨?_, he.live⟩, fun he => ⟨.head h he.path, he.live⟩⟩
  obtain ⟨p, hp, hu⟩ := h
  rcases ReflTransGen.cases_head he.path with rfl | ⟨v, ⟨q, hq, hv⟩, hpath⟩
  · obtain ⟨q, hq, hl⟩ := he.live
    obtain rfl := Shape.provisional.inj (hp.symm.trans hq)
    rw [hu] at hl
    cases hl
  · obtain rfl := Shape.provisional.inj (hp.symm.trans hq)
    obtain rfl := Standing.superseded.inj (hu.symm.trans hv)
    exact hpath

/-- A chain has one live end. -/
theorem EndsWith.unique (h : s.EndsWith t last) (h' : s.EndsWith t w) : last = w := by
  obtain ⟨hpath, hlive⟩ := h
  induction hpath using ReflTransGen.head_induction_on with
  | refl =>
    rcases ReflTransGen.cases_head h'.path with rfl | ⟨v, ⟨p, hp, hv⟩, -⟩
    · rfl
    · obtain ⟨q, hq, hl⟩ := hlive
      obtain rfl := Shape.provisional.inj (hp.symm.trans hq)
      rw [hv] at hl
      cases hl
  | head hstep _ ih => exact ih (hstep.endsWith_iff.mp h')

theorem EndsWith.resolve_eq (h : s.EndsWith t last) (hc : s.catalog.Grounded) :
    s.catalog.resolve t = s.catalog.resolve last := by
  obtain ⟨hpath, -⟩ := h
  induction hpath using ReflTransGen.head_induction_on with
  | refl => rfl
  | head hstep _ ih => exact (hstep.resolve_eq hc).trans ih

/-- The types of a chain have the same end and stand for the same. -/
theorem chain_agrees (hc : s.catalog.Grounded) (h : EqvGen s.Succeeds t u) :
    (∀ last, s.EndsWith t last ↔ s.EndsWith u last) ∧
      s.catalog.resolve t = s.catalog.resolve u := by
  induction h with
  | rel t u h => exact ⟨fun _ => h.endsWith_iff, h.resolve_eq hc⟩
  | refl t => exact ⟨fun _ => Iff.rfl, rfl⟩
  | symm t u _ ih => exact ⟨fun last => (ih.1 last).symm, ih.2.symm⟩
  | trans t u w _ _ ih ih' =>
    exact ⟨fun last => (ih.1 last).trans (ih'.1 last), ih.2.trans ih'.2⟩

theorem Started.endsWith (h : s.Started) (hp : s.catalog.shape t = .provisional p) :
    ∃ last q target, s.EndsWith t last ∧ s.catalog.shape last = .provisional q ∧
      q.standing.target? = some target ∧ q.template = p.template ∧ q.observed = p.observed ∧
      q.holder = p.holder := by
  obtain ⟨last, q, hq, hl, hpath, htemplate, hobserved, hholder⟩ :=
    exists_last h.lined.successor h.orderly.catalog.canonical.grounded hp
  obtain ⟨target, htarget⟩ : ∃ target, q.standing.target? = some target := by
    cases hstanding : q.standing with
    | pending target => exact ⟨target, rfl⟩
    | settled target => exact ⟨target, rfl⟩
    | superseded u =>
      rw [hstanding] at hl
      cases hl
  exact ⟨last, q, target, ⟨hpath, q, hq, hl⟩, hq, htarget, htemplate, hobserved, hholder⟩

/-- What a type is superseded by stays the same for the rest of a session. -/
theorem Session.superseded (h : s.Session s') (hs : s.Orderly)
    (hp : s.catalog.shape t = .provisional p) (hu : p.standing = .superseded u) :
    s'.catalog.shape t = .provisional p := by
  have hbecomes := (h.keeps hs).2.grows.shape t (Catalog.lt_size_of_provisional hp)
  rw [hp] at hbecomes
  generalize s'.catalog.shape t = shape at hbecomes ⊢
  cases hbecomes with
  | same => rfl
  | standing _ st hallows =>
    rw [hu] at hallows
    obtain rfl : st = .superseded u := hallows
    rw [← hu]

/-- At any moment of a session a superseded type has a successor that was entered later, for the
same template, nodes and holder and one generation on. A live provisional type stands for an object.
What a type stands for is found within as many steps as there are types entered from it on, is not
provisional and stands for itself. Each chain has one live type, and all of its types stand for the
target of that one. What is superseded stays so, by the same successor. -/
theorem provisional_chains (hs : s.Started) :
    (∀ t p u, s.catalog.shape t = .provisional p → p.standing = .superseded u →
      t.index < u.index ∧ ∃ st, s.catalog.shape u =
        .provisional { p with standing := st, generation := p.generation + 1 }) ∧
    (∀ t p u, s.catalog.shape t = .provisional p → p.standing.target? = some u →
      ∃ o, s.catalog.shape u = .object o) ∧
    (∀ t, t.index < s.catalog.size → s.catalog.Definite (s.catalog.resolve t) ∧
      s.catalog.resolve (s.catalog.resolve t) = s.catalog.resolve t ∧
      ∀ bound, s.catalog.size - t.index ≤ bound →
        s.catalog.resolveWithin bound t = s.catalog.resolve t) ∧
    (∀ t p, s.catalog.shape t = .provisional p → ∃ last q target, s.EndsWith t last ∧
      s.catalog.shape last = .provisional q ∧ q.standing.target? = some target ∧
      ∀ u, EqvGen s.Succeeds t u → s.catalog.resolve u = target ∧
        ∀ v, s.catalog.shape u = .provisional v →
          (v.standing.isSuperseded = false ↔ u = last)) ∧
    ∀ s', s.Session s' → ∀ t p u, s.catalog.shape t = .provisional p →
      p.standing = .superseded u → s'.catalog.shape t = .provisional p := by
  have hl := hs.lined
  have hgrounded := hs.orderly.catalog.canonical.grounded
  refine ⟨fun t p u hp hu => ⟨?_, hl.successor t p u hp hu⟩, hl.target, fun t ht => ?_,
    fun t p hp => ?_, fun s' hsession t p u hp hu => hsession.superseded hs.orderly hp hu⟩
  · have hlater := hgrounded t p hp
    rw [hu] at hlater
    exact hlater.1
  · have hdefinite := hgrounded.resolve_definite ht
    exact ⟨hdefinite, Catalog.resolve_of_definite hdefinite,
      fun bound hb => hgrounded.resolveWithin_eq ht hb⟩
  · obtain ⟨last, q, target, hends, hq, htarget, -⟩ := hs.endsWith hp
    refine ⟨last, q, target, hends, hq, htarget, fun u hchain => ?_⟩
    obtain ⟨hsame, hresolve⟩ := chain_agrees hgrounded hchain
    have hresolved := (hends.resolve_eq hgrounded).trans (Catalog.resolve_of_live hq htarget)
    refine ⟨hresolve.symm.trans hresolved, fun v hv => ⟨fun hlive => ?_, ?_⟩⟩
    · -- a live type is the end of its own chain, and this has one end
      exact EndsWith.unique ⟨.refl, v, hv, hlive⟩ ((hsame last).mp hends)
    · rintro rfl
      obtain rfl := Shape.provisional.inj (hq.symm.trans hv)
      exact Standing.isSuperseded_of_target? htarget

/-- An array of the type of a node, which then gets another type. -/
def reboundArray (s : Store) : Store :=
  let (element, g) := s.graph.add .plain (some .int) .synthesized
  let (holder, g) := g.add .plain none .synthesized
  let bound := left (install .array [("@buffer", element)] holder ⟨s.catalog, g⟩)
  let retyped : Store := ⟨bound.catalog, bound.graph.retype element .double⟩
  left (refresh ⟨retyped.catalog.size - 1⟩ 5 retyped)

theorem session_reboundArray (hs : s.Orderly) (hint : Ty.int.index < s.catalog.size)
    (hdouble : Ty.double.index < s.catalog.size) : s.Session s.reboundArray := by
  have helement : s.Session ⟨s.catalog, (s.graph.add .plain (some .int) .synthesized).2⟩ :=
    .single (.add .plain (some .int) .synthesized fun t ht => by cases ht; exact hint)
  have hadded : s.Session ⟨s.catalog, ((s.graph.add .plain (some .int) .synthesized).2.add .plain
      none .synthesized).2⟩ :=
    helement.tail (.add .plain none .synthesized fun t ht => by cases ht)
  have hbound := hadded.tail (.install .array [("@buffer", ⟨s.graph.size⟩)]
    ⟨(s.graph.add .plain (some .int) .synthesized).2.size⟩)
  have hsize := (Session.keeps hbound hs).2.grows.size_le
  exact (hbound.tail (.retype ⟨s.graph.size⟩ .double (Nat.lt_of_lt_of_le hdouble hsize))).tail
    (.refresh _ 5)

/-- Whether some type is a superseded provisional one. -/
def supersedesOne (s : Store) : Bool :=
  (List.range s.catalog.size).any fun i => s.catalog.isSuperseded ⟨i⟩

theorem exists_superseded (h : s.supersedesOne = true) :
    ∃ t p u, s.catalog.shape t = .provisional p ∧ p.standing = .superseded u := by
  obtain ⟨i, -, hi⟩ := List.any_eq_true.mp h
  unfold Catalog.isSuperseded at hi
  split at hi
  case h_1 p hp =>
    cases hstanding : p.standing with
    | superseded u => exact ⟨⟨i⟩, p, u, hp, hstanding⟩
    | pending => rw [hstanding] at hi; cases hi
    | settled target => rw [hstanding] at hi; cases hi
  case h_2 => cases hi

/-- The provisional type of the array has a successor, and both stand for the new array. -/
theorem provisional_chains_rebound : ∃ s : Store, s.Started ∧ ∃ t p u st,
    s.catalog.shape t = .provisional p ∧ p.standing = .superseded u ∧ t.index < u.index ∧
      s.catalog.shape u =
        .provisional { p with standing := st, generation := p.generation + 1 } ∧
      s.catalog.resolve t = s.catalog.resolve u := by
  have hstart : Started ⟨.seeded, .empty 10⟩ := ⟨10, .refl⟩
  have hsession := session_reboundArray hstart.orderly (by decide +kernel) (by decide +kernel)
  have hs : (reboundArray ⟨.seeded, .empty 10⟩).Started := ⟨10, hsession⟩
  have hone : (reboundArray ⟨.seeded, .empty 10⟩).supersedesOne = true := by decide +kernel
  obtain ⟨t, p, u, hp, hu⟩ := exists_superseded hone
  obtain ⟨hsuccessor, -, -, hchains, -⟩ := provisional_chains hs
  obtain ⟨hlt, st, hshape⟩ := hsuccessor t p u hp hu
  obtain ⟨last, q, target, -, -, -, hall⟩ := hchains t p hp
  exact ⟨_, hs, t, p, u, st, hp, hu, hlt, hshape,
    (hall t (.refl t)).1.trans (hall u (.rel t u ⟨p, hp, hu⟩)).1.symm⟩

end Store

end FlowTyping
