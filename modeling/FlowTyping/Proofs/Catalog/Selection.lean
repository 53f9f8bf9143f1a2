import Mathlib.Data.List.Basic
import FlowTyping.Proofs.Catalog.Lookup
import FlowTyping.Proofs.Saturation

/-
  What a call selects stays

  What a call on definite types does is read off entries, class tables and
  methods that do not change while a program is typed. So it does the same in
  every later catalog (`Extends.dispatch_eq`), although the catalog is larger
  and with it the bounds of all searches.
-/
namespace FlowTyping

/-- Whether types of this shape have parents of their own. -/
def Shape.hasParents : Shape → Bool
  | .primitive _ _ | .object _ | .mixin _ | .pointer _ => true
  | _ => false

theorem Shape.Becomes.hasParents_eq {a b : Shape} (h : a.Becomes b) :
    b.hasParents = a.hasParents := by
  cases h <;> rfl

/-- A query about definite types. -/
structure Query.Definite (q : Query) (c : Catalog) : Prop where
  arguments : ∀ t ∈ q.arguments, c.Definite t
  receiver : c.Definite q.receiver

namespace Catalog

variable {c c' : Catalog} {t u : Ty}

/-- The entered types. -/
def entered (c : Catalog) : List Ty := (List.range c.size).map Ty.mk

theorem mem_entered : t ∈ c.entered ↔ t.index < c.size := by
  unfold entered
  rw [List.mem_map]
  constructor
  · rintro ⟨i, hi, rfl⟩
    exact List.mem_range.mp hi
  · exact fun h => ⟨t.index, List.mem_range.mpr h, rfl⟩

theorem length_entered (c : Catalog) : c.entered.length = c.size := by
  simp [entered]

/-! ## Acceptance -/

theorem all_congr_mem {α : Type} {l : List α} {p q : α → Bool} (h : ∀ a ∈ l, p a = q a) :
    l.all p = l.all q := by
  rw [Bool.eq_iff_iff, List.all_eq_true, List.all_eq_true]
  exact forall₂_congr fun a ha => by rw [h a ha]

theorem any_congr_mem {α : Type} {l : List α} {p q : α → Bool} (h : ∀ a ∈ l, p a = q a) :
    l.any p = l.any q := by
  rw [← Bool.not_inj_iff, List.not_any_eq_all_not, List.not_any_eq_all_not]
  exact all_congr_mem fun a ha => by rw [h a ha]

theorem acceptsWithin_mono (c : Catalog) (r : Ty) (n : Nat) :
    ∀ t, c.acceptsWithin n r t = true → c.acceptsWithin (n + 1) r t = true := by
  induction n with
  | zero => exact fun t h => by cases h
  | succ n ih =>
    intro t h
    unfold acceptsWithin at h ⊢
    rw [Bool.or_eq_true] at h ⊢
    refine h.imp_right fun h => ?_
    split at h
    · next ms hms =>
      exact List.all_eq_true.mpr fun m hm => ih m (List.all_eq_true.mp h m hm)
    · rw [Bool.or_eq_true] at h ⊢
      refine h.imp_right fun h => ?_
      obtain ⟨p, hp, hacc⟩ := List.any_eq_true.mp h
      exact List.any_eq_true.mpr ⟨p, hp, ih p hacc⟩

/-- What the acceptance of `t` goes back to: the members of a union, the parents of another type. -/
def climbs (c : Catalog) (t : Ty) : List Ty :=
  match c.resolvedShape t with
  | .union members => members
  | _ => c.parents t

/-- Entered types go back to entered types. -/
def Closed (c : Catalog) : Prop := ∀ t ∈ c.entered, ∀ u ∈ c.climbs t, u ∈ c.entered

theorem acceptsWithin_succ (c : Catalog) (n : Nat) (r t : Ty) :
    c.acceptsWithin (n + 1) r t = (c.resolve r == c.resolve t ||
      if (c.resolvedShape t).isUnion then (c.climbs t).all (c.acceptsWithin n r)
      else c.sameClass r t || (c.climbs t).any (c.acceptsWithin n r)) := by
  unfold acceptsWithin climbs
  cases c.resolvedShape t <;> rfl

/-- One more step, given what each type gives that is gone back to. -/
theorem acceptsWithin_congr {r : Ty} {n m : Nat}
    (h : ∀ u ∈ c.climbs t, c.acceptsWithin n r u = c.acceptsWithin m r u) :
    c.acceptsWithin (n + 1) r t = c.acceptsWithin (m + 1) r t := by
  rw [acceptsWithin_succ, acceptsWithin_succ, all_congr_mem h, any_congr_mem h]

/-- A larger bound accepts no more. -/
theorem Closed.accepts_bound (hc : c.Closed) (r : Ty) (ht : t.index < c.size) {bound : Nat}
    (hb : c.size + 1 ≤ bound) : c.acceptsWithin bound r t = c.accepts r t := by
  have key := saturated (p := fun n => c.acceptsWithin n r) (l := c.entered)
    (fun n a _ h => acceptsWithin_mono c r n a h)
    (fun n h a ha => acceptsWithin_congr fun u hu => h u (hc a ha u hu))
  rw [length_entered] at key
  have h₁ := key (bound - (c.size + 1)) t (mem_entered.mpr ht)
  have h₂ := key 1 t (mem_entered.mpr ht)
  rw [show c.size + 1 + (bound - (c.size + 1)) = bound by omega] at h₁
  exact h₁.trans h₂.symm

theorem Sound.closed (hc : c.Sound) : c.Closed := by
  intro t ht u hu
  unfold climbs at hu
  split at hu
  · next members hmembers =>
    refine mem_entered.mpr (hc.shapes (c.resolve t) u ?_).1
    rw [show c.shape (c.resolve t) = _ from hmembers]
    exact hu
  · exact mem_entered.mpr (hc.parents u hu).1

/-- A larger bound accepts no more. -/
theorem Sound.accepts_bound (hc : c.Sound) (r : Ty) (ht : t.index < c.size) {bound : Nat}
    (hb : c.size + 1 ≤ bound) : c.acceptsWithin bound r t = c.accepts r t :=
  hc.closed.accepts_bound r ht hb

/-- The types whose tables are searched for a call on a definite type are definite. -/
theorem Sound.searchOrder (hc : c.Sound) {owner : Ty} (howner : c.Definite owner) {q : Query} :
    ∀ t ∈ c.searchOrder owner q, c.Definite t := by
  have hstart : ∀ t ∈ [c.resolve owner], c.Definite t := by
    intro t ht
    rw [List.mem_singleton.mp ht]
    exact hc.resolve howner.1
  unfold Catalog.searchOrder
  split
  · exact hstart
  · refine forall_mem_preorder (fun t _ u hu => ?_) hstart
    obtain ⟨p, hp, rfl⟩ := List.mem_map.mp hu
    exact hc.resolve (hc.parents p hp).1

theorem declaredParents_eq_if (c : Catalog) (t : Ty) :
    c.declaredParents t = if (c.resolvedShape t).hasParents then
      ((c.tableOf t).map fun table => table.includes ++ table.superclass.toList).getD [] else [] := by
  unfold declaredParents
  cases c.resolvedShape t <;> cases c.tableOf t <;> rfl

theorem metaclass?_of_shapes_eq (h : c'.shapes = c.shapes) (t : Ty) :
    c'.metaclass? t = c.metaclass? t := by
  have hholder : c'.metaclassHolder t = c.metaclassHolder t := by
    rw [metaclassHolder, metaclassHolder, resolvedShape_of_shapes_eq h, resolve_of_shapes_eq h]
  rw [metaclass?, metaclass?, hholder, shape_of_shapes_eq h]

namespace Grows

theorem becomes (h : c.Grows c') (ht : c.Definite t) :
    (c.resolvedShape t).Becomes (c'.resolvedShape t) := by
  unfold resolvedShape
  rw [resolve_of_definite ht, resolve_of_definite (h.definite ht)]
  exact h.shape t ht.1

theorem cls?_eq (h : c.Grows c') (ht : c.Definite t) : c'.cls? t = c.cls? t := by
  have hb := h.becomes ht
  unfold cls?
  generalize c.resolvedShape t = a at hb ⊢
  generalize c'.resolvedShape t = b at hb ⊢
  cases hb <;> rfl

end Grows

namespace Extends

theorem resolve_eq (h : c.Extends c') (ht : c.Definite t) : c'.resolve t = c.resolve t := by
  rw [resolve_of_definite ht, resolve_of_definite (h.definite ht)]

/-- All that a class table says but its nested types. -/
theorem tableOf_map_eq {β : Type} (h : c.Extends c') (ht : c.Definite t) (view : ClassTable → β)
    (hview : ∀ table types, view { table with types := types } = view table) :
    (c'.tableOf t).map view = (c.tableOf t).map view := by
  unfold tableOf
  rw [h.cls?_eq ht]
  cases c.cls? t with
  | none => rfl
  | some k =>
    obtain ⟨types, htypes⟩ := h.classTable k
    show some (view (c'.classTable k)) = some (view (c.classTable k))
    rw [htypes, hview]

theorem isMeta_eq (h : c.Extends c') (ht : c.Definite t) : c'.isMeta t = c.isMeta t := by
  have hb := h.becomes ht
  unfold isMeta
  generalize c.resolvedShape t = a at hb ⊢
  generalize c'.resolvedShape t = b at hb ⊢
  cases hb <;> rfl

theorem members_eq (h : c.Extends c') (ht : c.Definite t) : c'.members t = c.members t :=
  h.toGrows.members_of_definite_eq ht

theorem declaredParents_eq (h : c.Extends c') (ht : c.Definite t) :
    c'.declaredParents t = c.declaredParents t := by
  have htable := h.tableOf_map_eq ht (fun table => table.includes ++ table.superclass.toList)
    fun _ _ => rfl
  rw [declaredParents_eq_if, declaredParents_eq_if, htable, (h.becomes ht).hasParents_eq]

theorem metaclassHolder_eq (h : c.Extends c') (ht : c.Definite t) :
    c'.metaclassHolder t = c.metaclassHolder t := by
  have hb := h.becomes ht
  unfold metaclassHolder
  rw [h.resolve_eq ht]
  generalize c.resolvedShape t = a at hb ⊢
  generalize c'.resolvedShape t = b at hb ⊢
  cases hb <;> rfl

/-- An entry that was there has a metaclass behind it exactly if it had one. -/
theorem shape_metaclass_iff (h : c.Extends c') {k : ClassHandle} :
    c'.shape t = .metaclass k u ↔ c.shape t = .metaclass k u := by
  rcases Nat.lt_or_ge t.index c.size with hlt | hge
  · have hb := h.shape t hlt
    constructor
    · intro hs
      rw [hs] at hb
      generalize c.shape t = a at hb ⊢
      cases hb
      rfl
    · intro hs
      rw [hs] at hb
      generalize c'.shape t = b at hb ⊢
      cases hb
      rfl
  · refine ⟨fun hs => absurd hs (h.entered t hge k u), fun hs => ?_⟩
    rw [shape_of_size_le hge] at hs
    cases hs

theorem metaclass?_eq (h : c.Extends c') (ht : c.Definite t) :
    c'.metaclass? t = c.metaclass? t := by
  -- having a metaclass is a matter of one shape, and shapes of metaclasses stay
  have key : ∀ d : Catalog, ∀ v, d.metaclass? t = some v ↔
      v = (d.metaclassHolder t).next ∧
        ∃ k, d.shape (d.metaclassHolder t).next = .metaclass k (d.metaclassHolder t) := by
    intro d v
    unfold metaclass?
    dsimp only
    split
    · next k s hs =>
      split
      · next heq =>
        subst heq
        rw [hs]
        simp [eq_comm]
      · next hne =>
        rw [hs]
        simp [hne]
    · next hno =>
      refine ⟨fun hn => by (cases hn), fun hk => ?_⟩
      obtain ⟨k, hk⟩ := hk.2
      exact absurd hk (hno k _)
  refine Option.ext fun v => ?_
  rw [key, key, h.metaclassHolder_eq ht]
  simp only [h.shape_metaclass_iff]

theorem parents_eq (h : c.Extends c') (hc : c.Sound) (ht : c.Definite t) :
    c'.parents t = c.parents t := by
  have hb := h.becomes ht
  have hdeclared := h.declaredParents_eq ht
  unfold parents
  cases hs : c.resolvedShape t with
  | metaclass k s =>
    rw [hs] at hb
    have hsd : c.Definite s := hc.metaclass_subject hs
    generalize c'.resolvedShape t = b at hb ⊢
    cases hb
    show (c'.declaredParents s).filterMap c'.metaclass? = (c.declaredParents s).filterMap c.metaclass?
    rw [h.declaredParents_eq hsd]
    exact List.filterMap_congr fun p hp => h.metaclass?_eq (hc.declaredParents p hp)
  | _ =>
    rw [hs] at hb
    generalize c'.resolvedShape t = b at hb ⊢
    cases hb <;> exact hdeclared

theorem sameClass_eq (h : c.Extends c') (ht : c.Definite t) (hu : c.Definite u) :
    c'.sameClass t u = c.sameClass t u := by
  unfold sameClass
  rw [h.cls?_eq ht, h.cls?_eq hu]

theorem acceptsWithin_eq (h : c.Extends c') (hc : c.Sound) {r : Ty} (hr : c.Definite r) (bound : Nat)
    (ht : c.Definite t) : c'.acceptsWithin bound r t = c.acceptsWithin bound r t := by
  induction bound generalizing t with
  | zero => rfl
  | succ bound ih =>
    have hb := h.becomes ht
    have hunion : ∀ ms, c.resolvedShape t = .union ms →
        ms.all (c'.acceptsWithin bound r) = ms.all (c.acceptsWithin bound r) := fun ms hms =>
      all_congr_mem fun m hm => ih (hc.shapes (c.resolve t) m (by
        rw [show c.shape (c.resolve t) = _ from hms]; exact hm))
    have hparents : (c'.parents t).any (c'.acceptsWithin bound r) =
        (c.parents t).any (c.acceptsWithin bound r) := by
      rw [h.parents_eq hc ht]
      exact any_congr_mem fun p hp => ih (hc.parents p hp)
    unfold acceptsWithin
    -- with the parts equal, what is left to compare is the kind of shape alone
    rw [h.resolve_eq ht, h.resolve_eq hr, h.sameClass_eq hr ht, hparents]
    generalize c.resolvedShape t = a at hb hunion ⊢
    generalize c'.resolvedShape t = b at hb ⊢
    cases hb with
    | same =>
      cases a with
      | union ms => exact congrArg (c.resolve r == c.resolve t || ·) (hunion ms rfl)
      | _ => rfl
    | slots => rfl
    | standing => rfl

theorem accepts_eq (h : c.Extends c') (hc : c.Sound) {r : Ty} (hr : c.Definite r)
    (ht : c.Definite t) : c'.accepts r t = c.accepts r t := by
  have hsize := h.size_le
  unfold accepts
  rw [h.acceptsWithin_eq hc hr _ ht, hc.accepts_bound r ht.1 (by omega)]
  rfl

/-! ## Applicable definitions -/

theorem acceptsArgument_eq (h : c.Extends c') (hc : c.Sound) {receiver : Ty}
    (hreceiver : c.Definite receiver) {restriction : Option Restriction}
    (hr : ∀ u, restriction = some (.type u) → c.Definite u) (ht : c.Definite t) :
    c'.acceptsArgument receiver restriction t = c.acceptsArgument receiver restriction t := by
  match restriction with
  | none => rfl
  | some .receiver => exact h.accepts_eq hc hreceiver ht
  | some (.type u) => exact h.accepts_eq hc (hr u rfl) ht

theorem acceptsArguments_eq (h : c.Extends c') (hc : c.Sound) {receiver : Ty}
    (hreceiver : c.Definite receiver) {rs : List (Option Restriction)}
    (hrs : ∀ u ∈ restrictedTypes rs, c.Definite u) {ts : List Ty} (hts : ∀ t ∈ ts, c.Definite t) :
    c'.acceptsArguments receiver rs ts = c.acceptsArguments receiver rs ts := by
  induction rs generalizing ts with
  | nil => cases ts <;> rfl
  | cons r rs ih =>
    cases ts with
    | nil => rfl
    | cons t ts =>
      have hhead : c'.acceptsArgument receiver r t = c.acceptsArgument receiver r t :=
        h.acceptsArgument_eq hc hreceiver
          (fun u hu => hrs u (Sound.mem_restrictedTypes.mpr (by rw [hu]; exact List.mem_cons_self)))
          (hts t List.mem_cons_self)
      have htail := ih
        (fun u hu => hrs u (Sound.mem_restrictedTypes.mpr
          (List.mem_cons_of_mem r (Sound.mem_restrictedTypes.mp hu))))
        (fun u hu => hts u (List.mem_cons_of_mem t hu))
      unfold acceptsArguments
      rw [hhead, htail]

theorem fits_eq (h : c.Extends c') (hc : c.Sound) {q : Query} (hq : q.Definite c) {key : MethodKey}
    (hkey : ∀ u ∈ restrictedTypes key.restrictions, c.Definite u) : c'.fits q key = c.fits q key := by
  unfold fits
  rw [h.acceptsArguments_eq hc hq.receiver hkey hq.arguments]

theorem moreGeneralParameter_eq (h : c.Extends c') (hc : c.Sound) {receiver : Ty}
    (hreceiver : c.Definite receiver) {general specific : Parameter}
    (hg : ∀ u, general.restriction = some (.type u) → c.Definite u)
    (hs : ∀ u, specific.restriction = some (.type u) → c.Definite u) :
    c'.moreGeneralParameter receiver general specific =
      c.moreGeneralParameter receiver general specific := by
  have hfor : ∀ r : Restriction, (∀ u, r = .type u → c.Definite u) → c.Definite (r.typeFor receiver) := by
    intro r hr
    cases r with
    | type u => exact hr u rfl
    | receiver => exact hreceiver
  unfold moreGeneralParameter
  cases hgr : general.restriction with
  | none => rfl
  | some g =>
    cases hsr : specific.restriction with
    | none => rfl
    | some s =>
      exact h.accepts_eq hc (hfor g fun u hu => hg u (by rw [hgr, hu]))
        (hfor s fun u hu => hs u (by rw [hsr, hu]))

theorem moreGeneral_eq (h : c.Extends c') (hc : c.Sound) {receiver : Ty}
    (hreceiver : c.Definite receiver) (general specific : MethodHandle) :
    c'.moreGeneral receiver general specific = c.moreGeneral receiver general specific := by
  have hmethod : ∀ m, c'.method m = c.method m := fun m => by unfold method; rw [h.methods]
  have hparameter : ∀ m, ∀ p ∈ (c.method m).parameters, ∀ u, p.restriction = some (.type u) →
      c.Definite u := by
    intro m p hp u hu
    refine hc.methods m u (List.mem_cons_of_mem _ (List.mem_append_left _ ?_))
    exact Sound.mem_restrictedTypes.mpr (List.mem_map.mpr ⟨p, hp, hu⟩)
  unfold moreGeneral
  rw [hmethod, hmethod]
  refine all_congr_mem fun pair hpair => ?_
  obtain ⟨hg, hs⟩ := List.of_mem_zip (show (pair.1, pair.2) ∈ _ from hpair)
  exact h.moreGeneralParameter_eq hc hreceiver (hparameter general _ hg) (hparameter specific _ hs)

theorem mostSpecific_eq (h : c.Extends c') (hc : c.Sound) {receiver : Ty}
    (hreceiver : c.Definite receiver) (candidates : List MethodHandle) :
    c'.mostSpecific receiver candidates = c.mostSpecific receiver candidates := by
  refine List.filter_congr fun m _ => all_congr_mem fun other _ => ?_
  rw [h.moreGeneral_eq hc hreceiver]

theorem selectAmong_eq (h : c.Extends c') (hc : c.Sound) {q : Query} (hq : q.Definite c)
    {overloads : Table MethodKey MethodHandle}
    (hoverloads : ∀ entry ∈ overloads.entries, ∀ u ∈ restrictedTypes entry.1.restrictions,
      c.Definite u) :
    c'.selectAmong q overloads = c.selectAmong q overloads := by
  have hfitting : definitions overloads (c'.fits q) = definitions overloads (c.fits q) := by
    have : (overloads.entries.filter fun entry => c'.fits q entry.1) =
        overloads.entries.filter fun entry => c.fits q entry.1 :=
      List.filter_congr fun entry hentry => h.fits_eq hc hq (hoverloads entry hentry)
    unfold definitions
    rw [this]
  unfold selectAmong
  rw [hfitting]
  cases definitions overloads (c.fits q) with
  | nil => rfl
  | cons m ms =>
    dsimp only
    rw [h.mostSpecific_eq hc hq.receiver]

/-! ## Search -/

theorem searchOrder_eq (h : c.Extends c') (hc : c.Sound) {owner : Ty} (howner : c.Definite owner)
    {q : Query} (hq : q.Definite c) : c'.searchOrder owner q = c.searchOrder owner q := by
  have hclosed : ∀ a, c.Definite a → ∀ b ∈ (c.parents a).map c.resolve, c.Definite b := by
    intro a _ b hb
    obtain ⟨p, hp, rfl⟩ := List.mem_map.mp hb
    exact hc.resolve (hc.parents p hp).1
  have hagree : ∀ a, c.Definite a →
      (c'.parents a).map c'.resolve = (c.parents a).map c.resolve := by
    intro a ha
    rw [h.parents_eq hc ha]
    exact List.map_congr_left fun p hp => h.resolve_eq (hc.parents p hp)
  have hstart : ∀ a ∈ [c.resolve owner], c.Definite a := by
    intro a ha
    rw [List.mem_singleton.mp ha, resolve_of_definite howner]
    exact howner
  have hwithin : ∀ a ∈ c.entered, ∀ b ∈ (c.parents a).map c.resolve, b ∈ c.entered := by
    intro a _ b hb
    obtain ⟨p, hp, rfl⟩ := List.mem_map.mp hb
    exact mem_entered.mpr (hc.resolve (hc.parents p hp).1).1
  -- the bounds differ, as the later catalog is larger, but either is large enough
  have hsize := h.size_le
  have hunseen : (unseen c.entered []).length ≤ c.size := by
    rw [← length_entered c]
    exact List.length_filter_le _ _
  unfold searchOrder
  rw [h.isMeta_eq hq.receiver, h.resolve_eq howner, preorder_congr hclosed hagree _ hstart,
    preorder_bound hwithin (fun a ha => mem_entered.mpr (hstart a ha).1)
      (Nat.le_trans hunseen (by omega)) (Nat.le_trans hunseen (Nat.le_succ c.size))]

/-- The definitions of one name that a class table has. -/
theorem overloads_eq (h : c.Extends c') (ht : c.Definite t) (name : String) :
    (c'.tableOf t).bind (·.methods.get? name) = (c.tableOf t).bind (·.methods.get? name) := by
  have hmethods := h.tableOf_map_eq ht ClassTable.methods fun _ _ => rfl
  rcases hold : c.tableOf t with _ | old
  · rw [hold] at hmethods
    rw [Option.map_eq_none_iff.mp hmethods]
  · rw [hold] at hmethods
    obtain ⟨new, hnew, heq⟩ := Option.map_eq_some_iff.mp hmethods
    rw [hnew, Option.bind_some, Option.bind_some, heq]

theorem verdicts_eq (h : c.Extends c') (hc : c.Sound) {owner : Ty} (howner : c.Definite owner)
    {q : Query} (hq : q.Definite c) : c'.verdicts owner q = c.verdicts owner q := by
  unfold verdicts
  rw [h.searchOrder_eq hc howner hq]
  refine List.filterMap_congr fun t ht => ?_
  rw [h.overloads_eq (hc.searchOrder howner t ht)]
  rcases hfound : (c.tableOf t).bind (·.methods.get? q.name) with _ | overloads
  · rw [Option.map_none, Option.map_none]
  · obtain ⟨table, htable, hget⟩ := Option.bind_eq_some_iff.mp hfound
    rw [Option.map_some, Option.map_some, h.selectAmong_eq hc hq]
    intro entry hentry u hu
    refine hc.tableOf htable u (List.mem_append_right _ ?_)
    exact List.mem_flatMap.mpr ⟨_, Table.mem_of_get? hget,
      List.mem_flatMap.mpr ⟨entry, hentry, hu⟩⟩

/-- A call on definite types selects the same in every later catalog. -/
theorem select_eq (h : c.Extends c') (hc : c.Sound) {owner : Ty} (howner : c.Definite owner)
    {q : Query} (hq : q.Definite c) : c'.select owner q = c.select owner q := by
  unfold select
  rw [h.verdicts_eq hc howner hq]

/-! ## What a call does -/

theorem constructed_eq (h : c.Extends c') (hc : c.Sound) {owner : Ty} (howner : c.Definite owner) :
    c'.constructed owner = c.constructed owner := by
  have hb := h.shape owner howner.1
  unfold constructed
  cases hs : c.shape owner with
  | metaclass k t =>
    rw [hs] at hb
    have ht := h.shape t (hc.metaclass_subject hs).1
    generalize c'.shape owner = b at hb ⊢
    cases hb
    dsimp only
    generalize c.shape t = a at ht ⊢
    generalize c'.shape t = b at ht ⊢
    cases ht <;> rfl
  | _ =>
    rw [hs] at hb
    generalize c'.shape owner = b at hb ⊢
    cases hb <;> rfl

/-- A call does the same on definite types in every later catalog. -/
theorem dispatch_eq (h : c.Extends c') (hc : c.Sound) (call : CallSite) {owner : Ty}
    (howner : c.Definite owner) {arguments : List Ty} (harguments : ∀ t ∈ arguments, c.Definite t) :
    c'.dispatch call owner arguments = c.dispatch call owner arguments := by
  have hmain : c.Definite .main := hc.builtins ("main", .main) List.mem_cons_self
  unfold dispatch
  dsimp only
  rw [h.select_eq hc howner ⟨harguments, howner⟩, h.select_eq hc hmain ⟨harguments, hmain⟩,
    h.constructed_eq hc howner]

end Extends

end Catalog

end FlowTyping
