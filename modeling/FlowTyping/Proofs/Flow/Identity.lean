import Mathlib.Data.Set.Insert
import FlowTyping.Proofs.Catalog.Bindings
import FlowTyping.Proofs.Flow.Session

/-
  The identity of types that are made of other types

  Merges, pointer types and specializations are the same type exactly if they
  are made of the same types, however far apart in a session they are made and
  whatever happens in between. What counts is what the types stand for at the
  moment: a merge is the set of what remains of its types (`merge_identity`), a
  pointer type what its pointee stands for, and a specialization its template
  and what its names are bound to (`specialization_identity`).
-/
namespace FlowTyping

namespace Catalog

variable {c c' d : Catalog} {ts us : List Ty} {t u : Ty}

/-! ## Merges -/

/-- What remains of types: the members of those that are not superseded. -/
def remaining (c : Catalog) (ts : List Ty) : Set Ty :=
  { u | ∃ t ∈ ts, c.isSuperseded t = false ∧ u ∈ c.members t }

theorem mem_remaining : u ∈ c.remaining ts ↔ u ∈ c.live ts := mem_live.symm

theorem remaining_eq_iff : c.remaining ts = d.remaining us ↔ c.live ts = d.live us := by
  rw [Set.ext_iff]
  simp only [mem_remaining]
  refine ⟨fun h => ?_, fun h u => by rw [h]⟩
  exact Ty.eq_of_increasing (pairwise_live c ts) (pairwise_live d us) h

theorem remaining_eq_empty_iff : c.remaining ts = ∅ ↔ c.live ts = [] := by
  rw [Set.eq_empty_iff_forall_notMem, List.eq_nil_iff_forall_not_mem]
  simp only [mem_remaining]

/-- Types of which the same remains are merged to the same type, also in a later catalog. -/
theorem merge_of_live_eq (h : c.live ts = d.live us) (hg : (c.merge ts).2.Grows d) :
    (d.merge us).1 = (c.merge ts).1 := by
  unfold merge at hg ⊢
  rw [← h]
  split
  · rfl
  · rfl
  · next hnil hone =>
    have hg' : (c.union (c.live ts)).2.Grows d := by
      split at hg
      · next h => exact absurd h hnil
      · next u h => exact absurd h (hone u)
      · exact hg
    rw [union_again hg']
    rfl

/-- Two merges are the same type only if the same remains of what they merge. -/
theorem live_eq_of_merge (hc : c.Canonical) (hd : d.Canonical) (hts : ∀ t ∈ ts, t.index < c.size)
    (hus : ∀ u ∈ us, u.index < d.size) (hg : (c.merge ts).2.Grows d)
    (h : (c.merge ts).1 = (d.merge us).1) : c.live ts = d.live us := by
  cases hmerged : (c.merge ts).1 with
  | none =>
    have hmerged' : (d.merge us).1 = none := h ▸ hmerged
    rw [merge_eq_none_iff.mp hmerged, merge_eq_none_iff.mp hmerged']
  | some t =>
    have hmerged' : (d.merge us).1 = some t := h ▸ hmerged
    obtain ⟨hdef, hmembers⟩ := hc.merge_members hts hmerged
    obtain ⟨-, hmembers'⟩ := hd.merge_members hus hmerged'
    have hlast := hg.trans (merge_extends d us).toGrows
    rw [← hmembers, ← hmembers', hlast.members_of_definite_eq hdef]

/-- As long as provisional types are left alone the same remains of types. -/
theorem Steady.remaining_eq (h : c.Steady c') (hg : c.Grows c') (hc : c.Canonical)
    (hts : ∀ t ∈ ts, t.index < c.size) : c'.remaining ts = c.remaining ts := by
  have hsuperseded : ∀ t, c'.isSuperseded t = c.isSuperseded t := by
    intro t
    refine Bool.eq_iff_iff.mpr ⟨fun hs => ?_, hg.isSuperseded⟩
    unfold isSuperseded at hs ⊢
    split at hs
    · next p hp =>
      rw [h t p hp]
      exact hs
    · cases hs
  ext u
  show (∃ t ∈ ts, _ ∧ _) ↔ ∃ t ∈ ts, _ ∧ _
  refine exists_congr fun t => and_congr_right fun ht => ?_
  rw [hsuperseded]
  refine and_congr_right fun hl => ?_
  rw [hg.members_eq hc.grounded (hts t ht) (by rw [hsuperseded]; exact hl)]

/-- What a merge of `ts` gives: nothing if nothing remains of them, and otherwise the type whose
members are what remains, in increasing order; a single one is that type itself. -/
structure Merges (c : Catalog) (ts : List Ty) : Prop where
  none_iff : (c.merge ts).1 = none ↔ c.remaining ts = ∅
  increasing : ∀ t, (c.merge ts).1 = some t →
    ((c.merge ts).2.members t).Pairwise (·.index < ·.index)
  members : ∀ t, (c.merge ts).1 = some t → ∀ u, u ∈ (c.merge ts).2.members t ↔ u ∈ c.remaining ts
  single : ∀ u, c.remaining ts = {u} → (c.merge ts).1 = some u

theorem Canonical.merges (hc : c.Canonical) (hts : ∀ t ∈ ts, t.index < c.size) : c.Merges ts where
  none_iff := by rw [merge_eq_none_iff, remaining_eq_empty_iff]
  increasing t h := by
    rw [(hc.merge_members hts h).2]
    exact pairwise_live c ts
  members t h u := by rw [(hc.merge_members hts h).2, mem_remaining]
  single u h := by
    have hlive : c.live ts = [u] := by
      refine Ty.eq_of_increasing (pairwise_live c ts) (List.pairwise_singleton _ _) fun v => ?_
      rw [← mem_remaining, h, Set.mem_singleton_iff, List.mem_singleton]
    unfold Catalog.merge
    rw [hlive]

/-- What a merge may be replaced by: types in another order or number, and a merge in place of the
types that it merges. -/
structure Rearranges (c : Catalog) (ts : List Ty) : Prop where
  order : ∀ us, (∀ t, t ∈ us ↔ t ∈ ts) → ((c.merge ts).2.merge us).1 = (c.merge ts).1
  nesting : ∀ t, (c.merge ts).1 = some t → ∀ us, (∀ u ∈ us, u.index < c.size) →
    (((c.merge ts).2.merge (t :: us)).2.merge (ts ++ us)).1 = ((c.merge ts).2.merge (t :: us)).1

theorem remaining_congr (h : ∀ t, t ∈ us ↔ t ∈ ts) : c.remaining us = c.remaining ts := by
  ext u
  show (∃ t ∈ us, _) ↔ ∃ t ∈ ts, _
  exact exists_congr fun t => and_congr_left fun _ => h t

theorem remaining_append : c.remaining (ts ++ us) = c.remaining ts ∪ c.remaining us := by
  ext u
  show (∃ t ∈ ts ++ us, _) ↔ (∃ t ∈ ts, _) ∨ ∃ t ∈ us, _
  simp only [List.mem_append, or_and_right, exists_or]

/-- What remains of a merge is what remains of the types that it merges. -/
theorem Canonical.remaining_merge (hc : c.Canonical) (hts : ∀ t ∈ ts, t.index < c.size)
    (h : (c.merge ts).1 = some t) : (c.merge ts).2.remaining [t] = c.remaining ts := by
  obtain ⟨hd, hm⟩ := hc.merge_members hts h
  ext u
  rw [show u ∈ c.remaining ts ↔ u ∈ c.live ts from mem_remaining, ← hm]
  show (∃ v ∈ [t], _) ↔ _
  simp [isSuperseded_of_definite hd]

theorem Canonical.rearranges (hc : c.Canonical) (hts : ∀ t ∈ ts, t.index < c.size) :
    c.Rearranges ts := by
  have hsteady := merge_steady c ts
  have hg := (merge_extends c ts).toGrows
  refine ⟨fun us hus => ?_, fun t ht us hus => ?_⟩
  · refine merge_of_live_eq (remaining_eq_iff.mp ?_) (.refl _)
    rw [remaining_congr hus, hsteady.remaining_eq hg hc hts]
  · have hc' := hc.merge hts
    have hus' : ∀ v ∈ t :: us, v.index < (c.merge ts).2.size := by
      intro v hv
      rcases List.mem_cons.mp hv with rfl | hv
      · exact (hc.merge_members hts ht).1.1
      · exact Nat.lt_of_lt_of_le (hus v hv) hg.size_le
    have hboth : ∀ v ∈ ts ++ us, v.index < c.size := fun v hv =>
      (List.mem_append.mp hv).elim (hts v) (hus v)
    refine merge_of_live_eq (remaining_eq_iff.mp ?_) (.refl _)
    have hlast := merge_steady (c.merge ts).2 (t :: us)
    have hgrows := (merge_extends (c.merge ts).2 (t :: us)).toGrows
    rw [(hsteady.trans hlast).remaining_eq (hg.trans hgrows) hc hboth,
      show t :: us = [t] ++ us from rfl, remaining_append, remaining_append,
      hc.remaining_merge hts ht, hsteady.remaining_eq hg hc hus]

end Catalog

namespace Store

open Catalog

/-- The start of a session. -/
theorem exists_started : ∃ s : Store, s.Started ∧ s.catalog = .seeded :=
  ⟨⟨.seeded, .empty 10⟩, ⟨10, .refl⟩, by dsimp only⟩

end Store

namespace Catalog

variable {c c' d : Catalog} {t u template target : Ty} {bindings : List (String × Ty)}

/-! ## Specializations -/

/-- `target` specializes `template` for some bindings: it is an object that shares the class table
of the template. Its slots are those of the template with the bindings over them, if it is new, and
its metaclass is that of the template unless the template specializes a type itself. -/
def SpecializedAs (c c' : Catalog) (template : Ty) (bindings : List (String × Ty)) (target : Ty) :
    Prop :=
  ∃ o slots, c'.shape template = .object o ∧
    c'.shape target = .object ⟨o.cls, slots, true, some template⟩ ∧
    (c.size ≤ target.index →
      ∀ name, slots.get? name = ((c.bound bindings name).map some).or (o.slots.get? name)) ∧
    (o.template = none → c'.metaclass? target = c'.metaclass? template)

/-- A type that is an object without a template has a metaclass of its own, and those that
specialize it have the same. -/
theorem metaclass?_of_copies {o o' : ObjectShape} (ht : c.shape t = .object o)
    (htemplate : o.template = some u) (hu : c.shape u = .object o') (hnone : o'.template = none) :
    c.metaclass? t = c.metaclass? u := by
  have resolved : ∀ {v : Ty} {o : ObjectShape}, c.shape v = .object o → c.resolve v = v :=
    fun hv => resolve_of_definite ⟨lt_size_of_object hv, by rw [hv]; rfl⟩
  have holder : c.metaclassHolder t = c.metaclassHolder u := by
    unfold metaclassHolder resolvedShape
    rw [resolved ht, resolved hu, ht, hu]
    show o.template.getD t = o'.template.getD u
    rw [htemplate, hnone]
    rfl
  unfold metaclass?
  rw [holder]

theorem Orderly.specializedAs (hc : c.Orderly) (hnames : (bindings.map (·.1)).Nodup)
    (h : c.instantiate t bindings = .ok (target, c')) :
    ∃ template, c.templateOf t = some template ∧ c.SpecializedAs c' template bindings target := by
  obtain ⟨template, htemplate, ⟨hknown, rfl⟩ | ⟨o, ho, -, rfl, rfl⟩⟩ := hc.instantiate_ok h
  · refine ⟨template, htemplate, ?_⟩
    obtain ⟨o, ho, hu⟩ := hc.known _ _ hknown
    obtain ⟨hgen, o', ho', hcls⟩ := hc.copies _ o _ ho hu
    refine ⟨o', o.slots, ho', ?_, fun hle => absurd (lt_size_of_object ho) (Nat.not_lt.mpr hle),
      metaclass?_of_copies ho hu ho'⟩
    rw [ho, hcls]
    obtain ⟨cls, slots, generic, _⟩ := o
    cases hgen
    cases hu
    rfl
  · refine ⟨template, htemplate, ?_⟩
    have hnew : (c.push (.object (copyOf template o (c.bindingKey bindings)))).2.shape ⟨c.size⟩ =
        .object (copyOf template o (c.bindingKey bindings)) := by
      rw [shape_push]
      exact if_pos rfl
    have hold : (c.push (.object (copyOf template o (c.bindingKey bindings)))).2.shape template =
        .object o := by
      rw [shape_push, if_neg (Nat.ne_of_lt (lt_size_of_object ho)), ho]
    exact ⟨o, _, hold, hnew, fun _ name => get?_slots_copy hnames o.slots name,
      metaclass?_of_copies hnew rfl hold⟩

/-- Bindings that bind the same names to the same types, of the same template, give the same
specialization in any later catalog. -/
theorem Orderly.instantiate_again (hc : c.Orderly) {t' : Ty} {bindings' : List (String × Ty)}
    (h : c.instantiate t bindings = .ok (target, c')) (hcd : c'.Follows d)
    (htemplate : c.templateOf t = d.templateOf t')
    (hkey : c.bindingKey bindings = d.bindingKey bindings') :
    d.instantiate t' bindings' = .ok (target, d) := by
  obtain ⟨template, ht, hknown⟩ := hc.known_instantiate h
  exact instantiate_of_known (htemplate ▸ ht) (hkey ▸ hcd.known _ _ hknown)

/-- Only generic types and specializations have a template. -/
theorem templateOf_eq_none (h : ∀ o, c.resolvedShape t = .object o →
    o.generic = false ∧ o.template = none) : c.templateOf t = none := by
  unfold templateOf
  split
  · next o ho =>
    obtain ⟨hgen, hnone⟩ := h o ho
    rw [hgen, hnone]
    rfl
  · rfl

/-- Two pointer types are the same exactly if the same is pointed to, in any later catalog. -/
theorem pointerFor_eq_iff (hg : (c.pointerFor t).2.Grows d) :
    (c.pointerFor t).1 = (d.pointerFor u).1 ↔ c.resolve t = d.resolve u := by
  constructor
  · intro h
    have hd := definite_pointerFor c t
    have hlast := (pointerFor_extends d u).toGrows
    have hshape := (hg.trans hlast).shape _ hd.1
    rw [shape_pointerFor] at hshape
    have := hshape.eq_of_pointer
    rw [h, shape_pointerFor] at this
    exact (Option.some.inj (Shape.pointer.inj this)).symm
  · intro h
    rw [pointerFor_eq_intern d, ← h]
    exact (congrArg Prod.fst
      (intern_again (by simp [Shape.isPointerFor]) (isPointerFor_becomes _) hg)).symm

end Catalog

namespace Store

open Catalog

/-- What the calls at one moment of a session that specialize a type give, and those at any later
moment. -/
structure Specializing (s : Store) : Prop where
  result : ∀ t bindings target c, (bindings.map (·.1)).Nodup →
    s.catalog.instantiate t bindings = .ok (target, c) →
    ∃ template, s.catalog.templateOf t = some template ∧
      s.catalog.SpecializedAs c template bindings target
  identity : ∀ t bindings target c, (bindings.map (·.1)).Nodup →
    s.catalog.instantiate t bindings = .ok (target, c) →
    ∀ s', Session ⟨c, s.graph⟩ s' → ∀ t' bindings' target' d, (bindings'.map (·.1)).Nodup →
    s'.catalog.instantiate t' bindings' = .ok (target', d) →
    (target = target' ↔ s.catalog.templateOf t = s'.catalog.templateOf t' ∧
      ∀ name, s.catalog.bound bindings name = s'.catalog.bound bindings' name)
  refused : ∀ t, (∀ o, s.catalog.resolvedShape t = .object o →
      o.generic = false ∧ o.template = none) →
    (∀ bindings, s.catalog.instantiate t bindings =
      .error (.fault (.notGeneric (s.catalog.display (s.catalog.resolve t))))) ∧
    ∀ observed holder, ∃ e, install t observed holder s = .error e s

/-- Specializations are the same exactly if they have the same template and bind the same names to
types that stand for the same, each at its own moment and in whatever order. Pointer types are the
same exactly if their pointees stand for the same. -/
theorem specialization_identity {s : Store} (hs : s.Started) :
    s.Specializing ∧ ∀ t s', Session ⟨(s.catalog.pointerFor t).2, s.graph⟩ s' → ∀ u,
      ((s.catalog.pointerFor t).1 = (s'.catalog.pointerFor u).1 ↔
        s.catalog.resolve t = s'.catalog.resolve u) := by
  have ho := hs.orderly
  refine ⟨⟨fun t bindings target c hnames h => ho.catalog.specializedAs hnames h,
    fun t bindings target c hnames h s' hs' t' bindings' target' d hnames' h' => ?_,
    fun t ht => ?_⟩, fun t s' hs' u => ?_⟩
  · -- the first specialization is still known by its key when the second is asked for
    obtain ⟨ho', hfollows⟩ := hs'.keeps (ho.extend (ho.catalog.follows_instantiate h))
    rw [← bindingKey_eq_iff hnames hnames']
    constructor
    · rintro rfl
      obtain ⟨template, htemplate, htemplate', hkey⟩ :=
        ho.catalog.key_eq_of_instantiate h hfollows h'
      exact ⟨htemplate.trans htemplate'.symm, hkey⟩
    · rintro ⟨htemplate, hkey⟩
      rw [ho.catalog.instantiate_again h hfollows htemplate hkey] at h'
      cases h'
      rfl
  · have hrefused : ∀ bindings, s.catalog.instantiate t bindings =
        .error (.fault (.notGeneric (s.catalog.display (s.catalog.resolve t)))) := by
      intro bindings
      unfold instantiate
      rw [templateOf_eq_none ht]
    refine ⟨hrefused, fun observed holder => ?_⟩
    unfold install
    rw [Steps.bind_eq]
    unfold specializationFor
    rw [hrefused]
    exact ⟨_, rfl⟩
  · obtain ⟨-, hfollows⟩ := hs'.keeps (ho.extend (follows_pointerFor s.catalog t))
    exact pointerFor_eq_iff hfollows.grows

/-- Whether two slots of an array can be bound, and then again in the other order, under one key. -/
def boundInEitherOrder (c : Catalog) : Bool :=
  match c.instantiate .array [("@length", .long), ("@buffer", .int)] with
  | .ok (_, d) => (d.instantiate .array [("@buffer", .int), ("@length", .long)]).isOk &&
      decide (c.templateOf .array = d.templateOf .array) &&
      decide (c.bindingKey [("@length", .long), ("@buffer", .int)] =
        d.bindingKey [("@buffer", .int), ("@length", .long)])
  | .error _ => false

/-- Two slots of an array are bound twice, in one order and in the other. -/
theorem specialization_identity_permuted : ∃ (s : Store) (target target' : Ty) (c d : Catalog),
    s.Started ∧
    s.catalog.instantiate .array [("@length", .long), ("@buffer", .int)] = .ok (target, c) ∧
    c.instantiate .array [("@buffer", .int), ("@length", .long)] = .ok (target', d) ∧
    target = target' := by
  obtain ⟨s, hs, hc⟩ := exists_started
  have hok : boundInEitherOrder s.catalog = true := by
    rw [hc]
    decide +kernel
  unfold boundInEitherOrder at hok
  cases h : s.catalog.instantiate .array [("@length", .long), ("@buffer", .int)] with
  | error e =>
    rw [h] at hok
    cases hok
  | ok first =>
    obtain ⟨target, c⟩ := first
    rw [h] at hok
    simp only [Bool.and_eq_true, decide_eq_true_eq] at hok
    obtain ⟨⟨hok, htemplate⟩, hkey⟩ := hok
    cases h' : c.instantiate .array [("@buffer", .int), ("@length", .long)] with
    | error e =>
      rw [h'] at hok
      cases hok
    | ok second =>
      obtain ⟨target', d⟩ := second
      have hiff := (specialization_identity hs).1.identity .array _ target c (by decide) h ⟨c, s.graph⟩
        .refl .array _ target' d (by decide) h'
      refine ⟨s, target, target', c, d, hs, h, h', hiff.mpr ⟨htemplate, ?_⟩⟩
      exact (bindingKey_eq_iff (by decide) (by decide)).mp hkey

/-- Whether a copy of a copy of an array specializes to a type without a metaclass, although its
template has one. -/
def missesMetaclass (c : Catalog) : Bool :=
  let (template, c) := c.specialize .array [("@buffer", .int)]
  let (t, c) := c.specialize template []
  match c.instantiate t [("@buffer", .double)] with
  | .ok (target, d) => decide (c.templateOf t = some template) &&
      (d.metaclass? template).isSome && decide (d.metaclass? target = none)
  | .error _ => false

/-- The specialization of a copy of a copy has no metaclass, although its template has one. -/
theorem metaclass_of_copied_copy : ∃ (s : Store) (t template target : Ty) (c : Catalog),
    s.Started ∧ s.catalog.templateOf t = some template ∧
    s.catalog.instantiate t [("@buffer", .double)] = .ok (target, c) ∧
    (c.metaclass? template).isSome = true ∧ c.metaclass? target = none := by
  obtain ⟨s, hs, hc⟩ := exists_started
  obtain ⟨limit, hs⟩ := hs
  have hcopy : Store.Change s ⟨(s.catalog.specialize .array [("@buffer", .int)]).2, s.graph⟩ :=
    .catalog (.copy .array _)
  have hagain := Store.Change.catalog
    (s := ⟨(s.catalog.specialize .array [("@buffer", .int)]).2, s.graph⟩)
    (.copy (s.catalog.specialize .array [("@buffer", .int)]).1 [])
  have hok : missesMetaclass s.catalog = true := by
    rw [hc]
    decide +kernel
  dsimp only [missesMetaclass] at hok hagain
  split at hok
  · next target d h =>
    simp only [Bool.and_eq_true, decide_eq_true_eq] at hok
    exact ⟨_, _, _, target, d, ⟨limit, (hs.tail hcopy).tail hagain⟩, hok.1.1, h, hok.1.2, hok.2⟩
  · cases hok

end Store

end FlowTyping
