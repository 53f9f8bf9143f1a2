import FlowTyping.Proofs.Catalog.Specificity
import FlowTyping.Proofs.Flow.Equality
import FlowTyping.Proofs.Flow.Kinship
import FlowTyping.Proofs.Forest

/-
  Restrictions and ancestors

  A restriction accepts a type by recursion over parents and members, and the
  ancestors of a type are searched with marks. Where superclasses and includes
  are neither unions nor provisional types, and no type is among its own
  ancestors, both say the same: a type that is no union is accepted if one of
  its ancestors is the restriction or has its class table
  (`accepts_iff_ancestor`).

  Types with one class table have the same parents, so acceptance is transitive
  over all types (`accepts_trans`). With reflexivity that makes it a preorder,
  and so it makes the generality of definitions with equally many parameters
  (`restriction_preorder`).
-/
namespace FlowTyping

open Relation

namespace Catalog

variable {c : Catalog} {a b r t u p receiver : Ty} {l m n : MethodHandle}

/-- Superclasses and includes are class-like types or constants. -/
def SingleRelatives (c : Catalog) : Prop := ∀ k, ∀ p ∈ (c.classTable k).relatives, c.Single p

/-- Every parent is neither a union nor a provisional type. -/
theorem SingleRelatives.parents (h : c.SingleRelatives) (hp : p ∈ c.parents t) : c.Single p := by
  rcases relative_or_metaclass_of_mem_parents hp with ⟨k, hk⟩ | ⟨k, u, hu⟩
  · exact h k p hk
  · exact ⟨definite_of_metaclass hu, by rw [hu]; rfl⟩

theorem Single.resolve_eq (h : c.Single t) : c.resolve t = t := resolve_of_definite h.1

theorem Single.isUnion_eq (h : c.Single t) : (c.resolvedShape t).isUnion = false := by
  rw [resolvedShape, h.resolve_eq]
  exact h.2

/-- A type that is no union goes back to its parents. -/
theorem climbs_eq_parents (h : (c.resolvedShape t).isUnion = false) : c.climbs t = c.parents t := by
  unfold climbs
  cases hs : c.resolvedShape t with
  | union => rw [hs] at h; cases h
  | _ => rfl

theorem Canonical.single_of_member (hc : c.Canonical) {members : List Ty}
    (h : c.resolvedShape t = .union members) (hu : u ∈ members) : c.Single u := by
  rcases Nat.lt_or_ge (c.resolve t).index c.size with hlt | hge
  · exact (hc.members (c.resolve t) members hlt h).2.2 u hu
  · rw [resolvedShape, shape_of_size_le hge] at h
    cases h
    cases hu

/-- A type descends from what its parents lead to. -/
theorem Kindred.descendsFrom_iff (hc : c.Kindred) :
    c.descendsFrom t a = true ↔ Reaches c.parents (c.resolve t) (c.resolve a) := by
  unfold descendsFrom
  rw [List.contains_iff_mem]
  constructor
  · intro h
    obtain ⟨start, hstart, hreach⟩ := reaches_of_mem_preorder h
    exact List.mem_singleton.mp hstart ▸ hreach
  · have hclosed : ∀ u ∈ c.resolve t :: c.entered, ∀ p ∈ c.parents u, p ∈ c.resolve t :: c.entered :=
      fun u _ p hp => List.mem_cons_of_mem _ (mem_entered.mpr (hc.lt_of_parents hp))
    exact mem_preorder_of_reaches hclosed List.mem_cons_self
      (by rw [List.length_cons, length_entered])

theorem Kindred.wellFounded_parents (hc : c.Kindred) (hacyclic : c.Acyclic) :
    WellFounded fun p t => p ∈ c.parents t :=
  wellFounded_of_acyclic (fun _ _ hp => mem_entered.mpr (hc.lt_of_parents hp)) hacyclic

section Acceptance

variable (hc : c.Kindred) (horderly : c.Orderly)

include hc horderly

theorem Kindred.closed : c.Closed := by
  intro t _ u hu
  unfold climbs at hu
  split at hu
  · next members hmembers =>
    exact mem_entered.mpr (horderly.canonical.single_of_member hmembers hu).1.1
  · exact mem_entered.mpr (hc.lt_of_parents hu)

/-- Acceptance step by step. -/
theorem accepts_iff : c.accepts r t = true ↔ c.resolve r = c.resolve t ∨
    if (c.resolvedShape t).isUnion then ∀ u ∈ c.climbs t, c.accepts r u = true
    else c.sameClass r t = true ∨ ∃ u ∈ c.climbs t, c.accepts r u = true := by
  rw [(hc.closed horderly).accepts_eq, Bool.or_eq_true, beq_iff_eq]
  refine or_congr_right ?_
  split
  · exact List.all_eq_true
  · rw [Bool.or_eq_true, List.any_eq_true]

theorem accepts_refl (t : Ty) : c.accepts t t = true := (accepts_iff hc horderly).mpr (.inl rfl)

/-- A union that is not the restriction itself is accepted if all of its members are. -/
theorem accepts_union (hunion : (c.resolvedShape t).isUnion = true)
    (hother : c.resolve r ≠ c.resolve t) :
    c.accepts r t = true ↔ ∀ u ∈ c.members t, c.accepts r u = true := by
  have hclimbs : c.climbs t = c.members t := by
    unfold climbs members
    cases hs : c.resolvedShape t with
    | union => rfl
    | _ => rw [hs] at hunion; cases hunion
  rw [accepts_iff hc horderly, or_iff_right hother, if_pos hunion, hclimbs]

variable (hsingle : c.SingleRelatives) (hacyclic : c.Acyclic)

include hsingle hacyclic

/-- Going back from type to type ends: from a union to its members, and from there to parents. -/
theorem wellFounded_climbs : WellFounded fun u t => u ∈ c.climbs t := by
  have hparents : ∀ t, (c.resolvedShape t).isUnion = false → Acc (fun u t => u ∈ c.climbs t) t := by
    intro t
    induction t using (hc.wellFounded_parents hacyclic).induction with
    | h t ih =>
      refine fun ht => Acc.intro t fun p hp => ?_
      rw [climbs_eq_parents ht] at hp
      exact ih p hp (hsingle.parents hp).isUnion_eq
  refine ⟨fun t => Acc.intro t fun u hu => hparents u ?_⟩
  unfold climbs at hu
  split at hu
  · next members hmembers =>
    exact (horderly.canonical.single_of_member hmembers hu).isUnion_eq
  · exact (hsingle.parents hu).isUnion_eq

/-- Acceptance of a type that is no union looks for the restriction, or its class table, among the
ancestors. -/
theorem accepts_iff_ancestor (ht : (c.resolvedShape t).isUnion = false) :
    c.accepts r t = true ↔
      ∃ a, c.descendsFrom t a = true ∧ (a = r ∨ c.sameClass r a = true) := by
  induction t using (hc.wellFounded_parents hacyclic).induction with
  | h t ih =>
    have hown : c.parents (c.resolve t) = c.parents t :=
      Coincide.parents (horderly.canonical.grounded.resolve_idem t)
    rw [accepts_iff hc horderly, ht, climbs_eq_parents ht]
    constructor
    · rintro (heq | hsame | ⟨p, hp, haccepts⟩)
      · exact ⟨r, hc.descendsFrom_iff.mpr (heq ▸ .refl), .inl rfl⟩
      · exact ⟨t, hc.descendsFrom_iff.mpr .refl, .inr hsame⟩
      · have hsinglep := hsingle.parents hp
        obtain ⟨a, ha, hra⟩ := (ih p hp hsinglep.isUnion_eq).mp haccepts
        rw [hc.descendsFrom_iff, hsinglep.resolve_eq] at ha
        exact ⟨a, hc.descendsFrom_iff.mpr (.head (hown ▸ hp) ha), hra⟩
    · rintro ⟨a, ha, hra⟩
      rcases (hc.descendsFrom_iff.mp ha).cases_head with heq | ⟨p, hp, hrest⟩
      · rcases hra with rfl | hsame
        · exact .inl heq.symm
        · refine .inr (.inl ?_)
          obtain ⟨k, hr, hk⟩ := sameClass_iff.mp hsame
          exact sameClass_iff.mpr ⟨k, hr, (Coincide.cls? heq).trans hk⟩
      · have hp : p ∈ c.parents t := hown ▸ hp
        have hsinglep := hsingle.parents hp
        refine .inr (.inr ⟨p, hp, (ih p hp hsinglep.isUnion_eq).mpr ⟨a, ?_, hra⟩⟩)
        rw [hc.descendsFrom_iff, hsinglep.resolve_eq]
        exact hrest

/-- What accepts a type accepts what that one accepts. -/
theorem accepts_trans (hab : c.accepts a b = true) (hbt : c.accepts b t = true) :
    c.accepts a t = true := by
  induction t using (wellFounded_climbs hc horderly hsingle hacyclic).induction with
  | h t ih =>
    rcases (accepts_iff hc horderly).mp hbt with heq | hbt
    · exact Coincide.accepts (.refl a) heq ▸ hab
    refine (accepts_iff hc horderly).mpr (.inr ?_)
    split at hbt
    · next hunion =>
      rw [if_pos hunion]
      exact fun u hu => ih u hu (hbt u hu)
    · next hunion =>
      rw [if_neg hunion]
      rcases hbt with hsame | ⟨u, hu, hbu⟩
      · -- with the class table the parents are shared, so `a` accepts `t` for what it accepts `b` for
        obtain ⟨k, hb, ht⟩ := sameClass_iff.mp hsame
        have hbunion : (c.resolvedShape b).isUnion = false := by
          unfold cls? at hb
          cases hs : c.resolvedShape b with
          | union => rw [hs] at hb; cases hb
          | _ => rfl
        have hparents : c.climbs t = c.climbs b := by
          rw [climbs_eq_parents (Bool.eq_false_iff.mpr hunion), climbs_eq_parents hbunion,
            hc.parents_congr hsame]
        rw [accepts_iff hc horderly, hbunion] at hab
        rw [hparents]
        rcases hab with heq | hsame' | hup
        · exact .inl (sameClass_iff.mpr ⟨k, (Coincide.cls? heq).trans hb, ht⟩)
        · obtain ⟨k', ha, hb'⟩ := sameClass_iff.mp hsame'
          obtain rfl : k' = k := Option.some.inj (hb'.symm.trans hb)
          exact .inl (sameClass_iff.mpr ⟨k', ha, ht⟩)
        · exact .inr hup
      · exact .inr ⟨u, hu, ih u hu hbu⟩

/-! ## Generality of definitions -/

omit hsingle hacyclic in
theorem wider_refl (restriction : Option Restriction) : c.Wider receiver restriction restriction := by
  cases restriction with
  | none => exact .free none
  | some r => exact .restricted (accepts_refl hc horderly _)

theorem wider_trans {x y z : Option Restriction} (hxy : c.Wider receiver x y)
    (hyz : c.Wider receiver y z) : c.Wider receiver x z := by
  cases hxy with
  | free => exact .free z
  | restricted hxy =>
    cases hyz with
    | restricted hyz => exact .restricted (accepts_trans hc horderly hsingle hacyclic hxy hyz)

omit hsingle hacyclic in
theorem covers_refl (m : MethodHandle) : c.Covers receiver m m := by
  intro i g s hg hs
  obtain rfl : g = s := Option.some.inj (hg.symm.trans hs)
  exact wider_refl hc horderly _

theorem covers_trans
    (hlength : (c.method m).parameters.length = (c.method n).parameters.length)
    (hlm : c.Covers receiver l m) (hmn : c.Covers receiver m n) : c.Covers receiver l n := by
  intro i g s hg hs
  have hi : i < (c.method m).parameters.length := by
    rw [hlength]
    exact (List.getElem?_eq_some_iff.mp hs).1
  have hmid := List.getElem?_eq_getElem hi
  exact wider_trans hc horderly hsingle hacyclic (hlm i g _ hg hmid) (hmn i _ s hmid hs)

end Acceptance

/-! ## Hierarchies in which parents come first -/

/-- If parents come before the types that have them, no type is among its own ancestors. -/
theorem acyclic_of_earlier (h : ∀ i < c.size, ∀ p ∈ c.parents ⟨i⟩, p.index < i) : c.Acyclic := by
  have hstep : ∀ t, ∀ p ∈ c.parents t, p.index < t.index := by
    intro t p hp
    rcases Nat.lt_or_ge t.index c.size with hlt | hge
    · exact h t.index hlt p hp
    · have hshape := shape_of_size_le hge
      have hresolve : c.resolve t = t := resolveWithin_of_not_provisional (by rw [hshape]; rfl) _
      unfold parents declaredParents resolvedShape at hp
      rw [hresolve, hshape] at hp
      cases hp
  have hless : ∀ t u, TransGen (fun t p => p ∈ c.parents t) t u → u.index < t.index := by
    intro t u hu
    induction hu with
    | single hp => exact hstep t _ hp
    | tail _ hp ih => exact Nat.lt_trans (hstep _ _ hp) ih
  exact fun t ht => Nat.lt_irrefl _ (hless t t ht)

theorem singleRelatives_of_entered
    (h : ∀ i < c.classes.size, ∀ p ∈ (c.classTable ⟨i⟩).relatives, c.Single p) :
    c.SingleRelatives := by
  intro k p hp
  rcases Nat.lt_or_ge k.index c.classes.size with hlt | hge
  · exact h k.index hlt p hp
  · have hnone : c.classTable k = default := by
      unfold classTable
      rw [Array.getElem?_eq_none hge]
      rfl
    rw [hnone] at hp
    cases hp

end Catalog

namespace Store

open Catalog

/-- In a catalog whose superclasses and includes are class-like types or constants, and in which no
type is among its own ancestors, acceptance ends. It agrees with the search for ancestors on all
types that are no unions, asks for all members of a union, and is reflexive and transitive over all
types. So is generality over all definitions with equally many parameters. -/
theorem restriction_preorder {s : Store} (hs : s.Moved) (hacyclic : s.catalog.Acyclic)
    (hsingle : s.catalog.SingleRelatives) :
    let c := s.catalog
    (WellFounded fun u t => u ∈ c.climbs t) ∧
    (∀ r t, c.accepts r t = true ↔ c.resolve r = c.resolve t ∨
      if (c.resolvedShape t).isUnion then ∀ u ∈ c.climbs t, c.accepts r u = true
      else c.sameClass r t = true ∨ ∃ u ∈ c.climbs t, c.accepts r u = true) ∧
    (∀ r t, (c.resolvedShape t).isUnion = false →
      (c.accepts r t = true ↔
        ∃ a, c.descendsFrom t a = true ∧ (a = r ∨ c.sameClass r a = true))) ∧
    (∀ r t, (c.resolvedShape t).isUnion = true → c.resolve r ≠ c.resolve t →
      (c.accepts r t = true ↔ ∀ u ∈ c.members t, c.accepts r u = true)) ∧
    (∀ t, c.accepts t t = true) ∧
    (∀ a b t, c.accepts a b = true → c.accepts b t = true → c.accepts a t = true) ∧
    (∀ receiver m, c.moreGeneral receiver m m = true) ∧
    ∀ receiver l m n, (c.method m).parameters.length = (c.method n).parameters.length →
      c.moreGeneral receiver l m = true → c.moreGeneral receiver m n = true →
        c.moreGeneral receiver l n = true := by
  have hc := hs.kindred
  have horderly := hs.started.orderly.catalog
  refine ⟨wellFounded_climbs hc horderly hsingle hacyclic, fun r t => accepts_iff hc horderly,
    fun r t => accepts_iff_ancestor hc horderly hsingle hacyclic,
    fun r t => accepts_union hc horderly, accepts_refl hc horderly,
    fun a b t => accepts_trans hc horderly hsingle hacyclic, fun receiver m => ?_,
    fun receiver l m n hlength hlm hmn => ?_⟩
  · exact moreGeneral_iff.mpr (covers_refl hc horderly m)
  · exact moreGeneral_iff.mpr (covers_trans hc horderly hsingle hacyclic hlength
      (moreGeneral_iff.mp hlm) (moreGeneral_iff.mp hmn))

/-- A module, a class that includes it, a subclass of that, a union of the subclass with `Int`, and
a pointer type. -/
def shelved : Catalog :=
  seeded.performAll [.mixin "Named" (some .main), .object "Shelf" (some .object) .main false,
    .inclusion ⟨38⟩ ⟨36⟩, .object "Drawer" (some ⟨38⟩) .main false, .merge [⟨40⟩, .int],
    .pointer ⟨40⟩]

/-- In `shelved` parents come first, and single types are declared. -/
theorem computed_shelved :
    (seeded.KnowsAll [.mixin "Named" (some .main), .object "Shelf" (some .object) .main false,
      .inclusion ⟨38⟩ ⟨36⟩, .object "Drawer" (some ⟨38⟩) .main false, .merge [⟨40⟩, .int],
      .pointer ⟨40⟩]) ∧
    (∀ i < shelved.size, ∀ p ∈ shelved.parents ⟨i⟩, p.index < i) ∧
    (∀ i < shelved.classes.size, ∀ p ∈ (shelved.classTable ⟨i⟩).relatives, shelved.Single p) ∧
    ((∀ t ∈ [⟨40⟩, .int, ⟨43⟩], (shelved.resolvedShape t).isUnion = false) ∧
      (shelved.resolvedShape ⟨42⟩).isUnion = true ∧ shelved.members ⟨42⟩ = [.int, ⟨40⟩] ∧
      shelved.resolve .object ≠ shelved.resolve ⟨42⟩) ∧
    shelved.descendsFrom ⟨40⟩ ⟨36⟩ = true ∧ shelved.descendsFrom ⟨40⟩ .object = true ∧
    shelved.descendsFrom .int .object = true ∧ shelved.descendsFrom ⟨43⟩ ⟨43⟩ = true ∧
    shelved.sameClass .pointer ⟨43⟩ = true := by
  decide +kernel

/-- The subclass is accepted for the module, as an ancestor is looked for. The union is accepted for
`Object`, as both of its members are, and the pointer type for the template of pointer types. -/
theorem restriction_preorder_shelved : Moved ⟨shelved, .empty 0⟩ ∧ shelved.Acyclic ∧
    shelved.SingleRelatives ∧ shelved.accepts ⟨36⟩ ⟨40⟩ = true ∧
    shelved.members ⟨42⟩ = [.int, ⟨40⟩] ∧ shelved.accepts .object ⟨42⟩ = true ∧
    shelved.accepts .pointer ⟨43⟩ = true := by
  obtain ⟨hknown, hearlier, hsingle, ⟨hplain, hunion, hmembers, hother⟩, hnamed, hobject, hint,
    hpointer, hshared⟩ := computed_shelved
  have hmoved : Moved ⟨shelved, .empty 0⟩ := (Moved.start 0).requests hknown
  have hacyclic : shelved.Acyclic := acyclic_of_earlier hearlier
  have hsingle : shelved.SingleRelatives := singleRelatives_of_entered hsingle
  have hlaws := restriction_preorder hmoved
  dsimp only at hlaws
  generalize shelved = c at *
  obtain ⟨-, -, hancestor, hall, -⟩ := hlaws hacyclic hsingle
  have haccepted : ∀ u ∈ c.members ⟨42⟩, c.accepts .object u = true := by
    intro u hu
    rw [hmembers] at hu
    rcases List.mem_cons.mp hu with rfl | hu
    · exact (hancestor _ _ (hplain _ (by simp))).mpr ⟨.object, hint, .inl rfl⟩
    · obtain rfl := List.mem_singleton.mp hu
      exact (hancestor _ _ (hplain _ (by simp))).mpr ⟨.object, hobject, .inl rfl⟩
  exact ⟨hmoved, hacyclic, hsingle,
    (hancestor _ _ (hplain _ (by simp))).mpr ⟨_, hnamed, .inl rfl⟩, hmembers,
    (hall _ _ hunion hother).mpr haccepted,
    (hancestor _ _ (hplain _ (by simp))).mpr ⟨_, hpointer, .inr hshared⟩⟩

end Store

end FlowTyping
