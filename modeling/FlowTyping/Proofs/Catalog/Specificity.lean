import Mathlib.Data.List.Forall2
import FlowTyping.Proofs.Catalog.Climbing

/-
  The most specific definition

  A class table knows definitions under names and keys. Of those that are
  applicable to a call one is best if each other one takes whatever it takes, and
  no second one is like that. `Best` says so of a table and a definition, and
  `Reports` what a table that has no best definition tells: which ones are of
  the form of the call if none is applicable, and which ones are tied if some
  are.

  A table gives a definition exactly if that is best in it, and otherwise the
  reason (`verdictAt_eq_ok_iff`, `reports_of_verdictAt`).
-/
namespace FlowTyping

/-- A list without its repetitions has none. -/
theorem nodup_eraseDups {α : Type} [BEq α] [LawfulBEq α] : (l : List α) → l.eraseDups.Nodup
  | [] => by simp
  | a :: rest => by
    rw [List.eraseDups_cons]
    refine List.nodup_cons.mpr ⟨fun ha => ?_, nodup_eraseDups (rest.filter fun b => !b == a)⟩
    simpa using (List.mem_filter.mp (List.mem_eraseDups.mp ha)).2
termination_by l => l.length
decreasing_by exact Nat.lt_succ_of_le (List.length_filter_le _ _)

/-- The list has what the first property holds of, or if that is nothing what the second one holds
of, and each once. -/
structure Lists {α : Type} (l : List α) (first second : α → Prop) : Prop where
  nodup : l.Nodup
  mem_iff : ∀ a, a ∈ l ↔ first a ∨ (∀ b, ¬ first b) ∧ second a

theorem lists_if {α : Type} {l l' : List α} {first second : α → Prop} (hl : l.Nodup)
    (hl' : l'.Nodup) (hfirst : ∀ a, a ∈ l ↔ first a) (hsecond : ∀ a, a ∈ l' ↔ second a) :
    Lists (if l.isEmpty then l' else l) first second := by
  cases l with
  | nil =>
    have hnone : ∀ a, ¬ first a := fun a ha => List.not_mem_nil ((hfirst a).mpr ha)
    refine ⟨hl', fun a => (hsecond a).trans ?_⟩
    exact ⟨fun ha => .inr ⟨hnone, ha⟩, fun ha => ha.elim (fun h => absurd h (hnone a)) (·.2)⟩
  | cons b rest =>
    refine ⟨hl, fun a => (hfirst a).trans (or_iff_left fun h => ?_).symm⟩
    exact h.1 b ((hfirst b).mp List.mem_cons_self)

namespace Catalog

variable {c : Catalog} {q : Query} {t receiver : Ty} {m n : MethodHandle} {key : MethodKey}
  {overloads : Table MethodKey MethodHandle} {miss : Miss}

/-! ## Definitions in a class table -/

/-- The definitions of a name in the class table of a type. -/
def overloadsOf (c : Catalog) (t : Ty) (name : String) : Option (Table MethodKey MethodHandle) :=
  (c.tableOf t).bind (·.methods.get? name)

/-- The class table of a type has a definition under a name and a key. -/
def Indexes (c : Catalog) (t : Ty) (name : String) (key : MethodKey) (m : MethodHandle) : Prop :=
  ∃ overloads, c.overloadsOf t name = some overloads ∧ (key, m) ∈ overloads.entries

/-- A parameter, read at a call on `receiver`, takes an argument. -/
inductive Takes (c : Catalog) (receiver : Ty) : Option Restriction → Ty → Prop
  | free (t : Ty) : Takes c receiver none t
  | restricted {r : Restriction} {t : Ty} (h : c.accepts (r.typeFor receiver) t = true) :
      Takes c receiver (some r) t

/-- One parameter, read at a call on `receiver`, takes what another one takes. -/
inductive Wider (c : Catalog) (receiver : Ty) : Option Restriction → Option Restriction → Prop
  | free (s : Option Restriction) : Wider c receiver none s
  | restricted {g s : Restriction}
      (h : c.accepts (g.typeFor receiver) (s.typeFor receiver) = true) :
      Wider c receiver (some g) (some s)

/-- Wherever both definitions have a parameter, that of the first takes what that of the second
takes. -/
def Covers (c : Catalog) (receiver : Ty) (m n : MethodHandle) : Prop :=
  ∀ (i : Nat) (g s : Parameter), (c.method m).parameters[i]? = some g →
    (c.method n).parameters[i]? = some s → c.Wider receiver g.restriction s.restriction

/-- A definition is in the table under a key for as many arguments and the same use of a block. -/
def SameForm (c : Catalog) (q : Query) (t : Ty) (m : MethodHandle) : Prop :=
  ∃ key, c.Indexes t q.name key m ∧ key.restrictions.length = q.arguments.length ∧
    key.yields = q.yields

/-- A definition is in the table under a key that takes the arguments one by one. -/
def Applicable (c : Catalog) (q : Query) (t : Ty) (m : MethodHandle) : Prop :=
  ∃ key, c.Indexes t q.name key m ∧ key.yields = q.yields ∧
    List.Forall₂ (c.Takes q.receiver) key.restrictions q.arguments

/-- A definition is applicable, and all others that are cover it. -/
structure MostSpecific (c : Catalog) (q : Query) (t : Ty) (m : MethodHandle) : Prop where
  applicable : c.Applicable q t m
  covered : ∀ n, c.Applicable q t n → n ≠ m → c.Covers q.receiver n m

/-- A definition is the only one that is most specific. -/
structure Best (c : Catalog) (q : Query) (t : Ty) (m : MethodHandle) : Prop
    extends c.MostSpecific q t m where
  only : ∀ n, c.MostSpecific q t n → n = m

/-- What a table that knows the name tells of a call for which no definition is best in it. -/
inductive Reports (c : Catalog) (q : Query) (t : Ty) : Miss → Prop
  | inapplicable {ms : List MethodHandle} (hknown : c.overloadsOf t q.name ≠ none)
      (hnone : ∀ m, ¬ c.Applicable q t m)
      (hms : Lists ms (c.SameForm q t) fun m => ∃ key, c.Indexes t q.name key m) :
      Reports c q t (.inapplicable ms)
  | tied {ms : List MethodHandle} (hsome : ∃ m, c.Applicable q t m) (hnone : ∀ m, ¬ c.Best q t m)
      (hms : Lists ms (c.MostSpecific q t) (c.Applicable q t)) : Reports c q t (.tied ms)

theorem Best.unique (hm : c.Best q t m) (hn : c.Best q t n) : m = n :=
  hn.only m hm.toMostSpecific

theorem Reports.not_best (h : c.Reports q t miss) (m : MethodHandle) : ¬ c.Best q t m := by
  cases h with
  | inapplicable _ hnone _ => exact fun hm => hnone m hm.applicable
  | tied _ hnone _ => exact hnone m

theorem Reports.ne_undefined (h : c.Reports q t miss) : miss ≠ .undefined := by
  cases h <;> exact fun h => by cases h

theorem Applicable.overloadsOf (h : c.Applicable q t m) : c.overloadsOf t q.name ≠ none := by
  obtain ⟨key, ⟨overloads, hoverloads, -⟩, -⟩ := h
  rw [hoverloads]
  exact Option.some_ne_none _

theorem Reports.overloadsOf (h : c.Reports q t miss) : c.overloadsOf t q.name ≠ none := by
  cases h with
  | inapplicable hknown _ _ => exact hknown
  | tied hsome _ _ =>
    obtain ⟨m, hm⟩ := hsome
    exact hm.overloadsOf

/-! ## What is computed -/

theorem mem_definitions {keep : MethodKey → Bool} :
    m ∈ definitions overloads keep ↔ ∃ key, (key, m) ∈ overloads.entries ∧ keep key = true := by
  unfold definitions
  rw [List.mem_eraseDups, List.mem_map]
  constructor
  · rintro ⟨⟨key, id⟩, hentry, rfl⟩
    obtain ⟨hentry, hkeep⟩ := List.mem_filter.mp hentry
    exact ⟨key, hentry, hkeep⟩
  · rintro ⟨key, hentry, hkeep⟩
    exact ⟨(key, m), List.mem_filter.mpr ⟨hentry, hkeep⟩, rfl⟩

theorem nodup_definitions (overloads : Table MethodKey MethodHandle) (keep : MethodKey → Bool) :
    (definitions overloads keep).Nodup := nodup_eraseDups _

theorem acceptsArgument_iff {r : Option Restriction} :
    c.acceptsArgument receiver r t = true ↔ c.Takes receiver r t := by
  cases r with
  | none => exact ⟨fun _ => .free t, fun _ => rfl⟩
  | some r =>
    refine ⟨.restricted, fun h => ?_⟩
    cases h with
    | restricted h => exact h

theorem acceptsArguments_iff {rs : List (Option Restriction)} {ts : List Ty} :
    c.acceptsArguments receiver rs ts = true ↔ List.Forall₂ (c.Takes receiver) rs ts := by
  induction rs generalizing ts with
  | nil => cases ts <;> simp [acceptsArguments]
  | cons r rs ih =>
    cases ts with
    | nil => simp [acceptsArguments]
    | cons t ts =>
      rw [acceptsArguments, Bool.and_eq_true, acceptsArgument_iff, ih, List.forall₂_cons]

theorem fits_iff : c.fits q key = true ↔ key.yields = q.yields ∧
    List.Forall₂ (c.Takes q.receiver) key.restrictions q.arguments := by
  rw [fits, Bool.and_eq_true, beq_iff_eq, acceptsArguments_iff]

theorem moreGeneralParameter_iff {g s : Parameter} : c.moreGeneralParameter receiver g s = true ↔
    c.Wider receiver g.restriction s.restriction := by
  unfold moreGeneralParameter
  cases g.restriction with
  | none => exact ⟨fun _ => .free _, fun _ => rfl⟩
  | some g =>
    cases s.restriction with
    | none => exact ⟨fun h => by (cases h), fun h => by (cases h)⟩
    | some s =>
      refine ⟨.restricted, fun h => ?_⟩
      cases h with
      | restricted h => exact h

theorem moreGeneral_iff : c.moreGeneral receiver m n = true ↔ c.Covers receiver m n := by
  unfold moreGeneral Covers
  rw [List.all_eq_true]
  constructor
  · intro h i g s hg hs
    have hpair : ((c.method m).parameters.zip (c.method n).parameters)[i]? = some (g, s) :=
      List.getElem?_zip_eq_some.mpr ⟨hg, hs⟩
    exact moreGeneralParameter_iff.mp (h _ (List.mem_of_getElem? hpair))
  · intro h pair hpair
    obtain ⟨i, hi⟩ := List.getElem?_of_mem hpair
    obtain ⟨hg, hs⟩ := List.getElem?_zip_eq_some.mp hi
    exact moreGeneralParameter_iff.mpr (h i pair.1 pair.2 hg hs)

theorem mem_mostSpecific {candidates : List MethodHandle} :
    m ∈ c.mostSpecific receiver candidates ↔
      m ∈ candidates ∧ ∀ n ∈ candidates, n ≠ m → c.Covers receiver n m := by
  unfold mostSpecific
  rw [List.mem_filter, List.all_eq_true]
  refine and_congr_right fun _ => forall₂_congr fun n _ => ?_
  rw [Bool.or_eq_true, beq_iff_eq, moreGeneral_iff]
  exact or_iff_not_imp_left

/-! ## What one table says -/

section Table

variable (hoverloads : c.overloadsOf t q.name = some overloads)

include hoverloads

theorem indexes_iff : c.Indexes t q.name key m ↔ (key, m) ∈ overloads.entries := by
  unfold Indexes
  rw [hoverloads]
  exact ⟨fun ⟨_, h, hentry⟩ => Option.some.inj h ▸ hentry, fun hentry => ⟨_, rfl, hentry⟩⟩

theorem mem_definitions_fits : m ∈ definitions overloads (c.fits q) ↔ c.Applicable q t m := by
  rw [mem_definitions, Applicable]
  exact exists_congr fun key => by rw [indexes_iff hoverloads, fits_iff]

theorem mem_mostSpecific_fits :
    m ∈ c.mostSpecific q.receiver (definitions overloads (c.fits q)) ↔ c.MostSpecific q t m := by
  rw [mem_mostSpecific]
  simp only [mem_definitions_fits hoverloads]
  exact ⟨fun ⟨happlicable, hcovered⟩ => ⟨happlicable, hcovered⟩,
    fun h => ⟨h.applicable, h.covered⟩⟩

theorem mem_definitions_sameForm :
    m ∈ definitions overloads (fun key =>
      key.restrictions.length == q.arguments.length && key.yields == q.yields) ↔
      c.SameForm q t m := by
  rw [mem_definitions, SameForm]
  exact exists_congr fun key => by
    rw [indexes_iff hoverloads, Bool.and_eq_true, beq_iff_eq, beq_iff_eq]

theorem mem_definitions_all :
    m ∈ definitions overloads (fun _ => true) ↔ ∃ key, c.Indexes t q.name key m := by
  rw [mem_definitions]
  exact exists_congr fun key => by rw [indexes_iff hoverloads, and_iff_left rfl]

/-- A table gives what is best in it, and if there is no such definition the reason. -/
theorem selectAmong_spec : (∃ m, c.selectAmong q overloads = .ok m ∧ c.Best q t m) ∨
    ∃ miss, c.selectAmong q overloads = .error miss ∧ c.Reports q t miss := by
  have happlicable := fun m => mem_definitions_fits hoverloads (m := m)
  have hspecific := fun m => mem_mostSpecific_fits hoverloads (m := m)
  have hall := nodup_definitions overloads (c.fits q)
  have hform := lists_if (nodup_definitions _ _) (nodup_definitions _ _)
    (fun m => mem_definitions_sameForm hoverloads (m := m))
    (fun m => mem_definitions_all hoverloads (m := m))
  unfold selectAmong
  generalize definitions overloads (c.fits q) = applicable at *
  have hminimal : (c.mostSpecific q.receiver applicable).Nodup := hall.filter _
  have htied := lists_if hminimal hall hspecific happlicable
  cases applicable with
  | nil =>
    have hknown : c.overloadsOf t q.name ≠ none := hoverloads ▸ Option.some_ne_none _
    refine .inr ⟨_, rfl, .inapplicable hknown (fun m hm => ?_) hform⟩
    cases (happlicable m).mpr hm
  | cons one others =>
    have hsome : ∃ m, c.Applicable q t m := ⟨one, (happlicable one).mp List.mem_cons_self⟩
    dsimp only
    generalize c.mostSpecific q.receiver (one :: others) = minimal at *
    match minimal with
    | [best] =>
      refine .inl ⟨best, rfl, (hspecific best).mp List.mem_cons_self, fun n hn => ?_⟩
      exact List.mem_singleton.mp ((hspecific n).mpr hn)
    | [] =>
      refine .inr ⟨_, rfl, .tied hsome (fun m hm => ?_) htied⟩
      cases (hspecific m).mpr hm.toMostSpecific
    | first :: second :: rest =>
      refine .inr ⟨_, rfl, .tied hsome (fun m hm => ?_) htied⟩
      have hfirst := hm.only first ((hspecific first).mp List.mem_cons_self)
      have hsecond := hm.only second ((hspecific second).mp (List.mem_cons_of_mem _ List.mem_cons_self))
      exact (List.nodup_cons.mp hminimal).1 (hfirst.trans hsecond.symm ▸ List.mem_cons_self)

end Table

/-! ## What the table of a type says -/

theorem verdictAt_eq_none_iff : c.verdictAt q t = none ↔ c.overloadsOf t q.name = none :=
  Option.map_eq_none_iff

/-- The three answers of a table: it does not know the name, it gives what is best in it, or it
tells why nothing is. -/
theorem verdictAt_spec (c : Catalog) (q : Query) (t : Ty) :
    (c.verdictAt q t = none ∧ c.overloadsOf t q.name = none) ∨
    (∃ m, c.verdictAt q t = some (.ok m) ∧ c.Best q t m) ∨
    ∃ miss, c.verdictAt q t = some (.error miss) ∧ c.Reports q t miss := by
  cases hoverloads : c.overloadsOf t q.name with
  | none => exact .inl ⟨verdictAt_eq_none_iff.mpr hoverloads, rfl⟩
  | some overloads =>
    have hverdict : c.verdictAt q t = some (c.selectAmong q overloads) :=
      congrArg (Option.map (c.selectAmong q)) hoverloads
    rw [hverdict]
    refine .inr ((selectAmong_spec hoverloads).imp ?_ ?_)
    · exact fun ⟨m, hm, hbest⟩ => ⟨m, congrArg some hm, hbest⟩
    · exact fun ⟨miss, hmiss, hreports⟩ => ⟨miss, congrArg some hmiss, hreports⟩

theorem verdictAt_eq_ok_iff : c.verdictAt q t = some (.ok m) ↔ c.Best q t m := by
  rcases c.verdictAt_spec q t with ⟨hverdict, hunknown⟩ | ⟨n, hverdict, hn⟩ | ⟨miss, hverdict, hmiss⟩
  · rw [hverdict]
    exact ⟨fun h => by (cases h), fun h => absurd hunknown h.applicable.overloadsOf⟩
  · rw [hverdict]
    refine ⟨fun h => ?_, fun h => by rw [hn.unique h]⟩
    cases h
    exact hn
  · rw [hverdict]
    exact ⟨fun h => by (cases h), fun h => absurd h (hmiss.not_best m)⟩

theorem reports_of_verdictAt (h : c.verdictAt q t = some (.error miss)) : c.Reports q t miss := by
  rcases c.verdictAt_spec q t with ⟨hverdict, -⟩ | ⟨n, hverdict, -⟩ | ⟨other, hverdict, hreports⟩
  · cases hverdict.symm.trans h
  · cases hverdict.symm.trans h
  · cases hverdict.symm.trans h
    exact hreports

/-! ## What the tables of some types say -/

/-- A definition is best in the first of the tables of some types in which one is. -/
inductive FirstBest (c : Catalog) (q : Query) (m : MethodHandle) : List Ty → Prop
  | here {t : Ty} (h : c.Best q t m) (rest : List Ty) : FirstBest c q m (t :: rest)
  | later {t : Ty} {rest : List Ty} (hnone : ∀ n, ¬ c.Best q t n) (h : FirstBest c q m rest) :
      FirstBest c q m (t :: rest)

/-- The first of the tables of some types that knows the name tells why no definition is best. -/
inductive FirstReports (c : Catalog) (q : Query) (miss : Miss) : List Ty → Prop
  | here {t : Ty} (h : c.Reports q t miss) (rest : List Ty) : FirstReports c q miss (t :: rest)
  | later {t : Ty} {rest : List Ty} (hunknown : c.overloadsOf t q.name = none)
      (h : FirstReports c q miss rest) : FirstReports c q miss (t :: rest)

variable {order : List Ty}

theorem FirstBest.exists_best (h : c.FirstBest q m order) : ∃ t ∈ order, c.Best q t m := by
  induction h with
  | here h rest => exact ⟨_, List.mem_cons_self, h⟩
  | later _ _ ih =>
    obtain ⟨u, hu, hbest⟩ := ih
    exact ⟨u, List.mem_cons_of_mem _ hu, hbest⟩

theorem FirstReports.exists_reports (h : c.FirstReports q miss order) :
    ∃ t ∈ order, c.Reports q t miss := by
  induction h with
  | here h rest => exact ⟨_, List.mem_cons_self, h⟩
  | later _ _ ih =>
    obtain ⟨u, hu, hreports⟩ := ih
    exact ⟨u, List.mem_cons_of_mem _ hu, hreports⟩

theorem FirstReports.own (h : c.FirstReports q miss (t :: order))
    (hknown : c.overloadsOf t q.name ≠ none) : c.Reports q t miss := by
  cases h with
  | here h => exact h
  | later hunknown => exact absurd hunknown hknown

theorem FirstBest.unique (hm : c.FirstBest q m order) (hn : c.FirstBest q n order) : m = n := by
  induction hm with
  | here hm rest =>
    cases hn with
    | here hn => exact hm.unique hn
    | later hnone _ => exact absurd hm (hnone m)
  | later hnone _ ih =>
    cases hn with
    | here hn => exact absurd hn (hnone n)
    | later _ hn => exact ih hn

/-- What the tables of some types tell of a call. -/
inductive Tells (c : Catalog) (q : Query) (order : List Ty) : Except Miss MethodHandle → Prop
  | best {m : MethodHandle} (h : c.FirstBest q m order) : Tells c q order (.ok m)
  | reports {miss : Miss} (hnone : ∀ t ∈ order, ∀ m, ¬ c.Best q t m)
      (h : c.FirstReports q miss order) : Tells c q order (.error miss)
  | undefined (h : ∀ t ∈ order, c.overloadsOf t q.name = none) :
      Tells c q order (.error .undefined)

/-- The selection follows the tables: the best definition of the first one that has a best one, or
else the reason of the first one that knows the name. -/
theorem found_tells (c : Catalog) (q : Query) (order : List Ty) :
    c.Tells q order (c.found q order) := by
  induction order with
  | nil => exact .undefined fun t ht => absurd ht List.not_mem_nil
  | cons t rest ih =>
    unfold found at ih ⊢
    rw [List.filterMap_cons]
    rcases c.verdictAt_spec q t with ⟨hverdict, hunknown⟩ | ⟨n, hverdict, hn⟩ | ⟨own, hverdict, hown⟩
    · rw [hverdict]
      dsimp only
      have hnone : ∀ m, ¬ c.Best q t m := fun m hm => hm.applicable.overloadsOf hunknown
      generalize firstSelected (rest.filterMap (c.verdictAt q)) = found at ih ⊢
      cases ih with
      | best h => exact .best (.later hnone h)
      | reports hrest h =>
        exact .reports (List.forall_mem_cons.mpr ⟨hnone, hrest⟩) (.later hunknown h)
      | undefined h => exact .undefined (List.forall_mem_cons.mpr ⟨hunknown, h⟩)
    · rw [hverdict]
      exact .best (.here hn rest)
    · rw [hverdict]
      show c.Tells q (t :: rest) (firstSelected (.error own :: rest.filterMap (c.verdictAt q)))
      rw [firstSelected]
      generalize firstSelected (rest.filterMap (c.verdictAt q)) = found at ih ⊢
      cases ih with
      | best h => exact .best (.later hown.not_best h)
      | reports hrest h =>
        exact .reports (List.forall_mem_cons.mpr ⟨hown.not_best, hrest⟩) (.here hown rest)
      | undefined h =>
        have hrest : ∀ u ∈ rest, ∀ m, ¬ c.Best q u m := fun u hu m hm =>
          hm.applicable.overloadsOf (h u hu)
        exact .reports (List.forall_mem_cons.mpr ⟨hown.not_best, hrest⟩) (.here hown rest)

theorem found_eq_ok_iff : c.found q order = .ok m ↔ c.FirstBest q m order := by
  have htells := c.found_tells q order
  generalize c.found q order = found at htells ⊢
  cases htells with
  | best h => exact ⟨fun hm => Except.ok.inj hm ▸ h, fun hm => congrArg Except.ok (h.unique hm)⟩
  | reports hnone _ =>
    refine ⟨fun hm => by (cases hm), fun hm => ?_⟩
    obtain ⟨t, ht, hbest⟩ := hm.exists_best
    exact absurd hbest (hnone t ht m)
  | undefined h =>
    refine ⟨fun hm => by (cases hm), fun hm => ?_⟩
    obtain ⟨t, ht, hbest⟩ := hm.exists_best
    exact absurd (h t ht) hbest.applicable.overloadsOf

theorem found_eq_undefined_iff :
    c.found q order = .error .undefined ↔ ∀ t ∈ order, c.overloadsOf t q.name = none := by
  have htells := c.found_tells q order
  generalize c.found q order = found at htells ⊢
  cases htells with
  | best h =>
    refine ⟨fun hm => by (cases hm), fun hunknown => ?_⟩
    obtain ⟨t, ht, hbest⟩ := h.exists_best
    exact absurd (hunknown t ht) hbest.applicable.overloadsOf
  | reports _ h =>
    obtain ⟨t, ht, hreports⟩ := h.exists_reports
    refine ⟨fun hmiss => ?_, fun hunknown => absurd (hunknown t ht) hreports.overloadsOf⟩
    exact absurd (Except.error.inj hmiss) hreports.ne_undefined
  | undefined h => exact ⟨fun _ => h, fun _ => rfl⟩

theorem firstReports_of_found (h : c.found q order = .error miss) (hmiss : miss ≠ .undefined) :
    (∀ t ∈ order, ∀ m, ¬ c.Best q t m) ∧ c.FirstReports q miss order := by
  have htells := c.found_tells q order
  rw [h] at htells
  cases htells with
  | reports hnone h => exact ⟨hnone, h⟩
  | undefined => exact absurd rfl hmiss

end Catalog

end FlowTyping
