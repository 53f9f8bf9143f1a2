import FlowTyping.Proofs.Catalog.Delegation

/-
  Parameters without an argument

  Whether a definition is applicable to a call is told by the parameters that get
  an argument: its key for that number of arguments has no others. Which of two
  applicable definitions covers the other is told by all positions at which both
  have a parameter, also where the call gives no argument.

  So the restrictions of parameters beyond the arguments can be changed without
  any change to what is applicable, and what is selected stays the same if at
  those positions the definitions that are applicable together still compare as
  before (`selection_by_supplied`). Where two of them compare differently, the
  selection can change (`omitted_decides`).
-/
namespace FlowTyping

/-! ## Tables -/

namespace Table

variable {κ α : Type} [DecidableEq κ]

/-- The entries under some of the keys. -/
def keeping (keep : κ → Bool) (t : Table κ α) : Table κ α :=
  ⟨t.entries.filter fun entry => keep entry.1⟩

theorem keeping_put (keep : κ → Bool) (t : Table κ α) (key : κ) (value : α) :
    (t.put key value).keeping keep =
      if keep key then (t.keeping keep).put key value else t.keeping keep := by
  obtain ⟨entries⟩ := t
  have hentries : (putEntry key value entries).filter (fun entry => keep entry.1) =
      if keep key then putEntry key value (entries.filter fun entry => keep entry.1)
      else entries.filter fun entry => keep entry.1 := by
    induction entries with
    | nil => cases h : keep key <;> simp [putEntry, h]
    | cons entry rest ih =>
      by_cases hkey : entry.1 = key
      · subst hkey
        cases h : keep entry.1 <;> simp [putEntry, h]
      · have hput : putEntry key value (entry :: rest) = entry :: putEntry key value rest := by
          rw [putEntry, if_neg hkey]
        rw [hput, List.filter_cons, List.filter_cons, ih]
        cases keep entry.1 <;> cases keep key <;> simp [putEntry, hkey]
  unfold keeping put
  dsimp only
  rw [hentries]
  split <;> rfl

theorem keeping_putAll (keep : κ → Bool) (t : Table κ α) (entries : List (κ × α)) :
    (t.putAll entries).keeping keep =
      (t.keeping keep).putAll (entries.filter fun entry => keep entry.1) := by
  induction entries generalizing t with
  | nil => rfl
  | cons entry rest ih =>
    refine (ih (t.put entry.1 entry.2)).trans ?_
    rw [keeping_put, List.filter_cons]
    split <;> rfl

end Table

/-! ## Definitions that differ beyond the arguments -/

/-- Two methods of one owner and name, whose parameters have defaults in the same places and differ
in their restrictions beyond the first `count` at most. -/
structure Method.Retypes (count : Nat) (m m' : Method) : Prop where
  name : m'.name = m.name
  owner : m'.owner = m.owner
  yields : m'.yields = m.yields
  defaults : m'.parameters.map (·.fallback.isSome) = m.parameters.map (·.fallback.isSome)
  supplied : (m'.parameters.map (·.restriction)).take count =
    (m.parameters.map (·.restriction)).take count

namespace Method.Retypes

open Catalog

variable {count : Nat} {m m' : Method}

theorem refl (m : Method) : m.Retypes count m := ⟨rfl, rfl, rfl, rfl, rfl⟩

theorem length_eq (h : m.Retypes count m') : m'.parameters.length = m.parameters.length := by
  have hlength := congrArg List.length h.defaults
  rwa [List.length_map, List.length_map] at hlength

theorem trailingDefaults_eq (h : m.Retypes count m') :
    trailingDefaults m'.parameters = trailingDefaults m.parameters := by
  have hflags : ∀ ps : List Parameter, trailingDefaults ps =
      ((ps.map (·.fallback.isSome)).reverse.takeWhile id).length := fun ps => by
    rw [trailingDefaults, ← List.map_reverse, List.takeWhile_map, List.length_map]
    rfl
  rw [hflags, hflags, h.defaults]

/-- A parameter that gets an argument has the restriction that it had. -/
theorem restriction_eq (h : m.Retypes count m') {i : Nat} (hi : i < count) {p p' : Parameter}
    (hp : m.parameters[i]? = some p) (hp' : m'.parameters[i]? = some p') :
    p'.restriction = p.restriction := by
  have hat := congrArg (·[i]?) h.supplied
  simp only [List.getElem?_take, if_pos hi, List.getElem?_map, hp, hp', Option.map_some] at hat
  exact Option.some.inj hat

/-- The key for as many arguments, if there is one, is the same. -/
theorem keys_eq (h : m.Retypes count m') :
    (methodKeys m').filter (fun key => key.restrictions.length == count) =
      (methodKeys m).filter fun key => key.restrictions.length == count := by
  have hlength : (m'.parameters.map (·.restriction)).length =
      (m.parameters.map (·.restriction)).length := by
    rw [List.length_map, List.length_map, h.length_eq]
  have hsupplied := h.supplied
  unfold methodKeys
  dsimp only
  rw [h.trailingDefaults_eq, hlength, h.yields]
  generalize m.parameters.map (·.restriction) = rs at *
  generalize m'.parameters.map (·.restriction) = rs' at *
  generalize List.range (trailingDefaults m.parameters + 1) = cuts
  induction cuts with
  | nil => rfl
  | cons cut cuts ih =>
    have hcut : (rs.take (rs.length - cut)).length = rs.length - cut := by
      rw [List.length_take, Nat.min_eq_left (Nat.sub_le _ _)]
    have hcut' : (rs'.take (rs.length - cut)).length = rs.length - cut := by
      rw [List.length_take, hlength, Nat.min_eq_left (Nat.sub_le _ _)]
    rw [List.map_cons, List.map_cons, List.filter_cons, List.filter_cons, ih]
    simp only [hcut, hcut']
    by_cases hcount : rs.length - cut = count
    · rw [hcount, hsupplied]
    · rw [if_neg (by simpa using hcount), if_neg (by simpa using hcount)]

end Method.Retypes

namespace Catalog

variable {c c' : Catalog} {q : Query} {count : Nat} {m n : MethodHandle} {t receiver : Ty}
  {overloads overloads' : Table MethodKey MethodHandle}

/-- Whether a key is one for as many arguments. -/
def hasForm (count : Nat) (key : MethodKey) : Bool := key.restrictions.length == count

/-- Two catalogs with the same types and with methods that differ in the restrictions of parameters
beyond the first `count` at most. For so many arguments their class tables have the same keys. -/
structure Retyped (count : Nat) (c c' : Catalog) : Prop where
  outline : c'.outline = c.outline
  size : c'.methods.size = c.methods.size
  method : ∀ id, (c.method id).Retypes count (c'.method id)
  overloads : ∀ k name, (c'.overloadsAt k name).map (Table.keeping (hasForm count)) =
    (c.overloadsAt k name).map (Table.keeping (hasForm count))

namespace Retyped

theorem refl (c : Catalog) : c.Retyped count c := ⟨rfl, rfl, fun _ => .refl _, fun _ _ => rfl⟩

theorem keeping_withOverload (former : Option (Table MethodKey MethodHandle)) (m : Method)
    (id : MethodHandle) : (withOverload former m id).keeping (hasForm count) =
      (((former.map (Table.keeping (hasForm count))).getD .empty).putAll
        (((methodKeys m).filter (hasForm count)).map fun key => (key, id))) := by
  unfold withOverload
  rw [Table.keeping_putAll, List.filter_map]
  cases former <;> rfl

theorem defineMethod (h : c.Retyped count c') {m m' : Method} (hm : m.Retypes count m') :
    (c.defineMethod m).2.Retyped count (c'.defineMethod m').2 := by
  refine ⟨?_, ?_, fun id => ?_, fun k name => ?_⟩
  · rw [outline_defineMethod, outline_defineMethod, h.outline]
  · rw [methods_defineMethod, methods_defineMethod, Array.size_push, Array.size_push, h.size]
  · rw [method_defineMethod, method_defineMethod, h.size]
    split
    · exact hm
    · exact h.method id
  · have hreceives : c'.Receives m' k name ↔ c.Receives m k name := by
      rw [receives_congr h.outline]
      unfold Receives
      rw [hm.owner, hm.name]
    rw [overloadsAt_defineMethod, overloadsAt_defineMethod, h.size]
    simp only [hreceives]
    split
    · have hkeys : (methodKeys m').filter (hasForm count) = (methodKeys m).filter (hasForm count) :=
        hm.keys_eq
      rw [Option.map_some, Option.map_some, keeping_withOverload, keeping_withOverload, hkeys,
        h.overloads]
    · exact h.overloads k name

theorem defineAll {ms ms' : List Method} (h : c.Retyped count c')
    (hms : List.Forall₂ (Method.Retypes count) ms ms') :
    (c.defineAll ms).Retyped count (c'.defineAll ms') := by
  induction hms generalizing c c' with
  | nil => exact h
  | cons hm _ ih => exact ih (h.defineMethod hm)

end Retyped

/-! ## What is applicable -/

theorem definitions_keeping {keep only : MethodKey → Bool}
    (h : ∀ key, keep key = true → only key = true) (overloads : Table MethodKey MethodHandle) :
    definitions (overloads.keeping only) keep = definitions overloads keep := by
  unfold definitions Table.keeping
  dsimp only
  rw [List.filter_filter]
  refine congrArg (fun entries : List (MethodKey × MethodHandle) => (entries.map (·.2)).eraseDups) ?_
  refine List.filter_congr fun entry _ => ?_
  cases hkeep : keep entry.1 with
  | false => rfl
  | true => rw [h entry.1 hkeep]; rfl

theorem hasForm_of_fits {key : MethodKey} (h : c.fits q key = true) :
    hasForm q.arguments.length key = true :=
  beq_iff_eq.mpr (fits_iff.mp h).2.length_eq

/-- Tables with the same keys for as many arguments have the same definitions that are applicable,
or that are of the form of the call. -/
theorem definitions_of_keeping (h : overloads'.keeping (hasForm q.arguments.length) =
      overloads.keeping (hasForm q.arguments.length)) {keep : MethodKey → Bool}
    (hkeep : ∀ key, keep key = true → hasForm q.arguments.length key = true) :
    definitions overloads' keep = definitions overloads keep := by
  rw [← definitions_keeping hkeep overloads', h, definitions_keeping hkeep]

/-! ## What is selected -/

/-- Two verdicts that differ at most in the inapplicable definitions that they show. -/
inductive Concur : Except Miss MethodHandle → Except Miss MethodHandle → Prop
  | same (v : Except Miss MethodHandle) : Concur v v
  | inapplicable (ms ms' : List MethodHandle) :
      Concur (.error (.inapplicable ms)) (.error (.inapplicable ms'))

theorem Concur.isOk_eq {v v' : Except Miss MethodHandle} (h : Concur v v') : v'.isOk = v.isOk := by
  cases h <;> rfl

theorem Concur.ok_iff {v v' : Except Miss MethodHandle} (h : Concur v v') (m : MethodHandle) :
    v' = .ok m ↔ v = .ok m := by
  cases h with
  | same => exact Iff.rfl
  | inapplicable => exact ⟨fun h => by (cases h), fun h => by (cases h)⟩

theorem Concur.tied_iff {v v' : Except Miss MethodHandle} (h : Concur v v') (ms : List MethodHandle) :
    v' = .error (.tied ms) ↔ v = .error (.tied ms) := by
  cases h with
  | same => exact Iff.rfl
  | inapplicable => exact ⟨fun h => by (cases h), fun h => by (cases h)⟩

/-- Of any two definitions that are applicable in one table, parameters at positions that both have
beyond the arguments compare in the second catalog as in the first. -/
def ComparesAlike (c c' : Catalog) (q : Query) : Prop :=
  ∀ t m n, c.Applicable q t m → c.Applicable q t n → m ≠ n → ∀ i, q.arguments.length ≤ i →
    ∀ g s g' s' : Parameter, (c.method m).parameters[i]? = some g →
      (c.method n).parameters[i]? = some s → (c'.method m).parameters[i]? = some g' →
      (c'.method n).parameters[i]? = some s' →
      (c.Wider q.receiver g'.restriction s'.restriction ↔
        c.Wider q.receiver g.restriction s.restriction)

theorem wider_of_outline (h : c'.outline = c.outline) (g s : Option Restriction) :
    c'.Wider receiver g s ↔ c.Wider receiver g s := by
  have haccepts : c'.accepts = c.accepts := funext₂ (accepts_of_outline h)
  constructor
  · rintro (_ | hg)
    · exact .free s
    · exact .restricted (haccepts ▸ hg)
  · rintro (_ | hg)
    · exact .free s
    · exact .restricted (haccepts ▸ hg)

namespace Retyped

variable (h : c.Retyped q.arguments.length c')

include h

theorem overloadsOf (t : Ty) :
    (c'.overloadsOf t q.name).map (Table.keeping (hasForm q.arguments.length)) =
      (c.overloadsOf t q.name).map (Table.keeping (hasForm q.arguments.length)) := by
  rw [overloadsOf_eq, overloadsOf_eq, cls?_of_outline h.outline]
  cases c.cls? t with
  | none => rfl
  | some k => exact h.overloads k q.name

/-- A definition has a parameter at each position at which it had one. -/
theorem exists_parameter (m : MethodHandle) (i : Nat) :
    (∃ p, (c'.method m).parameters[i]? = some p) ↔ ∃ p, (c.method m).parameters[i]? = some p := by
  simp [← Option.isSome_iff_exists, (h.method m).length_eq]

theorem covers_iff (hcompares : c.ComparesAlike c' q) (hm : c.Applicable q t m)
    (hn : c.Applicable q t n) (hother : m ≠ n) :
    c'.Covers q.receiver m n ↔ c.Covers q.receiver m n := by
  -- at each position the restrictions are the same, or compare as before
  have hposition : ∀ (i : Nat) (g s g' s' : Parameter), (c.method m).parameters[i]? = some g →
      (c.method n).parameters[i]? = some s → (c'.method m).parameters[i]? = some g' →
      (c'.method n).parameters[i]? = some s' →
      (c'.Wider q.receiver g'.restriction s'.restriction ↔
        c.Wider q.receiver g.restriction s.restriction) := by
    intro i g s g' s' hg hs hg' hs'
    rw [wider_of_outline h.outline]
    rcases Nat.lt_or_ge i q.arguments.length with hlt | hge
    · rw [(h.method m).restriction_eq hlt hg hg', (h.method n).restriction_eq hlt hs hs']
    · exact hcompares t m n hm hn hother i hge g s g' s' hg hs hg' hs'
  constructor
  · intro hcovers i g s hg hs
    obtain ⟨g', hg'⟩ := (h.exists_parameter m i).mpr ⟨g, hg⟩
    obtain ⟨s', hs'⟩ := (h.exists_parameter n i).mpr ⟨s, hs⟩
    exact (hposition i g s g' s' hg hs hg' hs').mp (hcovers i g' s' hg' hs')
  · intro hcovers i g' s' hg' hs'
    obtain ⟨g, hg⟩ := (h.exists_parameter m i).mp ⟨g', hg'⟩
    obtain ⟨s, hs⟩ := (h.exists_parameter n i).mp ⟨s', hs'⟩
    exact (hposition i g s g' s' hg hs hg' hs').mpr (hcovers i g s hg hs)

theorem selectAmong_concur (hcompares : c.ComparesAlike c' q)
    (hoverloads : c.overloadsOf t q.name = some overloads)
    (hkeeping : overloads'.keeping (hasForm q.arguments.length) =
      overloads.keeping (hasForm q.arguments.length)) :
    Concur (c.selectAmong q overloads) (c'.selectAmong q overloads') := by
  have happlicable : definitions overloads' (c.fits q) = definitions overloads (c.fits q) :=
    definitions_of_keeping hkeeping fun _ => hasForm_of_fits
  have hgeneral : ∀ m ∈ definitions overloads (c.fits q), ∀ n ∈ definitions overloads (c.fits q),
      n ≠ m → c'.moreGeneral q.receiver n m = c.moreGeneral q.receiver n m := by
    intro m hm n hn hother
    rw [Bool.eq_iff_iff, moreGeneral_iff, moreGeneral_iff]
    exact h.covers_iff hcompares ((mem_definitions_fits hoverloads).mp hn)
      ((mem_definitions_fits hoverloads).mp hm) hother
  unfold selectAmong
  rw [fits_of_outline h.outline, happlicable]
  generalize definitions overloads (c.fits q) = applicable at *
  cases applicable with
  | nil => exact .inapplicable _ _
  | cons first rest =>
    dsimp only
    rw [mostSpecific_congr hgeneral]
    exact .same _

theorem verdictAt_concur (hcompares : c.ComparesAlike c' q) (t : Ty) :
    Option.Rel Concur (c.verdictAt q t) (c'.verdictAt q t) := by
  have hkept := h.overloadsOf t
  show Option.Rel Concur ((c.overloadsOf t q.name).map (c.selectAmong q))
    ((c'.overloadsOf t q.name).map (c'.selectAmong q))
  cases hoverloads : c.overloadsOf t q.name with
  | none =>
    rw [hoverloads, Option.map_none, Option.map_eq_none_iff] at hkept
    rw [hkept]
    exact .none
  | some overloads =>
    rw [hoverloads, Option.map_some] at hkept
    obtain ⟨overloads', hoverloads', hkeeping⟩ := Option.map_eq_some_iff.mp hkept
    rw [hoverloads']
    exact .some (h.selectAmong_concur hcompares hoverloads hkeeping)

theorem select_concur (hcompares : c.ComparesAlike c' q) (owner : Ty) :
    Concur (c.select owner q) (c'.select owner q) :=
  select_related h.outline (.same _) (fun _ _ => Concur.isOk_eq) (h.verdictAt_concur hcompares) owner

theorem applicable_iff (t : Ty) (m : MethodHandle) : c'.Applicable q t m ↔ c.Applicable q t m := by
  have hkept := h.overloadsOf t
  cases hoverloads : c.overloadsOf t q.name with
  | none =>
    rw [hoverloads, Option.map_none, Option.map_eq_none_iff] at hkept
    exact ⟨fun hm => absurd hkept hm.overloadsOf, fun hm => absurd hoverloads hm.overloadsOf⟩
  | some overloads =>
    rw [hoverloads, Option.map_some] at hkept
    obtain ⟨overloads', hoverloads', hkeeping⟩ := Option.map_eq_some_iff.mp hkept
    rw [← mem_definitions_fits hoverloads', ← mem_definitions_fits hoverloads,
      fits_of_outline h.outline, definitions_of_keeping hkeeping fun _ => hasForm_of_fits]

end Retyped

/-- What a call selects is told by the restrictions of parameters that get an argument, and where
two definitions that are applicable in one table both have further parameters, by how those compare.
If the restrictions of other parameters are changed, the same definitions are applicable; and if the
further parameters compare as before, the same one is selected or the same ones are tied. -/
theorem selection_by_supplied (c : Catalog) (q : Query) (ms ms' : List Method)
    (hretypes : List.Forall₂ (Method.Retypes q.arguments.length) ms ms') :
    (∀ t m, (c.defineAll ms').Applicable q t m ↔ (c.defineAll ms).Applicable q t m) ∧
    ((c.defineAll ms).ComparesAlike (c.defineAll ms') q → ∀ owner,
      (∀ m, (c.defineAll ms').select owner q = .ok m ↔ (c.defineAll ms).select owner q = .ok m) ∧
      ∀ tied, (c.defineAll ms').select owner q = .error (.tied tied) ↔
        (c.defineAll ms).select owner q = .error (.tied tied)) := by
  have hretyped := (Retyped.refl c).defineAll hretypes
  refine ⟨hretyped.applicable_iff, fun hcompares owner => ?_⟩
  have hconcur := hretyped.select_concur hcompares owner
  exact ⟨hconcur.ok_iff, hconcur.tied_iff⟩

/-! ## Two ways to show a value -/

def printer : Catalog := seeded.perform (.object "Printer" (some .object) .main false)

/-- A method that takes a value and may take a style, for which there is a default. -/
def shows (value : Ty) (style : Option Ty) : Method :=
  ⟨"show", ⟨36⟩, ⟨"value", some (.type value), none⟩ ::
    style.toList.map (fun t => ⟨"style", some (.type t), some (.literal ⟨0, .synthesized⟩ .nil)⟩),
    false, .builtin (.fixed .nil), .synthesized⟩

theorem retypes_shows (value style style' : Ty) :
    (shows value (some style)).Retypes 1 (shows value (some style')) :=
  ⟨rfl, rfl, rfl, rfl, rfl⟩

/-- The style of the first method does not matter as long as the second one has none. -/
theorem selection_by_supplied_shows :
    let before := printer.defineAll [shows .int (some .string), shows .numeric none]
    let after := printer.defineAll [shows .int (some .symbol), shows .numeric none]
    before.ComparesAlike after ⟨"show", [.int], false, ⟨36⟩⟩ ∧
      after.select ⟨36⟩ ⟨"show", [.int], false, ⟨36⟩⟩ = .ok ⟨213⟩ := by
  intro before after
  obtain ⟨hbefore, hwide, hentries⟩ :
      before.select ⟨36⟩ ⟨"show", [.int], false, ⟨36⟩⟩ = .ok ⟨213⟩ ∧
      (before.method ⟨214⟩).parameters.length = 1 ∧
      ∀ table ∈ before.classes.toList, ∀ entry ∈ ((table.methods.get? "show").getD .empty).entries,
        entry.2 = ⟨213⟩ ∨ entry.2 = ⟨214⟩ := by
    decide +kernel
  have hshows : ∀ t m, before.Applicable ⟨"show", [.int], false, ⟨36⟩⟩ t m →
      m = ⟨213⟩ ∨ m = ⟨214⟩ := by
    rintro t m ⟨key, hkey, -⟩
    obtain ⟨k, overloads, hoverloads, hentry⟩ := hkey.exists_overloadsAt
    unfold overloadsAt classTable at hoverloads
    cases hk : before.classes[k.index]? with
    | none =>
      rw [hk] at hoverloads
      cases hoverloads
    | some table =>
      rw [hk] at hoverloads
      have hone := hentries table (Array.mem_toList_iff.mpr (Array.mem_of_getElem? hk)) (key, m)
      exact hone (by rw [show table.methods.get? "show" = _ from hoverloads]; exact hentry)
  have hcompares : before.ComparesAlike after ⟨"show", [.int], false, ⟨36⟩⟩ := by
    intro t m n hm hn hother i hi g s g' s' hg hs
    -- one of the two is the method without a style
    have hnone : ∀ i, 1 ≤ i → ∀ p, (before.method ⟨214⟩).parameters[i]? ≠ some p := fun i hi p hp => by
      rw [List.getElem?_eq_none (by rw [hwide]; exact hi)] at hp
      cases hp
    rcases hshows t m hm with rfl | rfl
    · rcases hshows t n hn with rfl | rfl
      · exact absurd rfl hother
      · exact absurd hs (hnone i hi s)
    · exact absurd hg (hnone i hi g)
  have hkept := selection_by_supplied printer ⟨"show", [.int], false, ⟨36⟩⟩ _ _
    (.cons (retypes_shows .int .string .symbol) (.cons (.refl (shows .numeric none)) .nil))
  exact ⟨hcompares, ((hkept.2 hcompares ⟨36⟩).1 _).mpr hbefore⟩

/-- The style of the first method decides whether the second one covers it, though the call gives
none. -/
theorem omitted_decides :
    let before := [shows .int (some .string), shows .numeric (some .int)]
    let after := [shows .int (some .int), shows .numeric (some .int)]
    List.Forall₂ (Method.Retypes 1) before after ∧
      (before.map methodKeys).flatten.Nodup ∧ (after.map methodKeys).flatten.Nodup ∧
      (printer.defineAll before).select ⟨36⟩ ⟨"show", [.int], false, ⟨36⟩⟩ =
        .error (.tied [⟨213⟩, ⟨214⟩]) ∧
      (printer.defineAll after).select ⟨36⟩ ⟨"show", [.int], false, ⟨36⟩⟩ = .ok ⟨213⟩ :=
  ⟨.cons (retypes_shows .int .string .int) (.cons (.refl _) .nil), by decide, by decide,
    by decide +kernel⟩

end Catalog

end FlowTyping
