import FlowTyping.Proofs.Catalog.Contained
import FlowTyping.Proofs.Catalog.Specificity
import FlowTyping.Proofs.Flow.Ancestry
import FlowTyping.Proofs.Flow.Enrolling

/-
  What ancestors decide

  The table of a type is asked before those of its ancestors. If a definition is
  best in it, the ancestors are not heard. If some are applicable but none is
  best, the first ancestor with a best definition decides, and only if there is
  none the tie is reported. So of two catalogs that differ in what the ancestors
  of a type define, either both select the same definition of its own, or both
  find the same tie, which the ancestors may decide in one and not in the other
  (`ancestors_decide_ties`, `tie_decided_above`).
-/
namespace FlowTyping.Catalog

variable {c c' : Catalog} {q : Query} {owner t receiver : Ty} {m n : MethodHandle} {miss : Miss}
  {overloads : Table MethodKey MethodHandle} {above : List Ty}

/-! ## Catalogs that are searched alike -/

/-- If verdicts are related one by one, and only selections to selections, the first selections are
related, and without one the first misses. -/
theorem firstSelected_related {R : Except Miss MethodHandle → Except Miss MethodHandle → Prop}
    (hundefined : R (.error .undefined) (.error .undefined))
    (hok : ∀ v v', R v v' → v'.isOk = v.isOk) {verdicts verdicts' : List (Except Miss MethodHandle)}
    (h : List.Forall₂ R verdicts verdicts') :
    R (firstSelected verdicts) (firstSelected verdicts') := by
  induction h with
  | nil => exact hundefined
  | @cons v v' rest rest' hv _ ih =>
    have hkind := hok v v' hv
    cases v with
    | ok m =>
      cases v' with
      | ok m' => exact hv
      | error miss' => cases hkind
    | error miss =>
      cases v' with
      | ok m' => cases hkind
      | error miss' =>
        have hrest := hok _ _ ih
        rw [firstSelected, firstSelected]
        generalize firstSelected rest = found at ih hrest ⊢
        generalize firstSelected rest' = found' at ih hrest ⊢
        cases found <;> cases found' <;> first | exact ih | exact hv | cases hrest

/-- If the tables of all types say related things, so does the search through them. -/
theorem select_related (h : c'.outline = c.outline)
    {R : Except Miss MethodHandle → Except Miss MethodHandle → Prop}
    (hundefined : R (.error .undefined) (.error .undefined))
    (hok : ∀ v v', R v v' → v'.isOk = v.isOk)
    (hverdict : ∀ t, Option.Rel R (c.verdictAt q t) (c'.verdictAt q t)) (owner : Ty) :
    R (c.select owner q) (c'.select owner q) := by
  refine firstSelected_related hundefined hok ?_
  unfold verdicts
  rw [searchOrder_of_outline h]
  induction c.searchOrder owner q with
  | nil => exact .nil
  | cons t rest ih =>
    have ht := hverdict t
    show List.Forall₂ R ((t :: rest).filterMap (c.verdictAt q))
      ((t :: rest).filterMap (c'.verdictAt q))
    rw [List.filterMap_cons, List.filterMap_cons]
    generalize c.verdictAt q t = v at ht ⊢
    generalize c'.verdictAt q t = v' at ht ⊢
    cases ht with
    | none => exact ih
    | some hv => exact .cons hv ih

/-! ## Catalogs that share a table -/

/-- Two catalogs with the same types, in which the table of `t` has the same definitions of a
name. -/
structure SharesOwn (c c' : Catalog) (t : Ty) (name : String) : Prop where
  outline : c'.outline = c.outline
  overloads : c'.overloadsOf t name = c.overloadsOf t name
  method : ∀ key m, c.Indexes t name key m → c'.method m = c.method m

theorem mostSpecific_congr {candidates : List MethodHandle}
    (h : ∀ m ∈ candidates, ∀ n ∈ candidates, n ≠ m →
      c'.moreGeneral receiver n m = c.moreGeneral receiver n m) :
    c'.mostSpecific receiver candidates = c.mostSpecific receiver candidates := by
  unfold mostSpecific
  refine List.filter_congr fun m hm => all_congr_mem fun n hn => ?_
  by_cases hother : n = m
  · rw [beq_iff_eq.mpr hother, Bool.true_or, Bool.true_or]
  · rw [h m hm n hn hother]

theorem selectAmong_of_outline (h : c'.outline = c.outline)
    (hmethod : ∀ m ∈ definitions overloads (c.fits q), c'.method m = c.method m) :
    c'.selectAmong q overloads = c.selectAmong q overloads := by
  unfold selectAmong
  rw [fits_of_outline h]
  generalize definitions overloads (c.fits q) = applicable at *
  cases applicable with
  | nil => rfl
  | cons first rest =>
    dsimp only
    rw [mostSpecific_congr fun m hm n hn _ =>
      moreGeneral_of_outline h (hmethod n hn) (hmethod m hm) q.receiver]

/-- A shared table says the same in both catalogs. -/
theorem SharesOwn.verdictAt (h : c.SharesOwn c' t q.name) : c'.verdictAt q t = c.verdictAt q t := by
  show (c'.overloadsOf t q.name).map (c'.selectAmong q) =
    (c.overloadsOf t q.name).map (c.selectAmong q)
  rw [h.overloads]
  refine Option.map_congr fun overloads hoverloads => selectAmong_of_outline h.outline fun m hm => ?_
  obtain ⟨key, hkey, -⟩ := mem_definitions.mp hm
  exact h.method key m ((indexes_iff hoverloads).mpr hkey)

theorem overloadsOf_eq (c : Catalog) (t : Ty) (name : String) :
    c.overloadsOf t name = (c.cls? t).bind fun k => c.overloadsAt k name := by
  unfold overloadsOf tableOf
  cases c.cls? t <;> rfl

theorem Indexes.exists_overloadsAt {name : String} {key : MethodKey} (h : c.Indexes t name key m) :
    ∃ k overloads, c.overloadsAt k name = some overloads ∧ (key, m) ∈ overloads.entries := by
  obtain ⟨overloads, hoverloads, hentry⟩ := h
  rw [overloadsOf_eq] at hoverloads
  obtain ⟨k, -, hoverloads⟩ := Option.bind_eq_some_iff.mp hoverloads
  exact ⟨k, overloads, hoverloads, hentry⟩

/-- A method that goes into another class table leaves the one of `t` as it is. -/
theorem Numbered.sharesOwn_defineMethod (hc : c.Numbered) (added : Method)
    (hother : c.cls? added.owner ≠ c.cls? t) (name : String) :
    c.SharesOwn (c.defineMethod added).2 t name := by
  have houtline := outline_defineMethod c added
  refine ⟨houtline, ?_, fun key m hm => ?_⟩
  · rw [overloadsOf_eq, overloadsOf_eq, cls?_of_outline houtline]
    cases hk : c.cls? t with
    | none => rfl
    | some k =>
      show (c.defineMethod added).2.overloadsAt k name = c.overloadsAt k name
      rw [overloadsAt_defineMethod, if_neg fun h => hother (h.1.trans hk.symm)]
  · obtain ⟨k, overloads, hoverloads, hentry⟩ := hm.exists_overloadsAt
    rw [method_defineMethod, if_neg (Nat.ne_of_lt (hc k name overloads hoverloads _ hentry))]

/-! ## Below the own table -/

/-- The own type of a call is searched first. -/
theorem exists_searchOrder (c : Catalog) (owner : Ty) (q : Query) :
    ∃ above, c.searchOrder owner q = c.resolve owner :: above := by
  unfold searchOrder
  split
  · exact ⟨[], rfl⟩
  · exact ⟨_, rfl⟩

/-- What becomes of a call for which the own table has no best definition and gives a reason: the
tables above decide if one of them has a best definition, and otherwise the reason stands. -/
inductive Delegates (c : Catalog) (q : Query) (above : List Ty) (own : Miss) :
    Except Miss MethodHandle → Prop
  | inherited {m : MethodHandle} (h : c.FirstBest q m above) : Delegates c q above own (.ok m)
  | stands (h : ∀ t ∈ above, ∀ m, ¬ c.Best q t m) : Delegates c q above own (.error own)

theorem delegates_of_verdictAt (habove : c.searchOrder owner q = c.resolve owner :: above)
    (hown : c.verdictAt q (c.resolve owner) = some (.error miss)) :
    c.Delegates q above miss (c.select owner q) := by
  have hselect : c.select owner q = firstSelected (.error miss :: above.filterMap (c.verdictAt q)) := by
    show c.found q (c.searchOrder owner q) = _
    rw [habove, found, List.filterMap_cons, hown]
  have htells : c.Tells q above (firstSelected (above.filterMap (c.verdictAt q))) :=
    c.found_tells q above
  rw [hselect, firstSelected]
  generalize firstSelected (above.filterMap (c.verdictAt q)) = found at htells ⊢
  cases htells with
  | best h => exact .inherited h
  | reports hnone _ => exact .stands hnone
  | undefined hunknown => exact .stands fun t ht m hm => hm.applicable.overloadsOf (hunknown t ht)

theorem select_of_verdictAt (habove : c.searchOrder owner q = c.resolve owner :: above)
    (hown : c.verdictAt q (c.resolve owner) = some (.ok m)) : c.select owner q = .ok m :=
  found_eq_ok_iff.mpr (habove ▸ .here (verdictAt_eq_ok_iff.mp hown) above)

/-- What the ancestors of a type define decides a call for which definitions of its own are
applicable only if these are tied. Of two catalogs in which the own table is the same, either both
select the definition that is best in it, or in both the tie stands unless an ancestor of that
catalog has a best definition. -/
theorem ancestors_decide_ties (hshares : c.SharesOwn c' (c.resolve owner) q.name)
    (happlicable : ∃ m, c.Applicable q (c.resolve owner) m) :
    (∃ m, c.Best q (c.resolve owner) m ∧ c.select owner q = .ok m ∧ c'.select owner q = .ok m) ∨
    ∃ ms above, c.Reports q (c.resolve owner) (.tied ms) ∧
      c.searchOrder owner q = c.resolve owner :: above ∧
      c'.searchOrder owner q = c.resolve owner :: above ∧
      c.Delegates q above (.tied ms) (c.select owner q) ∧
      c'.Delegates q above (.tied ms) (c'.select owner q) := by
  obtain ⟨above, habove⟩ := c.exists_searchOrder owner q
  have habove' : c'.searchOrder owner q = c.resolve owner :: above :=
    (searchOrder_of_outline hshares.outline owner q).trans habove
  have hresolve : c'.resolve owner = c.resolve owner := resolve_of_outline hshares.outline owner
  have hsame : c'.verdictAt q (c'.resolve owner) = c.verdictAt q (c.resolve owner) :=
    hresolve ▸ hshares.verdictAt
  have hown' : c'.searchOrder owner q = c'.resolve owner :: above := hresolve ▸ habove'
  obtain ⟨some_one, hsome⟩ := happlicable
  rcases c.verdictAt_spec q (c.resolve owner) with
    ⟨-, hunknown⟩ | ⟨m, hverdict, hbest⟩ | ⟨miss, hverdict, hreports⟩
  · exact absurd hunknown hsome.overloadsOf
  · exact .inl ⟨m, hbest, select_of_verdictAt habove hverdict,
      select_of_verdictAt hown' (hsame.trans hverdict)⟩
  · have hdelegates := delegates_of_verdictAt habove hverdict
    have hdelegates' := delegates_of_verdictAt hown' (hsame.trans hverdict)
    cases hreports with
    | inapplicable _ hnone _ => exact absurd hsome (hnone some_one)
    | tied hsome hnone hms =>
      exact .inr ⟨_, above, .tied hsome hnone hms, habove, habove', hdelegates, hdelegates'⟩

/-! ## A tie -/

/-- A method of two parameters. -/
def joins (owner : Ty) (left right : Option Restriction) : Method :=
  ⟨"join", owner, [⟨"left", left, none⟩, ⟨"right", right, none⟩], false, .builtin (.fixed .int),
    .synthesized⟩

/-- `Derived` below `Base`. -/
def derived : Catalog :=
  (seeded.perform (.object "Base" (some .object) .main false)).perform
    (.object "Derived" (some ⟨36⟩) .main false)

/-- Two definitions of `Derived` of which none is best for two integers. -/
def tied : Catalog :=
  derived.defineAll [joins ⟨38⟩ (some (.type .int)) none, joins ⟨38⟩ none (some (.type .int))]

/-- The same with a definition of `Base`. -/
def overruled : Catalog := tied.defineAll [joins ⟨36⟩ none none]

theorem Plainly.method (c : Catalog) (m : Method) (h : c.Knows (.method m)) : c.Plainly (.method m) :=
  ⟨fun _ h => by (cases h), h, fun h => h.elim⟩

theorem Plainly.object {name : String} {superclass : Option Ty} {container : Ty} {generic : Bool}
    (h : c.Knows (.object name superclass container generic)) :
    c.Plainly (.object name superclass container generic) :=
  ⟨fun _ h => by (cases h), h, fun h => h.elim⟩

theorem size_seeded : seeded.size = 36 := by decide +kernel

theorem size_derived : derived.size = 40 := by
  refine (Contained.size_newObject _ _ _ _ _).trans (congrArg (· + 2) ?_)
  exact (Contained.size_newObject _ _ _ _ _).trans (congrArg (· + 2) size_seeded)

theorem reached_derived : derived.Reached Plainly := by
  have hsize : (seeded.perform (.object "Base" (some .object) .main false)).size = 38 :=
    (Contained.size_newObject _ _ _ _ _).trans (congrArg (· + 2) size_seeded)
  have hbase := knows_of_size (r := .object "Base" (some .object) .main false) size_seeded (by decide)
  exact .step (.step .start _ (.object hbase)) _ (.object (knows_of_size hsize (by decide)))

theorem reached_tied : tied.Reached Plainly := by
  have hentered : ∀ m ∈ [joins ⟨38⟩ (some (.type .int)) none, joins ⟨38⟩ none (some (.type .int))],
      ∀ t ∈ (Request.method m).mentions, t.index < 40 := by decide
  exact reached_derived.defineAll Plainly.method fun m hm => knows_of_size size_derived (hentered m hm)

theorem reached_overruled : overruled.Reached Plainly := by
  have hentered : ∀ m ∈ [joins ⟨36⟩ none none], ∀ t ∈ (Request.method m).mentions, t.index < 40 := by
    decide
  have hsize : tied.size = 40 := (size_defineAll _ _).trans size_derived
  exact reached_tied.defineAll Plainly.method fun m hm => knows_of_size hsize (hentered m hm)

/-- What the two catalogs have of a name, and what they select. -/
theorem computed_joins :
    tied.resolve ⟨38⟩ = ⟨38⟩ ∧ tied.cls? ⟨36⟩ ≠ tied.cls? ⟨38⟩ ∧ tied.accepts .int .int = true ∧
    (⟨[some (.type .int), none], false⟩, ⟨216⟩) ∈
      ((tied.overloadsOf ⟨38⟩ "join").getD .empty).entries ∧
    tied.verdictAt ⟨"join", [.int, .string], false, ⟨38⟩⟩ ⟨38⟩ = some (.ok ⟨216⟩) ∧
    tied.select ⟨38⟩ ⟨"join", [.int, .int], false, ⟨38⟩⟩ = .error (.tied [⟨216⟩, ⟨217⟩]) ∧
    overruled.select ⟨38⟩ ⟨"join", [.int, .int], false, ⟨38⟩⟩ = .ok ⟨218⟩ := by
  decide +kernel

theorem sharesOwn_tied : tied.SharesOwn overruled ⟨38⟩ "join" := by
  have hnumbered : tied.Numbered := (reached_tied.indexed fun _ _ h => h.2.1).numbered
  obtain ⟨-, hother, -⟩ := computed_joins
  exact hnumbered.sharesOwn_defineMethod (joins ⟨36⟩ none none) hother "join"

theorem applicable_tied (right : Ty) :
    tied.Applicable ⟨"join", [.int, right], false, ⟨38⟩⟩ ⟨38⟩ ⟨216⟩ := by
  obtain ⟨-, -, haccepts, hkey, -⟩ := computed_joins
  cases hoverloads : tied.overloadsOf ⟨38⟩ "join" with
  | none =>
    rw [hoverloads] at hkey
    cases hkey
  | some overloads =>
    rw [hoverloads] at hkey
    exact ⟨_, ⟨overloads, hoverloads, hkey⟩, rfl,
      .cons (.restricted haccepts) (.cons (.free right) .nil)⟩

/-- For an integer and a string one definition of `Derived` is best, and what `Base` defines does
not matter. -/
theorem ancestors_decide_ties_joined :
    tied.SharesOwn overruled ⟨38⟩ "join" ∧
    ∃ m, tied.Best ⟨"join", [.int, .string], false, ⟨38⟩⟩ ⟨38⟩ m ∧
      tied.select ⟨38⟩ ⟨"join", [.int, .string], false, ⟨38⟩⟩ = .ok m ∧
      overruled.select ⟨38⟩ ⟨"join", [.int, .string], false, ⟨38⟩⟩ = .ok m := by
  obtain ⟨hresolve, -, -, -, hverdict, -⟩ := computed_joins
  have hshares : tied.SharesOwn overruled (tied.resolve ⟨38⟩) "join" := by
    rw [hresolve]
    exact sharesOwn_tied
  have happlicable : ∃ m,
      tied.Applicable ⟨"join", [.int, .string], false, ⟨38⟩⟩ (tied.resolve ⟨38⟩) m := by
    rw [hresolve]
    exact ⟨_, applicable_tied .string⟩
  have hdecided := ancestors_decide_ties (q := ⟨"join", [.int, .string], false, ⟨38⟩⟩) hshares
    happlicable
  rw [hresolve] at hdecided
  refine ⟨sharesOwn_tied, ?_⟩
  rcases hdecided with hbest | ⟨ms, above, hreports, -⟩
  · exact hbest
  · exact absurd (verdictAt_eq_ok_iff.mp hverdict) (hreports.not_best _)

/-- For two integers the definitions of `Derived` are tied. That stands as long as `Base` has no
definition, and otherwise the one of `Base` is selected. -/
theorem tie_decided_above : tied.Acyclic ∧ overruled.Acyclic ∧ tied.SharesOwn overruled ⟨38⟩ "join" ∧
    tied.Applicable ⟨"join", [.int, .int], false, ⟨38⟩⟩ ⟨38⟩ ⟨216⟩ ∧
    tied.select ⟨38⟩ ⟨"join", [.int, .int], false, ⟨38⟩⟩ = .error (.tied [⟨216⟩, ⟨217⟩]) ∧
    overruled.select ⟨38⟩ ⟨"join", [.int, .int], false, ⟨38⟩⟩ = .ok ⟨218⟩ :=
  ⟨reached_tied.layered.acyclic, reached_overruled.layered.acyclic, sharesOwn_tied,
    applicable_tied .int, computed_joins.2.2.2.2.2⟩

end FlowTyping.Catalog
