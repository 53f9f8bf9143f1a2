import FlowTyping.Proofs.Catalog.Selection
import FlowTyping.Proofs.Descent

/-
  Going up

  Acceptance and the selection of a definition go from a type to its parents.
  Both keep within a bound, and the search marks the types it has been at. In a
  catalog in which nothing goes back to itself neither matters: acceptance and
  selection are then what plain recursion over the parents gives
  (`Closed.accepts_eq`, `select_eq_climbing`), and that recursion ends.
-/
namespace FlowTyping

/-- What two searches find, one after the other: the selection of the first, or else of the second,
or else the reason why the first selects nothing, if it gives one. -/
def Verdict.orElse : Except Miss MethodHandle → Except Miss MethodHandle → Except Miss MethodHandle
  | .ok m, _ => .ok m
  | .error _, .ok m => .ok m
  | .error .undefined, .error later => .error later
  | .error miss, .error _ => .error miss

namespace Catalog

variable {c : Catalog} {t : Ty} {q : Query}

/-! ## Acceptance -/

/-- Acceptance by recursion. -/
theorem Closed.accepts_eq (hc : c.Closed) (r t : Ty) :
    c.accepts r t = (c.resolve r == c.resolve t ||
      if (c.resolvedShape t).isUnion then (c.climbs t).all (c.accepts r)
      else c.sameClass r t || (c.climbs t).any (c.accepts r)) := by
  unfold accepts
  rw [acceptsWithin_succ]
  rcases Nat.lt_or_ge t.index c.size with hlt | hge
  · have hbound : ∀ u ∈ c.climbs t, c.acceptsWithin (c.size + 1) r u = c.acceptsWithin (c.size + 2) r u :=
      fun u hu => hc.accepts_bound r (mem_entered.mp (hc t (mem_entered.mpr hlt) u hu))
        (Nat.le_refl _)
    rw [all_congr_mem hbound, any_congr_mem hbound]
  · -- a handle that was never given out goes back to nothing
    have hshape := shape_of_size_le hge
    have hresolve : c.resolve t = t := resolveWithin_of_not_provisional (by rw [hshape]; rfl) _
    have hnone : c.climbs t = [] := by unfold climbs resolvedShape; rw [hresolve, hshape]
    rw [hnone]
    rfl

/-! ## Verdicts -/

/-- What the table of a type says to a call, if it knows the name. -/
def verdictAt (c : Catalog) (q : Query) (t : Ty) : Option (Except Miss MethodHandle) :=
  ((c.tableOf t).bind (·.methods.get? q.name)).map (c.selectAmong q)

theorem selectAmong_ne_undefined (c : Catalog) (q : Query)
    (overloads : Table MethodKey MethodHandle) :
    c.selectAmong q overloads ≠ .error .undefined := by
  unfold selectAmong
  split
  · exact fun h => by cases h
  · split <;> exact fun h => by cases h

theorem verdictAt_ne_undefined (c : Catalog) (q : Query) (t : Ty) :
    ∀ v ∈ c.verdictAt q t, v ≠ .error .undefined := by
  intro v hv
  obtain ⟨overloads, -, rfl⟩ := Option.map_eq_some_iff.mp hv
  exact c.selectAmong_ne_undefined q overloads

theorem firstSelected_append {l r : List (Except Miss MethodHandle)}
    (hl : ∀ v ∈ l, v ≠ .error .undefined) :
    firstSelected (l ++ r) = Verdict.orElse (firstSelected l) (firstSelected r) := by
  induction l with
  | nil => cases h : firstSelected r <;> simp [firstSelected, Verdict.orElse, h]
  | cons v l ih =>
    have hrest := ih fun w hw => hl w (List.mem_cons_of_mem v hw)
    cases v with
    | ok m => rfl
    | error miss =>
      have hmiss : miss ≠ .undefined := fun h => hl _ List.mem_cons_self (by rw [h])
      rw [List.cons_append, firstSelected, firstSelected, hrest]
      cases firstSelected l with
      | ok m => rfl
      | error other => cases firstSelected r <;> cases other <;> cases miss <;> simp_all [Verdict.orElse]

/-- A selection is one of the verdicts, and there is one if any verdict is a selection. -/
theorem firstSelected_isOk (l : List (Except Miss MethodHandle)) :
    (∃ m, firstSelected l = .ok m) ↔ ∃ m, .ok m ∈ l := by
  induction l with
  | nil => simp [firstSelected]
  | cons v l ih =>
    cases v with
    | ok m => exact ⟨fun _ => ⟨m, List.mem_cons_self⟩, fun _ => ⟨m, rfl⟩⟩
    | error miss =>
      rw [firstSelected]
      cases hfound : firstSelected l with
      | ok m =>
        obtain ⟨n, hn⟩ := ih.mp ⟨m, hfound⟩
        exact ⟨fun _ => ⟨n, List.mem_cons_of_mem _ hn⟩, fun _ => ⟨m, rfl⟩⟩
      | error other =>
        have hnone : ¬ ∃ m, .ok m ∈ l := fun h => by
          obtain ⟨m, hm⟩ := ih.mpr h
          rw [hfound] at hm
          cases hm
        simpa using fun m hm => hnone ⟨m, hm⟩

/-- Verdicts that have been given change nothing when they are given again. -/
theorem firstSelected_again {l r : List (Except Miss MethodHandle)}
    (hl : ∀ v ∈ l, v ≠ .error .undefined) (hr : ∀ v ∈ r, v ∈ l) :
    firstSelected (l ++ r) = firstSelected l := by
  rw [firstSelected_append hl]
  cases hfirst : firstSelected l with
  | ok m => rfl
  | error miss =>
    have hnone : ¬ ∃ m, .ok m ∈ l := fun h => by
      obtain ⟨m, hm⟩ := (firstSelected_isOk l).mpr h
      rw [hfirst] at hm
      cases hm
    cases hsecond : firstSelected r with
    | ok m =>
      obtain ⟨n, hn⟩ := (firstSelected_isOk r).mp ⟨m, hsecond⟩
      exact absurd ⟨n, hr _ hn⟩ hnone
    | error other =>
      -- only an empty list gives no reason
      cases l with
      | nil =>
        have hnil : r = [] := List.eq_nil_iff_forall_not_mem.mpr fun v hv =>
          List.not_mem_nil (hr v hv)
        subst hnil
        rw [firstSelected] at hfirst hsecond
        cases hfirst
        cases hsecond
        rfl
      | cons v rest =>
        have hmiss : miss ≠ .undefined := by
          cases v with
          | ok m => exact absurd ⟨m, List.mem_cons_self⟩ hnone
          | error own =>
            rw [firstSelected] at hfirst
            cases hrest : firstSelected rest with
            | ok m => rw [hrest] at hfirst; cases hfirst
            | error _ =>
              rw [hrest] at hfirst
              cases hfirst
              exact fun h => hl _ List.mem_cons_self (by rw [h])
        cases miss <;> simp_all [Verdict.orElse]

/-! ## Selection -/

/-- What the tables of some types say to a call. -/
def found (c : Catalog) (q : Query) (types : List Ty) : Except Miss MethodHandle :=
  firstSelected (types.filterMap (c.verdictAt q))

theorem found_append (c : Catalog) (q : Query) (l r : List Ty) :
    c.found q (l ++ r) = Verdict.orElse (c.found q l) (c.found q r) := by
  unfold found
  rw [List.filterMap_append, firstSelected_append]
  intro v hv
  obtain ⟨t, -, ht⟩ := List.mem_filterMap.mp hv
  exact c.verdictAt_ne_undefined q t v ht

theorem found_again (c : Catalog) (q : Query) (l r : List Ty) (h : ∀ t ∈ r, t ∈ l) :
    c.found q (l ++ r) = c.found q l := by
  unfold found
  rw [List.filterMap_append, firstSelected_again]
  · intro v hv
    obtain ⟨t, -, ht⟩ := List.mem_filterMap.mp hv
    exact c.verdictAt_ne_undefined q t v ht
  · intro v hv
    obtain ⟨t, ht, hverdict⟩ := List.mem_filterMap.mp hv
    exact List.mem_filterMap.mpr ⟨t, h t ht, hverdict⟩

theorem found_flatMap (c : Catalog) (q : Query) (types : List Ty) (below : Ty → List Ty) :
    c.found q (types.flatMap below) =
      types.foldr (fun t rest => Verdict.orElse (c.found q (below t)) rest) (.error .undefined) := by
  induction types with
  | nil => rfl
  | cons t types ih => rw [List.flatMap_cons, found_append, ih, List.foldr_cons]

/-- Selection by recursion: what the own table says, and then what the parents select, one after the
other. For `new` on a metaclass the parents are not asked. -/
theorem select_eq_climbing (hparents : ∀ a ∈ c.entered, ∀ b ∈ c.parents a, b ∈ c.entered)
    (hplain : ∀ t, c.resolve t = t) (hwf : WellFounded fun p t => p ∈ c.parents t) {owner : Ty}
    (howner : owner.index < c.size) :
    c.select owner q = Verdict.orElse (c.found q [owner])
      (if q.name = "new" ∧ c.isMeta q.receiver then .error .undefined
        else (c.parents owner).foldr (fun p rest => Verdict.orElse (c.select p q) rest)
          (.error .undefined)) := by
  have hsearch : ∀ t, (fun t => (c.parents t).map c.resolve) t = c.parents t := fun t =>
    (List.map_congr_left fun p _ => hplain p).trans (List.map_id _)
  have hnext : (fun t => (c.parents t).map c.resolve) = c.parents := funext hsearch
  have hselect : ∀ t, c.select t q = c.found q (c.searchOrder t q) := fun _ => rfl
  rw [hselect, searchOrder, hplain]
  by_cases hnew : q.name = "new" ∧ c.isMeta q.receiver
  · rw [if_pos hnew, if_pos hnew]
    cases hown : c.found q [owner] with
    | ok m => rfl
    | error miss => cases miss <;> rfl
  · have hothers : ∀ p, c.select p q = c.found q (descent c.parents (c.size + 1) p) := fun p => by
      rw [hselect, searchOrder, if_neg hnew, hnext, hplain]
      rfl
    have hunmarked : c.found q (descent c.parents (c.size + 1) owner) =
        c.found q (owner :: (c.parents owner).flatMap (descent c.parents (c.size + 1))) :=
      preorder_unmarked hparents (by rw [length_entered]; exact Nat.le_succ _)
        (c.found_append q) (c.found_again q) hwf (mem_entered.mpr howner)
    rw [if_neg hnew, if_neg hnew, hnext]
    calc c.found q (preorder c.parents (c.size + 1) [] [owner])
        = c.found q ([owner] ++ (c.parents owner).flatMap (descent c.parents (c.size + 1))) :=
          hunmarked
      _ = _ := by
          rw [found_append, found_flatMap]
          simp only [hothers]

end Catalog

end FlowTyping
