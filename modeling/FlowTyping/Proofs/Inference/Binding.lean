import FlowTyping.Proofs.Flow.Assembly
import FlowTyping.Proofs.Inference.Outcome

/-
  What calls are bound to

  In the run that a check ends with, a call whose receiver and arguments have
  types is bound to exactly what it yields for the members of these types, and
  takes on all their types (`calls_bound`). Types that were superseded are left
  out: a node on a cycle that has lost all other sources keeps such a type, and
  nobody wakes the calls on it when the successor comes.
-/
namespace FlowTyping

open Catalog

namespace Run

variable {r : Run} {site : Site} {n : Node} {owner m : Ty} {arguments : List Ty}

/-- A node has a type that has not been superseded. -/
def Standing (r : Run) (n : Node) : Prop :=
  ∃ t, r.graph.typeAt n = some t ∧ r.catalog.isSuperseded t = false

/-- The receiver and the arguments of a call have types that have not been superseded. -/
def Typed (r : Run) (site : Site) : Prop := ∀ n ∈ (r.site site).watched, r.Standing n

instance (r : Run) (n : Node) : Decidable (r.Standing n) :=
  decidable_of_iff ((r.graph.typeAt n).any fun t => !r.catalog.isSuperseded t) (by
    rw [Option.any_eq_true]
    simp only [Standing, Bool.not_eq_true'])

/-- In a run without dirty nodes every call is bound to what it yields. -/
theorem Sound.current (hr : r.Sound []) (hquiet : r.Quiet) (hs : site.index < r.sites.size) :
    r.Current site := by
  rcases hr.attended site hs with (hcurrent | ⟨n, -, hn⟩) | hdue
  · exact hcurrent
  · rw [hquiet.clean] at hn
    cases hn
  · cases hdue

/-- The combinations that a call was resolved for are still those that it has. -/
theorem ResolvedIn.combinations_eq {c : Catalog} (hc : r.ResolvedIn site c) (ht : r.Typed site) :
    (r.withCatalog c).combinations (r.site site) = r.combinations (r.site site) := by
  refine combinations_congr fun n hn => ?_
  obtain ⟨t, htype, hl⟩ := ht n hn
  show (r.graph.typeAt n).map c.members = (r.graph.typeAt n).map r.catalog.members
  rw [htype, Option.map_some, Option.map_some,
    hc.extended.toGrows.members_eq hc.sound.canonical.grounded (hc.entered n hn t htype) hl]

theorem Typed.exists_combinations (ht : r.Typed site) :
    ∃ all, r.combinations (r.site site) = some all := by
  refine Run.exists_combinations fun n hn => ?_
  obtain ⟨t, htype, -⟩ := ht n hn
  rw [htype]
  rfl

/-- What a call was resolved for is what it yields for its combinations now. -/
theorem Sound.resolved (hr : r.Sound []) (hquiet : r.Quiet) (hs : site.index < r.sites.size)
    (ht : r.Typed site) : ∃ all, r.combinations (r.site site) = some all ∧
      (∀ one ∈ all, ∃ n ∈ (r.site site).targets,
        r.Yields site one.2 n (r.catalog.dispatch (r.site site) one.1 one.2)) ∧
      ∀ n ∈ (r.site site).targets, ∃ one ∈ all,
        r.Yields site one.2 n (r.catalog.dispatch (r.site site) one.1 one.2) := by
  obtain ⟨c, hc⟩ := hr.current hquiet hs
  obtain ⟨all, hall⟩ := ht.exists_combinations
  have hold := (hc.combinations_eq ht).trans hall
  have hdispatch : ∀ one ∈ all, r.catalog.dispatch (r.site site) one.1 one.2 =
      c.dispatch (r.site site) one.1 one.2 := fun one hone => by
    obtain ⟨howner, harguments⟩ :=
      ((mem_combinations hold).mp hone).definite hc.sound hc.caller hc.entered
    exact hc.extended.dispatch_eq hc.sound _ howner harguments
  refine ⟨all, hall, fun one hone => ?_, fun n hn => ?_⟩
  · rw [hdispatch one hone]
    exact hc.answered all hold one hone
  · obtain ⟨one, hone, hy⟩ := hc.wanted all hold n hn
    exact ⟨one, hone, (hdispatch one hone).symm ▸ hy⟩

/-- A call is bound to what it yields for each choice of types. -/
theorem Sound.answered (hr : r.Sound []) (hquiet : r.Quiet) (hs : site.index < r.sites.size)
    (ht : r.Typed site) (hchoice : r.Chooses (r.site site) owner arguments) :
    ∃ n ∈ r.graph.dependencies (r.site site).result,
      r.Yields site arguments n (r.catalog.dispatch (r.site site) owner arguments) := by
  obtain ⟨all, hall, hanswered, -⟩ := hr.resolved hquiet hs ht
  obtain ⟨n, hn, hy⟩ := hanswered _ ((mem_combinations hall).mpr hchoice)
  exact ⟨n, ((hr.played _ (.result site) ⟨hs, rfl⟩).2.2 n).mpr hn, hy⟩

/-- A call is bound to nothing that it does not yield. -/
theorem Sound.wanted (hr : r.Sound []) (hquiet : r.Quiet) (hs : site.index < r.sites.size)
    (ht : r.Typed site) (hn : n ∈ r.graph.dependencies (r.site site).result) :
    ∃ owner arguments, r.Chooses (r.site site) owner arguments ∧
      r.Yields site arguments n (r.catalog.dispatch (r.site site) owner arguments) := by
  obtain ⟨all, hall, -, hwanted⟩ := hr.resolved hquiet hs ht
  obtain ⟨⟨owner, arguments⟩, hone, hy⟩ :=
    hwanted n (((hr.played _ (.result site) ⟨hs, rfl⟩).2.2 n).mp hn)
  exact ⟨owner, arguments, (mem_combinations hall).mp hone, hy⟩

/-- A plain node has the members of all nodes that it depends on. -/
theorem Sound.covers (hr : r.Sound []) (hquiet : r.Quiet) {d : Node}
    (hplain : (r.graph.cell n).kind = .plain) (hd : d ∈ r.graph.dependencies n) (hl : r.Standing d)
    (hm : m ∈ r.store.membersAt d) : m ∈ r.store.membersAt n := by
  obtain ⟨t, ht, hl⟩ := hl
  have hsolved := hr.solved hquiet n
  unfold Store.Solved at hsolved
  rw [show (r.store.graph.cell n).kind = .plain from hplain] at hsolved
  obtain ⟨u, hu, hcover⟩ := hsolved.covers (Store.mem_inputs.mpr ⟨d, hd, ht⟩) hl
  rw [Store.membersAt_of_typed ht] at hm
  rw [Store.membersAt_of_typed hu]
  rcases hcover with rfl | ⟨-, hcover⟩
  · exact hm
  · exact hcover m hm

end Run

variable {program : Expr} {options : Options} {result : Node} {r : Run} {site : Site}

/-- A call is bound to what it yields for the types that its receiver and arguments can have, and to
nothing else. -/
structure Run.Bound (r : Run) (site : Site) : Prop where
  /-- Each choice of types has a node that the call is bound to. -/
  answered : ∀ owner arguments, r.Chooses (r.site site) owner arguments →
    ∃ n ∈ r.graph.dependencies (r.site site).result,
      r.Yields site arguments n (r.catalog.dispatch (r.site site) owner arguments)
  /-- The instance of a definition that is selected was typed once. -/
  typedOnce : ∀ owner arguments o id body, r.Chooses (r.site site) owner arguments →
    r.catalog.dispatch (r.site site) owner arguments = .method o id →
    (r.catalog.method id).body = .code body →
    ∃ n, r.results.get? ((r.site site).invocation site o id arguments) = some n ∧ r.typings n = 1
  /-- Each node that the call is bound to is there for some choice of types. -/
  wanted : ∀ n ∈ r.graph.dependencies (r.site site).result, ∃ owner arguments,
    r.Chooses (r.site site) owner arguments ∧
      r.Yields site arguments n (r.catalog.dispatch (r.site site) owner arguments)
  /-- The call has the types of all nodes that it is bound to. -/
  covered : ∀ n ∈ r.graph.dependencies (r.site site).result, r.Standing n →
    ∀ m ∈ r.store.membersAt n, m ∈ r.store.membersAt (r.site site).result

/-- A call whose receiver and arguments have types that were not superseded is bound to what it
yields for the members of these types. -/
theorem calls_bound (h : settledRun program options = some (result, r))
    (hs : site.index < r.sites.size) (ht : r.Typed site) : r.Bound site := by
  obtain ⟨hr, hquiet⟩ := settledRun_ok h
  refine ⟨fun owner arguments hchoice => hr.answered hquiet hs ht hchoice,
    fun owner arguments o id body hchoice hdispatch hbody => ?_,
    fun n hn => hr.wanted hquiet hs ht hn, fun n hn hl m hm => ?_⟩
  · obtain ⟨n, -, hy⟩ := hr.answered hquiet hs ht hchoice
    rw [hdispatch] at hy
    exact ⟨n, hy, (hr.results _ n hy).2 body hbody⟩
  · exact hr.covers hquiet (hr.played _ (.result site) ⟨hs, rfl⟩).2.1 hn hl hm

section
open Sample

/-- A method is called with a variable that holds values of two types. -/
def calledWithBoth : Expr := lines [
  method "same" [("x", none)] (var "x"),
  setVar "x" int,
  setVar "x" double,
  run "same" [var "x"]]

end

theorem calledWithBoth_typed : (settledRun calledWithBoth ⟨50, 5, 8, 4⟩).any (fun (_, r) =>
    0 < r.sites.size ∧ ∀ n ∈ (r.site ⟨0⟩).watched, r.Standing n) = true := by
  decide +kernel

/-- A call with a variable of two types is bound to an instance for each. -/
theorem calls_bound_twice : ∃ result r, settledRun calledWithBoth ⟨50, 5, 8, 4⟩ = some (result, r) ∧
    0 < r.sites.size ∧ r.Typed ⟨0⟩ ∧ r.Bound ⟨0⟩ := by
  obtain ⟨⟨result, r⟩, hsettled, htyped⟩ := Option.any_eq_true _ _ |>.mp calledWithBoth_typed
  obtain ⟨hs, ht⟩ := of_decide_eq_true htyped
  exact ⟨result, r, hsettled, hs, ht, calls_bound hsettled hs ht⟩

/-! ## A call that is not bound to what it should be -/

/-- An instance of a definition that a call selects for types that its receiver and arguments have
does not exist. -/
def Run.Overlooks (r : Run) (site : Site) : Prop :=
  ∃ all, r.combinations (r.site site) = some all ∧ ∃ one ∈ all,
    match r.catalog.dispatch (r.site site) one.1 one.2 with
    | .method owner id => r.results.get? ((r.site site).invocation site owner id one.2) = none
    | _ => False

instance (r : Run) (site : Site) : Decidable (r.Overlooks site) :=
  decidable_of_iff ((r.combinations (r.site site)).any fun all => all.any fun one =>
    match r.catalog.dispatch (r.site site) one.1 one.2 with
    | .method owner id => (r.results.get? ((r.site site).invocation site owner id one.2)).isNone
    | _ => false) (by
      unfold Run.Overlooks
      rw [Option.any_eq_true]
      refine exists_congr fun all => and_congr_right fun _ => ?_
      rw [List.any_eq_true]
      refine exists_congr fun one => and_congr_right fun _ => ?_
      cases r.catalog.dispatch (r.site site) one.1 one.2 <;> simp)

section
open Sample

/-- Two boxes get the same type when the value of one of them gets wider, and only one of them then
has a variable that holds an array. The variable of the other type is left with what it had from
the call that was bound to the first. -/
def boxesThatMeet : Expr := lines [
  genericClass "Box" [
    method "initialize" [] (setSlot "@value" (run "given" [])),
    method "initialize" [("x", none)] (setSlot "@value" (var "x")),
    method "initialize" [("x", none), ("y", none)] (lines [
      setSlot "@value" (var "x"),
      setSlot "@value" (var "y")]),
    method "value" [] (slot "@value"),
    method "fill" [] (setSlot "@held" (list [run "wide" []])),
    method "held" [] (slot "@held"),
    method "pass" [] (lines [
      setSlot "@held" (send (named "A") "held" []),
      run "use" [slot "@held"]])],
  method "given" [] (slot "@given"),
  method "wide" [] (slot "@wide"),
  method "use" [("x", none)] int,
  setSlot "@given" int,
  setConstant "A" (send (named "Box") "new" []),
  setConstant "B" (send (named "Box") "new" [int]),
  setConstant "C" (send (named "Box") "new" [int, double]),
  setSlot "@wide" (send (named "A") "value" []),
  send (named "B") "fill" [],
  send (named "C") "pass" [],
  setSlot "@given" double,
  send (named "C") "held" []]

end

theorem boxesThatMeet_overlooks : (settledRun boxesThatMeet ⟨200, 5, 8, 10⟩).any (fun (_, r) =>
    (List.range r.sites.size).any fun i => r.Overlooks ⟨i⟩) = true := by
  decide +kernel

/-- A call whose receiver and arguments have types need not have an instance of the definition that
it selects for them. -/
theorem calls_overlooked :
    ¬ ∀ program options result r, settledRun program options = some (result, r) →
      ∀ site : Site, site.index < r.sites.size → ∀ owner arguments o id,
        r.Chooses (r.site site) owner arguments →
        r.catalog.dispatch (r.site site) owner arguments = .method o id →
        ∃ n, r.results.get? ((r.site site).invocation site o id arguments) = some n := by
  intro hall
  obtain ⟨⟨result, r⟩, hsettled, hany⟩ := Option.any_eq_true _ _ |>.mp boxesThatMeet_overlooks
  obtain ⟨i, hi, hoverlooks⟩ := List.any_eq_true.mp hany
  obtain ⟨all, hcombinations, ⟨owner, arguments⟩, hone, hmissing⟩ := of_decide_eq_true hoverlooks
  cases hdispatch : r.catalog.dispatch (r.site ⟨i⟩) owner arguments with
  | method o id =>
    obtain ⟨n, hn⟩ := hall _ _ result r hsettled ⟨i⟩ (List.mem_range.mp hi) owner arguments o id
      ((Run.mem_combinations hcombinations).mp hone) hdispatch
    simp only [hdispatch] at hmissing
    cases hmissing.symm.trans hn
  | construct t => simp only [hdispatch] at hmissing
  | miss miss => simp only [hdispatch] at hmissing

end FlowTyping
