import FlowTyping.Proofs.Flow.Notifying
import FlowTyping.Proofs.Inference.Searching

/-
  What a call is dispatched for

  A call that has combinations is dispatched for all of them, one after the
  other, and then bound to the nodes that this gives (`rebindCall_ok_iff`). The
  first dispatch that fails is the last one (`rebindCall_error_iff`).

  A type that is entered has members, and each of them once. So the combinations
  are all pairs of a type that the receiver can have and a choice of types for
  the arguments, none comes twice, and there is one for each type that the
  receiver can have (`combinations_dispatched`).
-/
namespace FlowTyping

open Catalog Steps

namespace Run

/-! ## One dispatch after the other -/

section

variable (typer : Typer) (active : List Frame) (site : Site)

/-- A call is dispatched for each of the pairs, which gives these nodes. Each dispatch begins in the
run that the one before it has left. -/
inductive Dispatched : Run → List (Ty × List Ty) → List Node → Run → Prop
  | none (r : Run) : Dispatched r [] [] r
  | next {r r₁ r₂ : Run} {owner : Ty} {arguments : List Ty} {n : Node}
      {made : List (Ty × List Ty)} {nodes : List Node}
      (first : RunM.dispatch typer active site owner arguments r = .ok n r₁)
      (others : Dispatched r₁ made nodes r₂) :
      Dispatched r ((owner, arguments) :: made) (n :: nodes) r₂

end

variable {typer : Typer} {active : List Frame} {site : Site} {r r' : Run} {call : CallSite}
  {all : List (Ty × List Ty)} {targets : List Node} {halt : Halt} {options : Options}

theorem dispatchAll_ok {found : List Node} :
    RunM.dispatchAll typer active site all targets r = .ok found r' ↔
      ∃ nodes, Dispatched typer active site r all nodes r' ∧
        nodes.foldl (fun found n => Graph.addOnce n found) targets = found := by
  induction all generalizing r targets with
  | nil =>
    unfold RunM.dispatchAll
    rw [pure_ok]
    constructor
    · rintro ⟨rfl, rfl⟩
      exact ⟨[], .none r, rfl⟩
    · rintro ⟨nodes, h, rfl⟩
      cases h
      exact ⟨rfl, rfl⟩
  | cons one rest ih =>
    unfold RunM.dispatchAll
    rw [bind_ok]
    constructor
    · rintro ⟨n, r₁, hfirst, hrest⟩
      obtain ⟨nodes, hnodes, hfound⟩ := ih.mp hrest
      exact ⟨n :: nodes, .next hfirst hnodes, hfound⟩
    · rintro ⟨nodes, h, hfound⟩
      cases h with
      | next first others => exact ⟨_, _, first, ih.mpr ⟨_, others, hfound⟩⟩

theorem dispatchAll_error :
    RunM.dispatchAll typer active site all targets r = .error halt r' ↔
      ∃ made owner arguments rest nodes r₁, made ++ (owner, arguments) :: rest = all ∧
        Dispatched typer active site r made nodes r₁ ∧
        RunM.dispatch typer active site owner arguments r₁ = .error halt r' := by
  induction all generalizing r targets with
  | nil =>
    constructor
    · intro h
      cases h
    · rintro ⟨made, owner, arguments, rest, nodes, r₁, hnil, -⟩
      simp at hnil
  | cons one rest ih =>
    unfold RunM.dispatchAll
    rw [bind_error]
    constructor
    · rintro (hfirst | ⟨n, r₁, hfirst, hrest⟩)
      · exact ⟨[], one.1, one.2, rest, [], r, rfl, .none r, hfirst⟩
      · obtain ⟨made, owner, arguments, later, nodes, r₂, rfl, hmade, hlast⟩ := ih.mp hrest
        exact ⟨one :: made, owner, arguments, later, n :: nodes, r₂, rfl, .next hfirst hmade, hlast⟩
    · rintro ⟨made, owner, arguments, later, nodes, r₁, hall, hmade, hlast⟩
      cases hmade with
      | none =>
        cases hall
        exact .inl hlast
      | next first others =>
        cases hall
        exact .inr ⟨_, _, first, ih.mpr ⟨_, _, _, _, _, _, rfl, others, hlast⟩⟩

/-- A call that has combinations is dispatched for all of them before it is bound. -/
theorem rebindCall_ok_iff (h : r.combinations (r.site site) = some all) :
    RunM.rebindCall typer active site r = .ok () r' ↔
      ∃ nodes r₁, Dispatched typer active site r all nodes r₁ ∧
        RunM.retarget r₁ site nodes.eraseDups = r' := by
  unfold RunM.rebindCall
  rw [get_bind_eq, h]
  dsimp only
  rw [bind_ok]
  constructor
  · rintro ⟨found, r₁, hall, hbound⟩
    obtain ⟨nodes, hnodes, rfl⟩ := dispatchAll_ok.mp hall
    rw [Graph.foldl_addOnce, modify_ok] at hbound
    exact ⟨nodes, r₁, hnodes, hbound⟩
  · rintro ⟨nodes, r₁, hnodes, hbound⟩
    refine ⟨_, r₁, dispatchAll_ok.mpr ⟨nodes, hnodes, rfl⟩, ?_⟩
    rw [Graph.foldl_addOnce, modify_ok]
    exact hbound

/-- It is refused where one of them is, and is dispatched for none of those that follow. -/
theorem rebindCall_error_iff (h : r.combinations (r.site site) = some all) :
    RunM.rebindCall typer active site r = .error halt r' ↔
      ∃ made owner arguments rest nodes r₁, made ++ (owner, arguments) :: rest = all ∧
        Dispatched typer active site r made nodes r₁ ∧
        RunM.dispatch typer active site owner arguments r₁ = .error halt r' := by
  unfold RunM.rebindCall
  rw [get_bind_eq, h]
  dsimp only
  rw [bind_error]
  constructor
  · rintro (hall | ⟨found, r₁, -, hbound⟩)
    · exact dispatchAll_error.mp hall
    · cases hbound
  · intro hall
    exact .inl (dispatchAll_error.mpr hall)

/-- As long as there are no combinations a run is left as it is. -/
theorem rebindCall_of_none (h : r.combinations (r.site site) = none) :
    RunM.rebindCall typer active site r = .ok () r := by
  unfold RunM.rebindCall
  rw [get_bind_eq, h]
  rfl

/-- A call is resolved by dispatching it for each type that its receiver can have with each choice of
types that its arguments can have. -/
structure DispatchesEach (r : Run) (typer : Typer) (active : List Frame) (site : Site)
    (all : List (Ty × List Ty)) : Prop where
  exact : all = r.owners (r.site site) ×ˢ choices (r.argumentTypes (r.site site))
  /-- The call is never dispatched twice for the same types. -/
  once : all.Nodup
  owners : r.owners (r.site site) ≠ []
  /-- Each type that the receiver can have is called with some types. -/
  reached : ∀ owner ∈ r.owners (r.site site), ∃ arguments, (owner, arguments) ∈ all
  /-- The call is resolved if all dispatches succeed, and is then bound to what they give. -/
  resolved : ∀ r', RunM.rebindCall typer active site r = .ok () r' ↔
    ∃ nodes r₁, Dispatched typer active site r all nodes r₁ ∧
      RunM.retarget r₁ site nodes.eraseDups = r'
  /-- The first dispatch that fails is the last one that is made. -/
  refused : ∀ halt r', RunM.rebindCall typer active site r = .error halt r' ↔
    ∃ made owner arguments rest nodes r₁, made ++ (owner, arguments) :: rest = all ∧
      Dispatched typer active site r made nodes r₁ ∧
      RunM.dispatch typer active site owner arguments r₁ = .error halt r'

/-- The members of a node's type are there, each once. -/
theorem Moves.membersAt (h : (start .seeded options).Moves r) {n : Node}
    (hn : (r.graph.typeAt n).isSome = true) :
    r.store.membersAt n ≠ [] ∧ (r.store.membersAt n).Nodup := by
  obtain ⟨t, ht⟩ := Option.isSome_iff_exists.mp hn
  have hentered : t.index < r.catalog.size := h.contained.graph.lt_of_typeAt ht
  have hcanonical : r.catalog.Canonical := h.moved.canonical
  rw [Store.membersAt_of_typed ht]
  exact ⟨hcanonical.members_ne_nil hentered, hcanonical.nodup_members hentered⟩

/-- A call whose receiver and arguments have types has types to be dispatched for. -/
theorem Resolvable.owners (h : r.Resolvable call) (hmoves : (start .seeded options).Moves r) :
    r.owners call ≠ [] ∧ (r.owners call).Nodup := by
  unfold Run.owners
  cases hreceiver : call.receiver with
  | none => exact ⟨List.cons_ne_nil _ _, List.nodup_singleton _⟩
  | some n => exact hmoves.membersAt (h n (mem_watched_of_receiver hreceiver))

theorem Resolvable.argumentTypes (h : r.Resolvable call)
    (hmoves : (start .seeded options).Moves r) :
    ∀ types ∈ r.argumentTypes call, types ≠ [] ∧ types.Nodup := by
  intro types htypes
  obtain ⟨n, hn, rfl⟩ := List.mem_map.mp htypes
  exact hmoves.membersAt (h n (mem_watched_of_argument hn))

theorem Resolvable.dispatchesEach (h : r.Resolvable (r.site site))
    (hmoves : (start .seeded options).Moves r) :
    ∃ all, r.combinations (r.site site) = some all ∧ r.DispatchesEach typer active site all := by
  obtain ⟨howners, hdistinct⟩ := h.owners hmoves
  have htypes := h.argumentTypes hmoves
  have hall := h.combinations
  refine ⟨_, hall, rfl, ?_, howners, ?_, fun r' => rebindCall_ok_iff hall,
    fun halt r' => rebindCall_error_iff hall⟩
  · apply hdistinct.product
    apply nodup_choices
    exact fun types ht => (htypes types ht).2
  · intro owner howner
    have hsome : choices (r.argumentTypes (r.site site)) ≠ [] := by
      intro hnone
      exact (htypes [] (choices_eq_nil_iff.mp hnone)).1 rfl
    obtain ⟨arguments, harguments⟩ := List.exists_mem_of_ne_nil _ hsome
    exact ⟨arguments, List.mem_product.mpr ⟨howner, harguments⟩⟩

end Run

/-- The choices from some lists pick one item from each, in lexicographic order of the positions
that are picked, and so there are as many as the product of the lengths and none comes twice if none
does in the lists. Every type that is entered has members, and each once. So at each point of a run
a call is resolved by dispatching it for each type that the receiver can have and each choice of
types that the arguments can have, for no two of them twice and for each type of the receiver at
least once. As long as one of them has no type, nothing is done. -/
theorem combinations_dispatched :
    (∀ {α : Type} (lists : List (List α)),
      (∀ found, Enumerates lists found ↔ found = choices lists) ∧
      choices lists = lists.foldl extendEach [[]] ∧
      (choices lists).length = (lists.map List.length).prod ∧
      (lists = [] → (choices lists).length = 1) ∧
      ((choices lists).length = 0 ↔ [] ∈ lists) ∧
      ((∀ options ∈ lists, options.Nodup) → (choices lists).Nodup)) ∧
    (∀ s : Store, s.Moved → ∀ t, t.index < s.catalog.size →
      s.catalog.members t ≠ [] ∧ (s.catalog.members t).Nodup) ∧
    ∀ options r, (Run.start .seeded options).Moves r →
      ∀ typer active site,
        (r.Resolvable (r.site site) → ∃ all, r.combinations (r.site site) = some all ∧
          r.DispatchesEach typer active site all) ∧
        (¬ r.Resolvable (r.site site) → r.combinations (r.site site) = none ∧
          RunM.rebindCall typer active site r = .ok () r) := by
  refine ⟨fun lists => ⟨fun found => ⟨fun h => h.unique (enumerates_choices lists), ?_⟩,
    choices_eq_foldl lists, length_choices lists, ?_, ?_, nodup_choices⟩, ?_, ?_⟩
  · rintro rfl
    exact enumerates_choices lists
  · rintro rfl
    rfl
  · rw [List.length_eq_zero_iff, choices_eq_nil_iff]
  · intro s hs t ht
    exact ⟨hs.canonical.members_ne_nil ht, hs.canonical.nodup_members ht⟩
  · intro options r hmoves typer active site
    refine ⟨fun h => h.dispatchesEach hmoves, fun h => ?_⟩
    have hnone := Run.combinations_eq_none h
    exact ⟨hnone, Run.rebindCall_of_none hnone⟩

section
open Sample

/-- A method of either of two classes is called with a value of either of two types, and then with
one that never comes to be. -/
def putInEach : Expr := lines [
  method "again" [("x", none)] (run "again" [var "x"]),
  plainClass "Tin" [method "put" [("x", none)] (var "x")],
  plainClass "Jar" [method "put" [("x", none)] (var "x")],
  setVar "holder" (send (named "Tin") "new" []),
  setVar "holder" (send (named "Jar") "new" []),
  setVar "x" int,
  setVar "x" double,
  send (var "holder") "put" [var "x"],
  send (var "holder") "put" [run "again" [int]]]

end

theorem putInEach_resolvable : (some (ending putInEach ⟨80, 5, 8, 5⟩)).any (fun r =>
    (List.range r.catalog.size).any (fun i => (r.catalog.members ⟨i⟩).length == 2) &&
    decide (r.Resolvable (r.site ⟨2⟩)) &&
    (r.combinations (r.site ⟨2⟩)).map List.length == some 4 &&
    !decide (r.Resolvable (r.site ⟨5⟩))) = true := by
  decide +kernel

/-- In that check there are four pairs of types for the first of these calls, and nothing to be done
for the other. -/
theorem combinations_dispatched_fourfold :
    (choices [[1, 2], [3]]).Nodup ∧
    ∃ r : Run, (Run.start .seeded ⟨80, 5, 8, 5⟩).Moves r ∧
      (∃ t, t.index < r.catalog.size ∧ (r.catalog.members t).length = 2 ∧
        (r.catalog.members t).Nodup) ∧
      r.Resolvable (r.site ⟨2⟩) ∧
      (∃ all, all.length = 4 ∧ r.combinations (r.site ⟨2⟩) = some all ∧
        r.DispatchesEach (TypingM.typerWithin 5) [] ⟨2⟩ all) ∧
      ¬ r.Resolvable (r.site ⟨5⟩) ∧
      RunM.rebindCall (TypingM.typerWithin 5) [] ⟨5⟩ r = .ok () r := by
  obtain ⟨hchoices, hmembers, hcalls⟩ := combinations_dispatched
  obtain ⟨-, -, -, -, -, hnodup⟩ := hchoices [[1, 2], [3]]
  obtain ⟨r, hr, hcomputed⟩ := Option.any_eq_true _ _ |>.mp putInEach_resolvable
  have hmoves : (Run.start .seeded ⟨80, 5, 8, 5⟩).Moves r :=
    Option.some.inj hr ▸ moves_ending putInEach ⟨80, 5, 8, 5⟩
  simp only [Bool.and_eq_true, beq_iff_eq, decide_eq_true_eq, Bool.not_eq_true',
    decide_eq_false_iff_not, List.any_eq_true, List.mem_range] at hcomputed
  obtain ⟨⟨⟨⟨i, hi, htwo⟩, hready⟩, hfour⟩, hstuck⟩ := hcomputed
  obtain ⟨all, hall, heach⟩ := (hcalls _ r hmoves (TypingM.typerWithin 5) [] ⟨2⟩).1 hready
  obtain ⟨-, hnothing⟩ := (hcalls _ r hmoves (TypingM.typerWithin 5) [] ⟨5⟩).2 hstuck
  rw [hall, Option.map_some, Option.some.injEq] at hfour
  have hdistinct := (hmembers r.store hmoves.moved ⟨i⟩ hi).2
  exact ⟨hnodup (by decide), r, hmoves, ⟨⟨i⟩, hi, htwo, hdistinct⟩, hready,
    ⟨all, hfour, hall, heach⟩, hstuck, hnothing⟩

end FlowTyping
