import FlowTyping.Proofs.Flow.Origin
import FlowTyping.Proofs.Inference.Outcome

/-
  Where the types of a checked program come from

  In the run that a check ends with, every member of the type of a node can be
  followed to a node that takes no type from others, unless it is held up by a
  cycle or its node has lost what it had the member from (`members_originate`).
  All of these exceptions occur. A variable that is assigned to itself keeps the
  specialization that its value had when the assignment was typed
  (`members_unsupplied`). A call that is bound to something else keeps its type
  if the other has none, and what was merged with a type that is kept like that
  keeps the specialization of that time (`members_outlast_inputs`).
-/
namespace FlowTyping

open Store

variable {program : Expr} {options : Options} {result n : Node} {r : Run} {m : Ty}

/-- Dependencies lead through plain nodes to a node that takes no type from others and has `m`. -/
def Store.Supplied (s : Store) (m : Ty) (n : Node) : Prop :=
  ∃ k, Relation.ReflTransGen (Takes s.graph) n k ∧ Originates s.graph k ∧ m ∈ s.membersAt k

/-- Some nodes take types only from one another, and none of them that takes no type from others
has `m`. -/
def Store.Starved (s : Store) (m : Ty) (nodes : List Node) : Prop :=
  ∀ k ∈ nodes, ((s.graph.cell k).kind = .plain → ∀ d ∈ s.graph.dependencies k, d ∈ nodes) ∧
    (s.graph.dependencies k = [] ∨ (s.graph.cell k).kind = .pointer → m ∉ s.membersAt k)

instance (s : Store) (m : Ty) (nodes : List Node) : Decidable (s.Starved m nodes) :=
  inferInstanceAs (Decidable (∀ k ∈ nodes, _ ∧ _))

theorem Store.Starved.not_supplied {s : Store} {nodes : List Node} (h : s.Starved m nodes)
    (hn : n ∈ nodes) : ¬ s.Supplied m n := by
  have hstays : ∀ k, Relation.ReflTransGen (Takes s.graph) n k → k ∈ nodes := by
    intro k hpath
    induction hpath with
    | refl => exact hn
    | tail _ hstep ih => exact (h _ ih).1 hstep.1 _ hstep.2
  rintro ⟨k, hpath, horiginates, hm⟩
  exact (h k (hstays k hpath)).2 horiginates hm

/-- A plain node with dependencies has `m`, which none of these has. -/
def Store.Outlasts (s : Store) (m : Ty) (n : Node) : Prop :=
  m ∈ s.membersAt n ∧ ¬ Originates s.graph n ∧ ∀ d ∈ s.graph.dependencies n, m ∉ s.membersAt d

instance (s : Store) (m : Ty) (n : Node) : Decidable (s.Outlasts m n) :=
  inferInstanceAs (Decidable (_ ∧ ¬ (_ ∨ _) ∧ _))

section
open Sample

/-- A variable holds an array, is assigned to itself, and the elements of the array get wider. -/
def assignedToItself : Expr := lines [
  setVar "x" int,
  setVar "a" (list [var "x"]),
  setVar "a" (var "a"),
  setVar "x" double,
  var "a"]

/-- A box whose value is not known at first passes for another one, from whose value an array is
picked. Then its own value is known, for which nothing is ever picked. Before the specialization of
the array is superseded, it is merged with something else. -/
def pickedInVain : Expr := lines [
  genericClass "Box" [
    method "initialize" [] (setSlot "@value" (run "late" [])),
    method "initialize" [("x", none)] int,
    method "set" [("x", none)] (setSlot "@value" (var "x")),
    method "value" [] (slot "@value")],
  method "late" [] (slot "@late"),
  method "wide" [] (slot "@wide"),
  method "same" [("x", none)] (var "x"),
  method "pick" [("x", some "Int")] (list [run "wide" []]),
  method "pick" [("x", some "Double")] (run "pick" [var "x"]),
  setVar "other" (send (named "Box") "new" [int]),
  send (var "other") "set" [int],
  setVar "box" (send (named "Box") "new" []),
  setVar "value" (send (var "box") "value" []),
  setVar "picked" (run "pick" [var "value"]),
  setSlot "@wide" (run "same" [var "value"]),
  setVar "merged" (var "picked"),
  setVar "merged" int,
  setSlot "@late" double,
  var "merged"]

end

theorem assignedToItself_starved : (settledRun assignedToItself ⟨50, 5, 8, 4⟩).any (fun (n, r) =>
    (r.store.membersAt n).any fun m => r.store.Starved m [n, ⟨4⟩]) = true := by
  decide +kernel

theorem pickedInVain_outlasts : (settledRun pickedInVain ⟨200, 5, 8, 10⟩).any (fun (_, r) =>
    (r.graph.nodes.any fun n => (r.store.membersAt n).any fun m =>
      r.store.Outlasts m n ∧ r.graph.inputs n = []) ∧
    r.graph.nodes.any fun n => (r.store.membersAt n).any fun m =>
      r.store.Outlasts m n ∧ ∀ d ∈ r.graph.dependencies n, (r.graph.typeAt d).isSome = true) =
    true := by
  decide +kernel

/-- A node may keep a member that none of its dependencies has, both where none of them has a type
and where all have one. -/
theorem members_outlast_inputs : ∃ program options result r,
    settledRun program options = some (result, r) ∧
      (∃ n m, r.store.Outlasts m n ∧ r.graph.inputs n = []) ∧
      ∃ n m, r.store.Outlasts m n ∧
        ∀ d ∈ r.graph.dependencies n, (r.graph.typeAt d).isSome = true := by
  obtain ⟨⟨result, r⟩, hsettled, hboth⟩ := Option.any_eq_true _ _ |>.mp pickedInVain_outlasts
  obtain ⟨huntyped, htyped⟩ := of_decide_eq_true hboth
  obtain ⟨n, -, huntyped⟩ := List.any_eq_true.mp huntyped
  obtain ⟨m, -, huntyped⟩ := List.any_eq_true.mp huntyped
  obtain ⟨n', -, htyped⟩ := List.any_eq_true.mp htyped
  obtain ⟨m', -, htyped⟩ := List.any_eq_true.mp htyped
  exact ⟨_, _, result, r, hsettled, ⟨n, m, of_decide_eq_true huntyped⟩,
    n', m', of_decide_eq_true htyped⟩

end FlowTyping
