import FlowTyping.Flow.Store

/-
  Provisional specializations

  A node that holds a generic value gets a provisional type, which watches the
  nodes that bind the slots of the value. When one of them changes so that
  another specialization results, the holder gets a successor, and the former
  provisional type from then on stands for what its successor stands for.
-/
namespace FlowTyping.Store

/-- The bindings whose nodes have a type, with that type. -/
def bindings (g : Graph) (observed : List (String × Node)) : List (String × Ty) :=
  observed.filterMap fun binding => (g.typeAt binding.2).map fun t => (binding.1, t)

/-- Whether all bindings have a type. -/
def isComplete (g : Graph) (observed : List (String × Node)) : Bool :=
  observed.all fun binding => (g.typeAt binding.2).isSome

/-- Standing for `target` with the bindings known so far. -/
def standing (g : Graph) (observed : List (String × Node)) (target : Ty) : Standing :=
  if isComplete g observed then .settled target else .pending target

/-- The specialization of `template` for the bindings known so far. -/
def specializationFor (template : Ty) (observed : List (String × Node)) : StoreM Ty := fun s =>
  match s.catalog.instantiate template (bindings s.graph observed) with
  | .ok (target, c) => .ok target ⟨c, s.graph⟩
  | .error e => .error e s

/-- Lets a provisional type watch the nodes that bind it. -/
def watchAll (g : Graph) (observed : List (String × Node)) (t : Ty) : Graph :=
  observed.foldl (fun g binding => g.watch binding.2 (.provisional t)) g

/-- Hands the nodes that bind it over from a provisional type to its successor. -/
def handOver (g : Graph) (observed : List (String × Node)) (former successor : Ty) : Graph :=
  observed.foldl (fun g binding =>
    (g.unwatch binding.2 (.provisional former)).watch binding.2 (.provisional successor)) g

/-- Gives `holder` a provisional type for the specialization of `template` that the observed nodes
bind. -/
def install (template : Ty) (observed : List (String × Node)) (holder : Node) : StoreM Ty := do
  let target ← specializationFor template observed
  modifyGet fun s =>
    let shape := Shape.provisional
      ⟨template, observed, holder, standing s.graph observed target, 0⟩
    let (t, c) := s.catalog.push shape
    (t, ⟨c, (watchAll s.graph observed t).retype holder t⟩)

/-- Puts a successor that stands for `target` in the place of the provisional type `t`. -/
def supersede (s : Store) (t : Ty) (p : Provisional) (target : Ty) : Store :=
  let successorShape := Shape.provisional
    { p with standing := standing s.graph p.observed target, generation := p.generation + 1 }
  let (successor, c) := s.catalog.push successorShape
  let c := c.setShape t (.provisional { p with standing := .superseded successor })
  ⟨c, handOver (s.graph.retype p.holder successor) p.observed t successor⟩

/-- Keeps the provisional type `t`, with the standing that its bindings give it now. -/
def restand (s : Store) (t : Ty) (p : Provisional) (target : Ty) : Store :=
  let kept := Shape.provisional { p with standing := standing s.graph p.observed target }
  ⟨s.catalog.setShape t kept, s.graph⟩

/-- Lets a provisional type react to a change of a node it watches. A superseded one ignores it; one
that still stands for the right specialization stays. At most `limit` types may succeed one another
on one holder. -/
def refresh (t : Ty) (limit : Nat) : StoreM Unit := do
  match (← get).catalog.shape t with
  | .provisional p =>
    match p.standing.target? with
    | none => pure ()
    | some former =>
      let target ← specializationFor p.template p.observed
      if target = former then modify fun s => s.restand t p target
      else if p.generation + 1 > limit then
        throw (.fault (.generationLimit ((← get).catalog.display p.template) limit))
      else modify fun s => s.supersede t p target
  | _ => throw (.fault .notProvisional)

end FlowTyping.Store
