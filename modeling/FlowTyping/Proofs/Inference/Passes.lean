import FlowTyping.Inference.Check
import FlowTyping.Proofs.Steps

/-
  What the passes over a program visit

  Three passes visit the classes and modules of a program: one declares types,
  one declares methods, and one types expressions. Each of them is written again
  here so that it also returns what it has found: an `Opening` for each class or
  module, in the order of the text, and a `Definition` for each method that is
  declared. In other respects these passes are the ones that they are written
  after (`typePass_eq`, `methodPass_eq`, `nodeOf_eq`).
-/
namespace FlowTyping

open Steps

/-- A class or module of the text, with the type that it denotes in a pass. -/
structure Opening where
  mark : Mark
  type : Ty
  /-- The types that it stands in, innermost first. -/
  within : List Ty
  deriving DecidableEq, Repr

/-- A method of the text, with the method that it declares. -/
structure Definition where
  /-- The type of the class or module that it stands in. -/
  scope : Ty
  onMetaclass : Bool
  method : Method
  id : MethodHandle

namespace DeclareM

mutual

/-- The type pass, with the openings of a statement and the types whose names records take over. -/
def openTypes (within : List Ty) (scope : Ty) : Expr → DeclareM (List Opening × List Ty)
  | .sequence _ items => openTypesAll within scope items
  | .classDef mark name superclass generic body => do
    let t ← openClass scope name superclass generic mark.place
    let inner ← openTypes (t :: within) t body
    pure (⟨mark, t, within⟩ :: inner.1, inner.2)
  | .moduleDef mark name body => do
    let t ← openModule scope name
    let inner ← openTypes (t :: within) t body
    pure (⟨mark, t, within⟩ :: inner.1, inner.2)
  | .recordDef mark name fields => do
    let c ← get
    enterRecord scope name fields mark.place
    pure ([], (c.nestedType scope name).toList)
  | e => do
    typePass scope e
    pure ([], [])

def openTypesAll (within : List Ty) (scope : Ty) : List Expr → DeclareM (List Opening × List Ty)
  | [] => pure ([], [])
  | item :: rest => do
    let first ← openTypes within scope item
    let later ← openTypesAll within scope rest
    pure (first.1 ++ later.1, first.2 ++ later.2)

end

/-- Declares a method of the text. -/
def define (scope : Ty) (name : String) (onMetaclass : Bool)
    (params : List (WrittenParameter Expr)) (body : Expr) (place : Place) :
    DeclareM Definition := do
  let c ← get
  let owner ← ofExcept (methodOwner c scope onMetaclass)
  let parameters ← ofExcept (parameters c scope place params)
  let m : Method := ⟨name, owner, parameters, body.yields, .code body, place⟩
  let id ← modifyGet (·.defineMethod m)
  pure ⟨scope, onMetaclass, m, id⟩

mutual

/-- The method pass, with the openings of a statement and the methods that it declares. -/
def openMethods (within : List Ty) (scope : Ty) : Expr → DeclareM (List Opening × List Definition)
  | .sequence _ items => openMethodsAll within scope items
  | .classDef mark name _ _ body => do
    let t ← ofExcept ((← get).declared scope name)
    let inner ← openMethods (t :: within) t body
    pure (⟨mark, t, within⟩ :: inner.1, inner.2)
  | .moduleDef mark name body => do
    let t ← ofExcept ((← get).declared scope name)
    let inner ← openMethods (t :: within) t body
    pure (⟨mark, t, within⟩ :: inner.1, inner.2)
  | .methodDef mark name onMetaclass params body => do
    let d ← define scope name onMetaclass params body mark.place
    pure ([], [d])
  | e => do
    methodPass scope e
    pure ([], [])

def openMethodsAll (within : List Ty) (scope : Ty) :
    List Expr → DeclareM (List Opening × List Definition)
  | [] => pure ([], [])
  | item :: rest => do
    let first ← openMethods within scope item
    let later ← openMethodsAll within scope rest
    pure (first.1 ++ later.1, first.2 ++ later.2)

end

end DeclareM

namespace TypingM

open RunM

/-- Types the body of a class or module, with its openings. -/
def openDeclaration (mark : Mark) (within : List Ty) (ctx : Context) (name : String)
    (typeBody : Ty → Context → TypingM (Node × List Opening)) :
    TypingM (Node × List Opening) := do
  let c ← RunM.catalog
  let t ← ofExcept (c.declared ctx.home name)
  let inner ← inFreshScopes (typeBody t (declarationContext ctx c t))
  let n ← sharedNil
  pure (n, ⟨mark, t, within⟩ :: inner.2)

mutual

/-- The node of an expression, with the openings of an expression that is a statement. -/
def openNodes (typer : Typer) (within : List Ty) (ctx : Context) :
    Expr → TypingM (Node × List Opening)
  | .sequence mark items => do
    let inner ← openNodesAll typer within ctx items
    match inner.1.getLast? with
    | some n => return (← record ctx mark n, inner.2)
    | none => return (← record ctx mark (← sharedNil), inner.2)
  | .classDef mark name _ _ body => do
    let inner ← openDeclaration mark within ctx name fun t inner =>
      openNodes typer (t :: within) inner body
    return (← record ctx mark inner.1, inner.2)
  | .moduleDef mark name body => do
    let inner ← openDeclaration mark within ctx name fun t inner =>
      openNodes typer (t :: within) inner body
    return (← record ctx mark inner.1, inner.2)
  | e => return (← nodeOf typer ctx e, [])

def openNodesAll (typer : Typer) (within : List Ty) (ctx : Context) :
    List Expr → TypingM (List Node × List Opening)
  | [] => pure ([], [])
  | e :: rest => do
    let first ← openNodes typer within ctx e
    let later ← openNodesAll typer within ctx rest
    pure (first.1 :: later.1, first.2 ++ later.2)

end

/-- Types a whole program, with its openings. -/
def openProgram : Nat → Expr → TypingM (Node × List Opening)
  | 0, _ => throw .tooDeep
  | depth + 1, program => openNodes (typerWithin depth) [] ⟨.main, .main, none, true, []⟩ program

end TypingM

/-- What the passes over a program open and define. -/
structure Passes where
  /-- By the type pass. -/
  opened : List Opening
  /-- The types whose names records have taken over. -/
  displaced : List Ty
  /-- By the method pass. -/
  reopened : List Opening
  definitions : List Definition
  /-- By typing the expressions. -/
  typed : List Opening

/-- The passes over a program, if none of them fails. -/
def passes (program : Expr) (options : Options) : Option Passes :=
  match DeclareM.openTypes [] .main program .seeded with
  | .error _ _ => none
  | .ok types c =>
    match DeclareM.openMethods [] .main program c with
    | .error _ _ => none
    | .ok methods c =>
      match TypingM.openProgram options.depthLimit program ⟨.empty, .start c options⟩ with
      | .error _ _ => none
      | .ok nodes _ => some ⟨types.1, types.2, methods.1, methods.2, nodes.2⟩

/-! ## These passes are the ones of a check -/

mutual

theorem typePass_eq (within : List Ty) (scope : Ty) (e : Expr) :
    DeclareM.typePass scope e = (fun _ => ()) <$> DeclareM.openTypes within scope e := by
  cases e with
  | sequence mark items => exact typePassAll_eq within scope items
  | classDef mark name superclass generic body =>
    unfold DeclareM.typePass DeclareM.openTypes
    simp only [map_bind, map_pure]
    refine bind_congr fun t => ?_
    rw [typePass_eq (t :: within) t body, map_eq_pure_bind]
  | moduleDef mark name body =>
    unfold DeclareM.typePass DeclareM.openTypes
    simp only [map_bind, map_pure]
    refine bind_congr fun t => ?_
    rw [typePass_eq (t :: within) t body, map_eq_pure_bind]
  | recordDef mark name fields =>
    unfold DeclareM.typePass DeclareM.openTypes
    simp only [map_bind, map_pure, bind_pure_unit]
    rfl
  | _ =>
    unfold DeclareM.openTypes
    simp only [map_bind, map_pure, bind_pure_unit]

theorem typePassAll_eq (within : List Ty) (scope : Ty) (items : List Expr) :
    DeclareM.typePassAll scope items =
      (fun _ => ()) <$> DeclareM.openTypesAll within scope items := by
  cases items with
  | nil => rfl
  | cons item rest =>
    unfold DeclareM.typePassAll DeclareM.openTypesAll
    rw [typePass_eq within scope item, typePassAll_eq within scope rest]
    simp only [map_bind, map_pure, bind_map_left]
    simp only [map_eq_pure_bind]

end

mutual

theorem methodPass_eq (within : List Ty) (scope : Ty) (e : Expr) :
    DeclareM.methodPass scope e = (fun _ => ()) <$> DeclareM.openMethods within scope e := by
  cases e with
  | sequence mark items => exact methodPassAll_eq within scope items
  | classDef mark name superclass generic body =>
    unfold DeclareM.methodPass DeclareM.openMethods
    simp only [map_bind, map_pure]
    refine bind_congr fun c => bind_congr fun t => ?_
    rw [methodPass_eq (t :: within) t body, map_eq_pure_bind]
  | moduleDef mark name body =>
    unfold DeclareM.methodPass DeclareM.openMethods
    simp only [map_bind, map_pure]
    refine bind_congr fun c => bind_congr fun t => ?_
    rw [methodPass_eq (t :: within) t body, map_eq_pure_bind]
  | methodDef mark name onMetaclass params body =>
    unfold DeclareM.methodPass DeclareM.openMethods DeclareM.define DeclareM.enterMethodOf
    simp only [map_eq_pure_bind, bind_assoc, pure_bind]
    rfl
  | _ =>
    unfold DeclareM.openMethods
    simp only [map_bind, map_pure, bind_pure_unit]

theorem methodPassAll_eq (within : List Ty) (scope : Ty) (items : List Expr) :
    DeclareM.methodPassAll scope items =
      (fun _ => ()) <$> DeclareM.openMethodsAll within scope items := by
  cases items with
  | nil => rfl
  | cons item rest =>
    unfold DeclareM.methodPassAll DeclareM.openMethodsAll
    rw [methodPass_eq within scope item, methodPassAll_eq within scope rest]
    simp only [map_bind, map_pure, bind_map_left]
    simp only [map_eq_pure_bind]

end

/-- Openings are nothing to fresh scopes. -/
theorem inFreshScopes_map {α β : Type} (f : α → β) (act : TypingM α) :
    RunM.inFreshScopes (f <$> act) = f <$> RunM.inFreshScopes act := by
  funext r
  rw [functor_map_eq]
  unfold RunM.inFreshScopes
  rw [functor_map_eq]
  unfold EStateM.map
  dsimp only
  cases act ⟨.empty, r⟩ <;> rfl

theorem lift_map {α β : Type} (f : α → β) (act : RunM α) :
    Typing.lift (f <$> act) = f <$> Typing.lift act := by
  funext s
  rw [functor_map_eq]
  unfold Typing.lift
  rw [functor_map_eq]
  unfold EStateM.map
  dsimp only
  cases act s.run <;> rfl

theorem inDeclaration_eq (mark : Mark) (within : List Ty) (ctx : Context) (name : String)
    {typeBody : Context → TypingM Node} {opened : Ty → Context → TypingM (Node × List Opening)}
    (h : ∀ t inner, typeBody inner = Prod.fst <$> opened t inner) :
    TypingM.inDeclaration ctx name typeBody =
      Prod.fst <$> TypingM.openDeclaration mark within ctx name opened := by
  unfold TypingM.inDeclaration TypingM.openDeclaration
  simp only [map_bind, map_pure]
  refine bind_congr fun c => bind_congr fun t => ?_
  rw [h t, inFreshScopes_map]
  show Typing.lift (Prod.fst <$> _) >>= _ = _
  rw [lift_map, bind_map_left, bind_pure]
  rfl

mutual

theorem nodeOf_eq (typer : Typer) (within : List Ty) (ctx : Context) (e : Expr) :
    TypingM.nodeOf typer ctx e = Prod.fst <$> TypingM.openNodes typer within ctx e := by
  cases e with
  | sequence mark items =>
    unfold TypingM.nodeOf TypingM.openNodes
    rw [nodesOf_eq typer within ctx items]
    simp only [map_bind, bind_map_left]
    refine bind_congr fun inner => ?_
    cases inner.1.getLast? with
    | none => simp only [map_bind, map_pure, bind_pure]
    | some n => simp only [map_bind, map_pure, bind_pure]
  | classDef mark name superclass generic body =>
    unfold TypingM.nodeOf TypingM.openNodes
    rw [inDeclaration_eq mark within ctx name fun t inner =>
      nodeOf_eq typer (t :: within) inner body]
    simp only [map_bind, map_pure, bind_map_left, bind_pure]
  | moduleDef mark name body =>
    unfold TypingM.nodeOf TypingM.openNodes
    rw [inDeclaration_eq mark within ctx name fun t inner =>
      nodeOf_eq typer (t :: within) inner body]
    simp only [map_bind, map_pure, bind_map_left, bind_pure]
  | _ =>
    unfold TypingM.openNodes
    simp only [map_bind, map_pure, bind_pure]

theorem nodesOf_eq (typer : Typer) (within : List Ty) (ctx : Context) (es : List Expr) :
    TypingM.nodesOf typer ctx es = Prod.fst <$> TypingM.openNodesAll typer within ctx es := by
  cases es with
  | nil => rfl
  | cons e rest =>
    unfold TypingM.nodesOf TypingM.openNodesAll
    rw [nodeOf_eq typer within ctx e, nodesOf_eq typer within ctx rest]
    simp only [map_bind, map_pure, bind_map_left]

end

theorem typerWithin_eq (depth : Nat) (program : Expr) :
    TypingM.typerWithin depth ⟨.main, .main, none, true, []⟩ program =
      Prod.fst <$> TypingM.openProgram depth program := by
  cases depth with
  | zero => rfl
  | succ depth => exact nodeOf_eq _ [] _ program

/-! ## What the text opens -/

mutual

/-- The openings of a statement if `nested` tells what the names in a namespace mean. -/
def openings (nested : Ty → String → Option Ty) (within : List Ty) (scope : Ty) :
    Expr → Option (List Opening)
  | .sequence _ items => openingsAll nested within scope items
  | .classDef mark name _ _ body => do
    let t ← nested scope name
    let inner ← openings nested (t :: within) t body
    pure (⟨mark, t, within⟩ :: inner)
  | .moduleDef mark name body => do
    let t ← nested scope name
    let inner ← openings nested (t :: within) t body
    pure (⟨mark, t, within⟩ :: inner)
  | _ => some []

def openingsAll (nested : Ty → String → Option Ty) (within : List Ty) (scope : Ty) :
    List Expr → Option (List Opening)
  | [] => some []
  | item :: rest => do
    let first ← openings nested within scope item
    let later ← openingsAll nested within scope rest
    pure (first ++ later)

end

/-- A later pass opens the same class or module, and with the same type unless a record has taken
over the name of that type or of one that it stands in. -/
def Opening.Agrees (displaced : List Ty) (o later : Opening) : Prop :=
  later.mark = o.mark ∧ ((∀ t ∈ o.type :: o.within, t ∉ displaced) → later = o)

end FlowTyping
