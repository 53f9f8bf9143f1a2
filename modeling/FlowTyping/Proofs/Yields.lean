import FlowTyping.Program

/-
  Where an expression yields

  A yield takes the block of the method in whose body it stands. One that stands
  in top-level code, in the body of a class or module, in the value of a constant
  or in the default of a parameter has no such body around it (`Surroundings`).

  `Expr.yieldsAt` lists the yields of an expression with what they stand in, and
  what `Expr.yields` says is read off this list: an expression that does not
  yield has no yield of its own, only those of what is nested in it
  (`Expr.yields_of_owns`). So it does not matter to its yields what it stands in
  (`Exposes.of_not_owns`).
-/
namespace FlowTyping

/-- What an expression stands in. -/
inductive Surroundings where
  /-- The body of a method. -/
  | method
  /-- Top-level code. -/
  | program
  /-- The body of a class or module. -/
  | declaration
  /-- The value of a constant. -/
  | constant
  /-- The default of a parameter. -/
  | fallback
  deriving DecidableEq, Repr

/-- A yield and what it stands in, if that is not what is being looked at. -/
abbrev YieldAt := Option Surroundings × Mark

/-- The yields of an expression that is nested in another one, as that one has them. -/
def YieldAt.nested (s : Surroundings) (found : List YieldAt) : List YieldAt :=
  found.map fun y => (some (y.1.getD s), y.2)

namespace Expr

open YieldAt

mutual

/-- All yields in an expression. -/
def yieldsAt : Expr → List YieldAt
  | yielding mark arguments => (none, mark) :: yieldsAtAll arguments
  | assign _ (.constant _) value => nested .constant value.yieldsAt
  | assign _ (.localVar _) value => value.yieldsAt
  | assign _ (.slot _) value => value.yieldsAt
  | assignMany _ targets values => yieldsAtEach targets values
  | sequence _ items => yieldsAtAll items
  | branch _ condition accepted refused =>
    condition.yieldsAt ++ (accepted.yieldsAt ++ yieldsAtOption refused)
  | loop _ condition body => condition.yieldsAt ++ body.yieldsAt
  | call _ receiver _ arguments block =>
    yieldsAtOption receiver ++ (yieldsAtAll arguments ++ yieldsAtBlock block)
  | returning _ value => yieldsAtOption value
  | array _ elements _ => yieldsAtAll elements
  | addressOf _ value => value.yieldsAt
  | methodDef _ _ _ params body => yieldsAtDefaults params ++ nested .method body.yieldsAt
  | classDef _ _ _ _ body => nested .declaration body.yieldsAt
  | moduleDef _ _ body => nested .declaration body.yieldsAt
  | _ => []

def yieldsAtAll : List Expr → List YieldAt
  | [] => []
  | e :: rest => e.yieldsAt ++ yieldsAtAll rest

def yieldsAtOption : Option Expr → List YieldAt
  | none => []
  | some e => e.yieldsAt

def yieldsAtBlock : Option (List String × Expr) → List YieldAt
  | none => []
  | some (_, body) => body.yieldsAt

/-- The yields in the values of an assignment of several values to several targets. -/
def yieldsAtEach : List Target → List Expr → List YieldAt
  | _, [] => []
  | [], e :: rest => e.yieldsAt ++ yieldsAtEach [] rest
  | .constant _ :: targets, e :: rest => nested .constant e.yieldsAt ++ yieldsAtEach targets rest
  | .localVar _ :: targets, e :: rest => e.yieldsAt ++ yieldsAtEach targets rest
  | .slot _ :: targets, e :: rest => e.yieldsAt ++ yieldsAtEach targets rest

def yieldsAtDefaults : List (WrittenParameter Expr) → List YieldAt
  | [] => []
  | ⟨_, _, fallback⟩ :: params => nested .fallback (yieldsAtOption fallback) ++ yieldsAtDefaults params

end

/-- The yields of a program and what they stand in. -/
def yieldsIn (program : Expr) : List (Surroundings × Mark) :=
  program.yieldsAt.map fun y => (y.1.getD .program, y.2)

/-- A yield of a program that does not stand in the body of a method. -/
def Unenclosed (program : Expr) (mark : Mark) : Prop :=
  ∃ s, s ≠ Surroundings.method ∧ (s, mark) ∈ program.yieldsIn

end Expr

/-! ## Yields without a method body around them -/

/-- Some of the yields stand in nothing else that is nested. -/
def Owns (found : List YieldAt) : Prop := ∃ y ∈ found, y.1 = none

/-- Of the yields of what stands in `here`, those that do not stand in the body of a method are
among `P`. -/
def Exposes (P : Mark → Prop) (here : Surroundings) (found : List YieldAt) : Prop :=
  ∀ y ∈ found, y.1.getD here ≠ .method → P y.2

variable {P : Mark → Prop} {here other s : Surroundings} {found rest : List YieldAt}

theorem exposes_nil : Exposes P here [] := fun _ h => absurd h List.not_mem_nil

theorem exposes_append :
    Exposes P here (found ++ rest) ↔ Exposes P here found ∧ Exposes P here rest :=
  List.forall_mem_append

theorem exposes_nested : Exposes P here (YieldAt.nested s found) ↔ Exposes P s found := by
  unfold Exposes YieldAt.nested
  rw [List.forall_mem_map]
  rfl

namespace Exposes

/-- What is true of surroundings without a block is true of all. -/
theorem relabel (h : Exposes P here found) (hother : here = .method → other = .method) :
    Exposes P other found := by
  intro y hy hne
  refine h y hy fun heq => hne ?_
  cases hown : y.1 with
  | none =>
    rw [hown] at heq
    exact hother heq
  | some s =>
    rw [hown] at heq
    exact heq

/-- It matters only to yields of its own what an expression stands in. -/
theorem of_not_owns (h : Exposes P here found) (hown : ¬ Owns found) : Exposes P other found := by
  intro y hy hne
  refine h y hy fun heq => hne ?_
  cases hy' : y.1 with
  | none => exact absurd ⟨y, hy, hy'⟩ hown
  | some s =>
    rw [hy'] at heq
    exact heq

/-- The first yield of what stands outside any method body is one of `P`. -/
theorem head {mark : Mark} (h : Exposes P here ((none, mark) :: rest)) (hhere : here ≠ .method) :
    P mark := h _ List.mem_cons_self hhere

theorem tail {y : YieldAt} (h : Exposes P here (y :: rest)) : Exposes P here rest :=
  fun y hy => h y (List.mem_cons_of_mem _ hy)

end Exposes

theorem Expr.exposes_program (program : Expr) :
    Exposes program.Unenclosed .program program.yieldsAt :=
  fun y hy hne => ⟨y.1.getD .program, hne, List.mem_map_of_mem hy⟩

/-! ## Expressions that do not yield -/

theorem owns_append : Owns (found ++ rest) ↔ Owns found ∨ Owns rest := by
  unfold Owns
  simp only [List.mem_append, or_and_right, exists_or]

theorem not_owns_nil : ¬ Owns [] := fun ⟨_, h, _⟩ => absurd h List.not_mem_nil

theorem not_owns_nested : ¬ Owns (YieldAt.nested s found) := by
  rintro ⟨y, hy, hnone⟩
  obtain ⟨z, -, rfl⟩ := List.mem_map.mp hy
  cases hnone

namespace Expr

theorem not_ownsDefaults (params : List (WrittenParameter Expr)) :
    ¬ Owns (yieldsAtDefaults params) := by
  induction params with
  | nil => exact not_owns_nil
  | cons p params ih =>
    intro h
    rcases owns_append.mp h with h | h
    · exact not_owns_nested h
    · exact ih h

mutual

/-- An expression with a yield of its own yields. -/
theorem yields_of_owns (e : Expr) (h : Owns e.yieldsAt) : e.yields = true := by
  cases e with
  | yielding mark arguments => rfl
  | assign mark target value =>
    cases target with
    | constant name => exact absurd h not_owns_nested
    | localVar name => exact yields_of_owns value h
    | slot name => exact yields_of_owns value h
  | assignMany mark targets values => exact anyYields_of_ownsEach targets values h
  | sequence mark items => exact anyYields_of_owns items h
  | branch mark condition accepted refused =>
    rw [yields, Bool.or_eq_true, Bool.or_eq_true]
    rcases owns_append.mp h with h | h
    · exact .inl (.inl (yields_of_owns condition h))
    · rcases owns_append.mp h with h | h
      · exact .inl (.inr (yields_of_owns accepted h))
      · exact .inr (optionYields_of_owns refused h)
  | loop mark condition body =>
    rw [yields, Bool.or_eq_true]
    exact (owns_append.mp h).imp (yields_of_owns condition) (yields_of_owns body)
  | call mark receiver name arguments block =>
    rw [yields, Bool.or_eq_true, Bool.or_eq_true]
    rcases owns_append.mp h with h | h
    · exact .inl (.inl (optionYields_of_owns receiver h))
    · rcases owns_append.mp h with h | h
      · exact .inl (.inr (anyYields_of_owns arguments h))
      · exact .inr (blockYields_of_owns block h)
  | returning mark value => exact optionYields_of_owns value h
  | array mark elements of => exact anyYields_of_owns elements h
  | addressOf mark value => exact yields_of_owns value h
  | methodDef mark name onMetaclass params body =>
    rcases owns_append.mp h with h | h
    · exact absurd h (not_ownsDefaults params)
    · exact absurd h not_owns_nested
  | classDef mark name superclass generic body => exact absurd h not_owns_nested
  | moduleDef mark name body => exact absurd h not_owns_nested
  | literal | localVar | slot | self | path | recordDef | inclusion => exact absurd h not_owns_nil

theorem anyYields_of_owns (es : List Expr) (h : Owns (yieldsAtAll es)) : anyYields es = true := by
  cases es with
  | nil => exact absurd h not_owns_nil
  | cons e rest =>
    rw [anyYields, Bool.or_eq_true]
    exact (owns_append.mp h).imp (yields_of_owns e) (anyYields_of_owns rest)

theorem optionYields_of_owns (o : Option Expr) (h : Owns (yieldsAtOption o)) :
    optionYields o = true := by
  cases o with
  | none => exact absurd h not_owns_nil
  | some e => exact yields_of_owns e h

theorem blockYields_of_owns (block : Option (List String × Expr)) (h : Owns (yieldsAtBlock block)) :
    blockYields block = true := by
  cases block with
  | none => exact absurd h not_owns_nil
  | some block => exact yields_of_owns block.2 h

theorem anyYields_of_ownsEach (targets : List Target) (es : List Expr)
    (h : Owns (yieldsAtEach targets es)) : anyYields es = true := by
  cases es with
  | nil => exact absurd h (by unfold yieldsAtEach; exact not_owns_nil)
  | cons e rest =>
    rw [anyYields, Bool.or_eq_true]
    cases targets with
    | nil => exact (owns_append.mp h).imp (yields_of_owns e) (anyYields_of_ownsEach [] rest)
    | cons target targets =>
      cases target with
      | constant name =>
        rcases owns_append.mp h with h | h
        · exact absurd h not_owns_nested
        · exact .inr (anyYields_of_ownsEach targets rest h)
      | localVar name =>
        exact (owns_append.mp h).imp (yields_of_owns e) (anyYields_of_ownsEach targets rest)
      | slot name =>
        exact (owns_append.mp h).imp (yields_of_owns e) (anyYields_of_ownsEach targets rest)

end

end Expr

end FlowTyping
