import FlowTyping.Source.Report

/-
  What can be wrong with a program

  A `Problem` is one cause, with the types and definitions it speaks of already
  rendered; its wording is `Problem.message` and nowhere else. A `TypingError` is
  a problem with the place it was met at and, below it, the error that led to
  it. `Fault` collects the causes that speak of the checker and not of the
  program; `TypingError.isFault` holds of an error that goes back to one.
-/
namespace FlowTyping

/-- What a failed search for a name was looking for. -/
inductive Sought where
  | localVariable
  | constant
  | moduleName
  | block
  deriving DecidableEq, Repr

def Sought.text : Sought → String
  | localVariable => "local variable"
  | constant => "constant"
  | moduleName => "module"
  | block => "block"

/-- A limit that was reached, or an assumption of the checker that did not hold. -/
inductive Fault where
  | stepLimit (limit : Nat)
  | generationLimit (template : String) (limit : Nat)
  | undeclared (name : String)
  | noMetaclass (type : String)
  | notConstant (type : String)
  | notGeneric (type : String)
  | notProvisional
  | cannotInclude (type : String)
  | missingArgument (parameter : String)
  | missingValue
  | stillDirty (count : Nat)
  | stated (reason : String)
  deriving DecidableEq, Repr

def Fault.reason : Fault → String
  | stepLimit limit =>
    "type propagation did not reach a fixpoint within " ++ toString limit ++ " steps"
  | generationLimit template limit =>
    "generic proxy for `" ++ template ++ "` superseded more than " ++ toString limit ++ " times"
  | undeclared name => "`" ++ name ++ "` was not declared in the type pass"
  | noMetaclass type => "`" ++ type ++ "` has no metaclass"
  | notConstant type => "`" ++ type ++ "` is not a constant"
  | notGeneric type => "`" ++ type ++ "` is not a generic type"
  | notProvisional => "woke a proxy that is not a proxy type"
  | cannotInclude type => "`" ++ type ++ "` cannot include modules"
  | missingArgument parameter => "no argument for parameter `" ++ parameter ++ "`"
  | missingValue => "`value=` called without a value"
  | stillDirty count => toString count ++ " nodes still dirty after the fixpoint"
  | stated reason => reason

/-- One cause of an error. -/
inductive Problem where
  /-- A name is not visible from where it is used. -/
  | unresolved (what : Sought) (name : String)
  /-- No definition of the name accepts the arguments. -/
  | noOverload (name : String) (arguments candidates : List String)
  /-- Several definitions accept the arguments and none of them is the most specific. -/
  | tiedOverloads (name : String) (arguments candidates : List String)
  /-- The owner has no such method or instance variable. -/
  | missingMember (owner member : String)
  /-- The include would make a type its own ancestor. -/
  | cyclicAncestry (type ancestor : String)
  /-- The error below was met while this instance was being typed. -/
  | instantiating (signature : String)
  | internal (fault : Fault)
  deriving DecidableEq, Repr

def commaSeparated (items : List String) : String := String.intercalate ", " items

def Problem.message : Problem → String
  | unresolved .block _ => "no block given for `yield`"
  | unresolved what name => "undefined " ++ what.text ++ " `" ++ name ++ "`"
  | noOverload name arguments candidates =>
    "no overload of `" ++ name ++ "` matches argument types (" ++ commaSeparated arguments ++ ")" ++
      if candidates.isEmpty then "" else "; candidates: " ++ commaSeparated candidates
  | tiedOverloads name arguments candidates =>
    "ambiguous call to `" ++ name ++ "` with argument types (" ++ commaSeparated arguments ++
      "); tied candidates: " ++ commaSeparated candidates
  | missingMember owner member => "undefined member `" ++ member ++ "` for `" ++ owner ++ "`"
  | cyclicAncestry type ancestor =>
    "`" ++ type ++ "` cannot inherit from or include `" ++ ancestor ++
      "`: the hierarchy would be cyclic"
  | instantiating signature => "instantiating `" ++ signature ++ "`"
  | internal fault => "internal invariant violated: " ++ fault.reason

/-- A problem, the place it was met at if that is known, and the chain of its causes. -/
inductive TypingError where
  | root (problem : Problem) (place : Option Place)
  | because (problem : Problem) (place : Option Place) (cause : TypingError)
  deriving DecidableEq, Repr

namespace TypingError

def problem : TypingError → Problem
  | root p _ => p
  | because p _ _ => p

def place? : TypingError → Option Place
  | root _ l => l
  | because _ l _ => l

def cause? : TypingError → Option TypingError
  | root _ _ => none
  | because _ _ c => some c

def message (e : TypingError) : String := e.problem.message

/-- The error at the end of the chain. -/
def origin : TypingError → TypingError
  | root p l => root p l
  | because _ _ c => c.origin

/-- Every error of the chain, outermost first. -/
def chain : TypingError → List TypingError
  | root p l => [root p l]
  | because p l c => because p l c :: c.chain

def isFault (e : TypingError) : Bool :=
  match e.origin.problem with
  | .internal _ => true
  | _ => false

def located (p : Problem) (place : Place) : TypingError := root p (some place)

def fault (f : Fault) : TypingError := root (.internal f) none

/-- Gives the outermost error a place unless it has one. -/
def withPlace (place : Place) : TypingError → TypingError
  | root p l => root p (l.or (some place))
  | because p l c => because p (l.or (some place)) c

/-- Puts the frame of an instance, called from `place`, around an error met while typing it. -/
def instantiating (signature : String) (place : Place) (cause : TypingError) : TypingError :=
  because (.instantiating signature) (some place) cause

/-- What a reader is shown: the chain with messages, an unknown place as a synthesized one. -/
def report : TypingError → Report
  | root p l => .final ⟨p.message, l.getD .synthesized⟩
  | because p l c => .because ⟨p.message, l.getD .synthesized⟩ c.report

end TypingError

end FlowTyping
