import FlowTyping.Source.Place

/-
  Reports

  What a reader of an error is shown: a message and a place, and below it the
  report of what caused it. A report is a chain that ends; `Report.notices`
  lists it from the outermost entry to the innermost.
-/
namespace FlowTyping

/-- One message and the place it is about. -/
structure Notice where
  message : String
  place : Place
  deriving DecidableEq, Repr

/-- Renders a notice as its place, a colon and its message. -/
def Notice.text (n : Notice) : String := n.place.text ++ ": " ++ n.message

/-- A notice with the chain of its causes. -/
inductive Report where
  | final (notice : Notice)
  | because (notice : Notice) (cause : Report)
  deriving Repr

namespace Report

def notice : Report → Notice
  | final n => n
  | because n _ => n

def cause? : Report → Option Report
  | final _ => none
  | because _ c => some c

/-- Every notice of the chain, outermost first. -/
def notices : Report → List Notice
  | final n => [n]
  | because n c => n :: c.notices

end Report

end FlowTyping
