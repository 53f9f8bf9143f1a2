/-
  Places in source text

  An extent is a range of byte offsets; a place is what a report shows: a file,
  a line and a column counted from one, and a width. A line table turns the
  first into the second.

  The line of an offset is one more than the number of newlines before it, and
  its column is one more than the distance from the start of that line. Both
  follow from `LineTable.starts` being the offset 0 and the offset after each
  newline, in order.
-/
namespace FlowTyping

/-- A range of byte offsets, the end not included. -/
structure Extent where
  start : Nat
  stop : Nat
  deriving DecidableEq, Repr, Inhabited

def Extent.length (e : Extent) : Nat := e.stop - e.start

def Extent.isEmpty (e : Extent) : Bool := e.start == e.stop

/-- A position in source text. Line 0 stands for code that no text produced. -/
structure Place where
  file : Option String
  line : Nat
  column : Nat
  width : Option Nat
  deriving DecidableEq, Repr

namespace Place

/-- The place of code that no text produced. -/
def synthesized : Place := ⟨none, 0, 0, none⟩

instance : Inhabited Place := ⟨synthesized⟩

def isSynthesized (p : Place) : Bool := p.line == 0

/-- Renders a place as `file:line:column`, or `line L:C` where no file is known. -/
def text (p : Place) : String :=
  let position := toString p.line ++ ":" ++ toString p.column
  match p.file with
  | some file => file ++ ":" ++ position
  | none => "line " ++ position

end Place

/-- The offsets at which the lines of one text start, in increasing order. -/
structure LineTable where
  starts : List Nat
  deriving Repr

namespace LineTable

/-- The offset after each newline byte of a text whose first byte stands at `offset`. -/
def startsFrom (offset : Nat) : List UInt8 → List Nat
  | [] => []
  | byte :: rest =>
    if byte = 10 then (offset + 1) :: startsFrom (offset + 1) rest
    else startsFrom (offset + 1) rest

def ofBytes (bytes : List UInt8) : LineTable := ⟨0 :: startsFrom 0 bytes⟩

def ofText (text : String) : LineTable := ofBytes text.toUTF8.toList

/-- The last line that starts at or before `offset`, counted from 0. -/
def lineAt (t : LineTable) (offset : Nat) : Nat :=
  (t.starts.takeWhile (· ≤ offset)).length - 1

/-- The offset at which a line starts. -/
def startOf (t : LineTable) (line : Nat) : Nat := t.starts[line]?.getD 0

/-- The place at which an extent begins, as wide as the extent unless that is empty. -/
def place (t : LineTable) (e : Extent) (file : Option String) : Place :=
  let line := t.lineAt e.start
  { file := file
    line := line + 1
    column := e.start - t.startOf line + 1
    width := if e.isEmpty then none else some e.length }

end LineTable

end FlowTyping
