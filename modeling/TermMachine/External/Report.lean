import TermMachine.External.Text
import TermMachine.Source.Blank

/-! # Reports on source texts

A report shows the line of a position in a frame, for a terminal with colours. The frame is in one
grey, the line in another, and the mark and the marked character are red; below the line the mark
points at the column. A newline at the very end of a text opens no line of its own, so a position
behind it belongs to the line before.
-/
namespace TermMachine

structure Report.Label where
  start : Nat
  stop : Nat
  message : String

structure Report where
  id : String
  position : Nat
  message : String
  labels : List Report.Label

namespace Report

def frame (text : String) : String := styled "38;5;246" text

def plain (text : String) : String := styled "38;5;249" text

def marked (text : String) : String := styled "31" text

/-- A position as a line number from one, a column from zero, and the characters of the line. -/
structure Place where
  line : Nat
  column : Nat
  text : List Char

def placeIn (line : Nat) (before : List Char) (column : Nat) : List Char → Place
  | [] => ⟨line, column, before.reverse⟩
  | ['\n'] => ⟨line, column, before.reverse⟩
  | '\n' :: c :: rest =>
    if column ≤ before.length then ⟨line, column, before.reverse⟩
    else placeIn (line + 1) [] (column - (before.length + 1)) (c :: rest)
  | c :: rest => placeIn line (c :: before) column rest

def placeOf (source : String) (position : Nat) : Place := placeIn 1 [] position source.toList

def spaces (n : Nat) : String := String.ofList (List.replicate n ' ')

def shownLine (place : Place) : String :=
  String.join
    ((place.text.reverse.dropWhile Source.isBlank).reverse.zipIdx.map fun (c, column) =>
      if column = place.column then marked (String.singleton c) else plain (String.singleton c))

/-- The two marks below the line: a character gets a longer one than the end of the line. -/
def marks (place : Place) : String × String :=
  if place.column < place.text.length then
    (marked "┬" ++ "  ", marked "╰" ++ marked "─" ++ marked "─")
  else (marked "│" ++ " ", marked "╰" ++ marked "─")

def text (r : Report) (source : String) : String :=
  let place := placeOf source r.position
  let line := toString place.line
  let margin := spaces line.length
  let gutter := " " ++ frame (margin ++ " ·") ++ " " ++ spaces place.column
  marked "Error:" ++ " " ++ r.message ++ "\n" ++
    margin ++ "  " ++ frame "╭" ++ frame "─" ++ frame "[" ++
      r.id ++ ":" ++ line ++ ":" ++ toString (place.column + 1) ++ frame "]" ++ "\n" ++
    margin ++ "  " ++ frame "│" ++ "\n" ++
    " " ++ frame (line ++ " │") ++ " " ++ shownLine place ++ "\n" ++
    gutter ++ (marks place).1 ++ "\n" ++
    gutter ++ (marks place).2 ++ " " ++ ((r.labels.head?.map Label.message).getD "") ++ "\n" ++
    frame (String.ofList (List.replicate (line.length + 2) '─') ++ "╯") ++ "\n"

end Report
end TermMachine
