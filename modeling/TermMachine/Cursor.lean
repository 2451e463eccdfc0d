import TermMachine.Index

/-! # The argument cursor

While the arguments of a structure are matched, the cursor says whether they are read from the heap
or written to it, where the next one is read, and how many are left. In write mode the position
moves as well, but nobody looks at it.
-/
namespace TermMachine

inductive Mode where
  | read
  | write
deriving DecidableEq

structure Cursor where
  mode : Mode
  position : Address
  left : Nat
deriving DecidableEq

namespace Cursor

inductive Fault where
  | noMoreTerms
deriving DecidableEq

def Fault.message : Fault → String
  | noMoreTerms => "no structure has arguments left to read or write"

inductive Argument where
  /-- Match the argument at this address. -/
  | read (a : Address)
  /-- Append the argument to the heap. -/
  | write
deriving DecidableEq

def outside (mode : Mode) : Cursor := ⟨mode, 0, 0⟩

def reading (a : Address) (n : Arity) : Cursor := ⟨.read, a, n.val⟩

def writing (n : Arity) (c : Cursor) : Cursor := ⟨.write, c.position, n.val⟩

def advance : Cursor → Except Fault Argument × Cursor
  | ⟨mode, position, 0⟩ => (.error .noMoreTerms, ⟨mode, position, 0⟩)
  | ⟨.read, position, left + 1⟩ => (.ok (.read position), ⟨.read, position.offset 1, left⟩)
  | ⟨.write, position, left + 1⟩ => (.ok .write, ⟨.write, position.offset 1, left⟩)

end Cursor
end TermMachine
