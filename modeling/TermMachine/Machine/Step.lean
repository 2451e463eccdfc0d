import TermMachine.Code.Instruction
import TermMachine.Cursor
import TermMachine.Heap.Unify
import TermMachine.Register.File

/-! # Running instructions

A run works on the heap, the registers and the cursor. An action of a run ends in a value or a
fault, and leaves its state behind either way. A step answers whether the terms still match.
-/
namespace TermMachine

/-- A fault that compiled code never runs into, a full heap apart. -/
inductive Fault where
  | registers (fault : RegisterFile.Fault)
  | memory (fault : Heap.Fault)
  | cursor (fault : Cursor.Fault)
  | unknownFunctor (f : FunctorId)
deriving DecidableEq

def Fault.message : Fault → String
  | registers fault => fault.message
  | memory fault => fault.message
  | cursor fault => fault.message
  | unknownFunctor f => "functor " ++ f.text ++ " is not in the functor table"

structure RunState where
  heap : Heap
  registers : RegisterFile
  cursor : Cursor

abbrev Run (α : Type) : Type := ExceptT Fault (StateM RunState) α

namespace Run

variable {α β : Type}

theorem pure_apply (a : α) (s : RunState) : (pure a : Run α) s = (.ok a, s) := rfl

theorem bind_apply (m : Run α) (k : α → Run β) (s : RunState) :
    (m >>= k) s =
      match m s with
      | (.ok a, s) => k a s
      | (.error e, s) => (.error e, s) := by
  simp only [bind, ExceptT.bind, ExceptT.mk, StateT.bind]
  rcases m s with ⟨_ | _, _⟩ <;> rfl

def onHeap (act : Heap → Except Heap.Fault α × Heap) : Run α := fun s =>
  match s with
  | ⟨heap, registers, cursor⟩ =>
    match act heap with
    | (result, heap) => (result.mapError .memory, ⟨heap, registers, cursor⟩)

def onRegisters (act : RegisterFile → Except RegisterFile.Fault α × RegisterFile) : Run α :=
  fun s =>
    match s with
    | ⟨heap, registers, cursor⟩ =>
      match act registers with
      | (result, registers) => (result.mapError .registers, ⟨heap, registers, cursor⟩)

def onCursor (act : Cursor → Except Cursor.Fault α × Cursor) : Run α := fun s =>
  match s with
  | ⟨heap, registers, cursor⟩ =>
    match act cursor with
    | (result, cursor) => (result.mapError .cursor, ⟨heap, registers, cursor⟩)

def turnCursor (turn : Cursor → Cursor) : Run Unit := fun s =>
  (.ok (), ⟨s.heap, s.registers, turn s.cursor⟩)

def ofHeap (look : Heap → Except Heap.Fault α) : Run α := fun s =>
  ((look s.heap).mapError .memory, s)

def ofRegisters (look : RegisterFile → Except RegisterFile.Fault α) : Run α := fun s =>
  ((look s.registers).mapError .registers, s)

def putStructure (f : FunctorId) (n : Arity) (x : Register) : Run Bool := do
  let a ← onHeap (Heap.pushStructure f n)
  onRegisters (·.store x a)
  turnCursor (Cursor.writing n)
  return true

def setVariable (x : Register) : Run Bool := do
  let a ← onHeap Heap.pushVariable
  onRegisters (·.store x a)
  return true

def setValue (x : Register) : Run Bool := do
  let a ← ofRegisters (·.load x)
  let _ ← onHeap (Heap.pushCopy a)
  return true

/-- Matches a structure against the term at `a`: an unbound reference is bound to a new structure,
and a structure must have the same functor. -/
def matchStructure (f : FunctorId) (n : Arity) (a : Address) : Run Bool := do
  let a ← ofHeap (·.deref a)
  match ← ofHeap (·.get a) with
  | .ref _ =>
    let b ← onHeap (Heap.pushStructure f n)
    let bound ← onHeap (Heap.bind a b)
    if bound then
      turnCursor (Cursor.writing n)
    return bound
  | .str t =>
    let found ← ofHeap (·.functorAt t)
    if found = (f, n) then
      turnCursor fun _ => .reading (t.offset 1) n
      return true
    else
      return false
  | .functor _ _ => throw (.memory (.unexpectedFunctor a))

/-- Matches a structure against a register, and builds it when the register is empty. -/
def getStructure (f : FunctorId) (n : Arity) (x : Register) : Run Bool := do
  match ← ofRegisters (·.get x) with
  | none => putStructure f n x
  | some a => matchStructure f n a

def unifyVariable (x : Register) : Run Bool := do
  let a ←
    match ← onCursor Cursor.advance with
    | .read a => pure a
    | .write => onHeap Heap.pushVariable
  onRegisters (·.store x a)
  return true

def unifyValue (x : Register) : Run Bool := do
  let a ← ofRegisters (·.load x)
  match ← onCursor Cursor.advance with
  | .read b => onHeap (Heap.unify a b)
  | .write =>
    let _ ← onHeap (Heap.pushCopy a)
    return true

end Run

def Instruction.step : Instruction → Run Bool
  | putStructure f n x => Run.putStructure f n x
  | setVariable x => Run.setVariable x
  | setValue x => Run.setValue x
  | getStructure f n x => Run.getStructure f n x
  | unifyVariable x => Run.unifyVariable x
  | unifyValue x => Run.unifyValue x

def Run.all : List Instruction → RunState → Except Fault Bool × RunState
  | [], s => (.ok true, s)
  | i :: is, s =>
    match i.step s with
    | (.ok true, s) => Run.all is s
    | (result, s) => (result, s)

/-- Code in sequence: the second part runs where the first has ended without a mismatch. -/
theorem Run.all_append (is js : List Instruction) (s : RunState) :
    Run.all (is ++ js) s =
      match Run.all is s with
      | (.ok true, s) => Run.all js s
      | (result, s) => (result, s) := by
  induction is generalizing s with
  | nil => rfl
  | cons i is ih =>
    simp only [List.cons_append, Run.all]
    rcases i.step s with ⟨_ | b, s⟩
    · rfl
    · cases b
      · rfl
      · exact ih s

end TermMachine
