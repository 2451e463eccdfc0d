import TermMachine.Code.Basic
import TermMachine.Machine.Step

/-! # Machines

A machine compiles terms into its code zone and runs a query against a program. The heap, the
functors and the code last until the machine is reset; each run starts with empty registers and
keeps the addresses of the query's term and variables.
-/
namespace TermMachine

structure Capacities where
  registers : Nat
  code : Nat
  heap : Nat
  functors : Nat
deriving DecidableEq

def Capacities.standard : Capacities := ⟨128, 1024, 4096, 1024⟩

/-- What a run keeps of its query: the address of the term, and of each variable by name. -/
structure Capture where
  root : Option Address
  vars : List (String × Address)
deriving DecidableEq

namespace Capture

def empty : Capture := ⟨none, []⟩

def loadVariables (r : RegisterFile) :
    List (String × Register) → Except RegisterFile.Fault Unit × List (String × Address)
  | [] => (.ok (), [])
  | (name, x) :: rest =>
    match r.load x with
    | .error e => (.error e, [])
    | .ok a =>
      match loadVariables r rest with
      | (result, vars) => (result, (name, a) :: vars)

def ofRegisters (query : Code) (r : RegisterFile) : Except RegisterFile.Fault Unit × Capture :=
  if query.instructions.isEmpty then
    match loadVariables r query.vars with
    | (result, vars) => (result, ⟨none, vars⟩)
  else
    match r.load RegisterMap.root with
    | .error e => (.error e, empty)
    | .ok a =>
      match loadVariables r query.vars with
      | (result, vars) => (result, ⟨some a, vars⟩)

end Capture

structure Machine where
  capacities : Capacities
  functors : Functor.Table
  code : List Instruction
  state : RunState
  capture : Capture

namespace Machine

def create (capacities : Capacities) : Machine where
  capacities := capacities
  functors := Functor.Table.empty capacities.functors
  code := []
  state := ⟨Heap.empty capacities.heap, RegisterFile.empty capacities.registers, .outside .write⟩
  capture := .empty

def reset (m : Machine) : Machine where
  capacities := m.capacities
  functors := m.functors.clear
  code := []
  state := ⟨m.state.heap.clear, m.state.registers.clear, .outside .write⟩
  capture := .empty

def load (compile : Functor.Table → Nat → Except CompileError Code × Functor.Table) (m : Machine) :
    Except CompileError Code × Machine :=
  match m with
  | ⟨capacities, functors, code, state, capture⟩ =>
    match compile functors capacities.registers with
    | (.error e, functors) => (.error e, ⟨capacities, functors, code, state, capture⟩)
    | (.ok new, functors) =>
      if code.length + new.size ≤ capacities.code then
        (.ok new, ⟨capacities, functors, code ++ new.instructions, state, capture⟩)
      else
        (.error (.outOfCode capacities.code), ⟨capacities, functors, code, state, capture⟩)

def compileQuery (t : Term) : Machine → Except CompileError Code × Machine := load (Code.query t)

def compileProgram (t : Term) : Machine → Except CompileError Code × Machine :=
  load (Code.program t)

/-- Runs a query from empty registers and captures its term, then matches a program. -/
def runState (query program : Code) (heap : Heap) (registers : RegisterFile) :
    Except Fault Bool × RunState × Capture :=
  match Run.all query.instructions ⟨heap, registers.clear, .outside .write⟩ with
  | (.ok true, ⟨heap, registers, cursor⟩) =>
    match Capture.ofRegisters query registers with
    | (.error e, capture) => (.error (.registers e), ⟨heap, registers, cursor⟩, capture)
    | (.ok (), capture) =>
      match Run.all program.instructions ⟨heap, registers, .outside .read⟩ with
      | (result, state) => (result, state, capture)
  | (result, state) => (result, state, .empty)

/-- Runs a query and then a program on it: whether the two terms unify. -/
def run (query program : Code) (m : Machine) : Except Fault Bool × Machine :=
  match m with
  | ⟨capacities, functors, code, ⟨heap, registers, _⟩, _⟩ =>
    match runState query program heap registers with
    | (result, state, capture) => (result, ⟨capacities, functors, code, state, capture⟩)

end Machine
end TermMachine
