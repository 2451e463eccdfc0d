import TermMachine.Code.Emitter
import TermMachine.Register.Allocation

/-! # Compiled code

A code sequence holds instructions and the register of each variable of the compiled term, sorted by
name. A query builds its term and leaves it in `X0`; a program matches its term against `X0`. A
program that is a bare variable is empty, as anything matches it.
-/
namespace TermMachine

structure Code where
  instructions : List Instruction
  vars : List (String × Register)
deriving DecidableEq

namespace Code

def empty : Code := ⟨[], []⟩

def ofInstructions (instructions : List Instruction) : Code := ⟨instructions, []⟩

def sortedVariables (map : RegisterMap) : List (String × Register) :=
  (Std.TreeMap.ofList map.vars).toList

def ofMap (write : RegisterMap → Nat → Emitter → Register → Except CompileError Emitter)
    (map : RegisterMap) : Except CompileError Code :=
  match write map (map.rows.size + 1) .empty RegisterMap.root with
  | .error err => .error err
  | .ok e => .ok ⟨e.code.toList, sortedVariables map⟩

def compile (write : RegisterMap → Nat → Emitter → Register → Except CompileError Emitter)
    (t : Term) (functors : Functor.Table) (registers : Nat) :
    Except CompileError Code × Functor.Table :=
  match RegisterMap.allocate t functors registers with
  | (.error err, functors) => (.error err, functors)
  | (.ok map, functors) => (ofMap write map, functors)

/-- Compiles a term that builds itself on the heap and leaves its address in `X0`. -/
def query : Term → Functor.Table → Nat → Except CompileError Code × Functor.Table :=
  compile Emitter.query

/-- Compiles a term that matches itself against the term in `X0`. -/
def program : Term → Functor.Table → Nat → Except CompileError Code × Functor.Table :=
  compile Emitter.program

def size (code : Code) : Nat := code.instructions.length

def listing (functors : Functor.Table) (code : Code) : String :=
  String.join (code.instructions.map fun i => i.text functors ++ "\n")

end Code
end TermMachine
