import Std.Data.TreeSet
import TermMachine.Code.Instruction
import TermMachine.Register.Map

/-! # Writing code

An emitter walks through a register map and writes the code of what its registers stand for. A query
writes the arguments of a structure before the structure, a program behind it. A register that has
come up is known, and is only read from then on.
-/
namespace TermMachine

structure Emitter where
  known : Std.TreeSet Register
  code : Array Instruction

namespace Emitter

def empty : Emitter := ⟨∅, #[]⟩

def emit (e : Emitter) (i : Instruction) : Emitter := ⟨e.known, e.code.push i⟩

def know (e : Emitter) (x : Register) : Emitter := ⟨e.known.insert x, e.code⟩

/-- Writes an argument register, when it stands for a structure that is still to be built. -/
def prepare (map : RegisterMap) (write : Emitter → Register → Except CompileError Emitter)
    (e : Emitter) (x : Register) : Except CompileError Emitter :=
  if x ∈ e.known then .ok e
  else
    match map.get x with
    | .error err => .error err
    | .ok row => if row.isStructured then write e x else .ok e

/-- Writes what builds the term of a register. A structure has a smaller register than the
structures inside it, so nothing is nested deeper than a map has rows. -/
def query (map : RegisterMap) :
    (depth : Nat) → Emitter → Register → Except CompileError Emitter
  | 0, _, x => .error (.unallocatedRegister x)
  | depth + 1, e, x =>
    if x ∈ e.known then .ok (e.emit (.setValue x))
    else
      match map.get x with
      | .error err => .error err
      | .ok (.var _) => .ok ((e.know x).emit (.setVariable x))
      | .ok (.app f n xs) =>
        match xs.foldlM (prepare map (query map depth)) e with
        | .error err => .error err
        | .ok e => xs.foldlM (query map depth) ((e.know x).emit (.putStructure f n x))

def unify (e : Emitter) (x : Register) : Emitter :=
  if x ∈ e.known then e.emit (.unifyValue x) else (e.know x).emit (.unifyVariable x)

def program (map : RegisterMap) :
    (depth : Nat) → Emitter → Register → Except CompileError Emitter
  | 0, _, x => .error (.unallocatedRegister x)
  | depth + 1, e, x =>
    match map.get x with
    | .error err => .error err
    | .ok (.var _) => .ok e
    | .ok (.app f n xs) =>
      xs.foldlM (program map depth) (xs.foldl unify ((e.know x).emit (.getStructure f n x)))

end Emitter
end TermMachine
