import TermMachine.Machine.Basic

/-! # Dumps

A listing of the registers that hold an address, the code zone, the heap and the functors.
-/
namespace TermMachine.Machine

def dumpSection (title : String) (entries : List String) : String :=
  title ++ ":\n" ++
    match entries with
    | [] => "  (empty)\n"
    | _ => String.join (entries.map fun entry => "  " ++ entry ++ "\n")

def addressed (entries : List String) : List String :=
  entries.zipIdx.map fun (entry, a) => Address.text a ++ " " ++ entry

def dump (m : Machine) : String :=
  dumpSection "registers"
      (m.state.registers.live.map fun (x, a) => x.text ++ " = " ++ a.text) ++
    dumpSection "code" (addressed (m.code.map (Instruction.text m.functors))) ++
    dumpSection "heap" (addressed (m.state.heap.cells.toList.map (Cell.text m.functors))) ++
    dumpSection "functors" (m.functors.toList.map fun (f, functor) => f.text ++ " " ++ functor.text)

end TermMachine.Machine
