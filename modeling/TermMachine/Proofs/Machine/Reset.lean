import TermMachine.Machine.Dump
import TermMachine.Proofs.Machine.Provenance

/-! # A reset machine is a fresh one

Every zone keeps its capacity through whatever is done to a machine, and a reset empties all of
them. So nothing that is asked of a machine after a reset tells it from one that has just been
created.
-/
namespace TermMachine.Machine

/-- What can be asked of a machine: to compile, run or reset, or to show what it holds. -/
inductive Request where
  | call (c : Call)
  | readTerm (a : Address)
  | queryTerm
  | bindings
  | binding (name : String)
  | dump
  | functors
  | heap
  | capacities

inductive Response where
  | compiled (result : Except CompileError Code)
  | ran (result : Except Fault Bool)
  | reset
  | term (result : Except Fault Term)
  | optionalTerm (result : Except Fault (Option Term))
  | bindings (result : Except Fault (List (String × Term)))
  | text (text : String)
  | functors (table : Functor.Table)
  | cells (cells : Array Cell)
  | capacities (capacities : Capacities)

def respond (m : Machine) : Request → Response
  | .call (.query t) => .compiled (m.compileQuery t).1
  | .call (.program t) => .compiled (m.compileProgram t).1
  | .call (.run query program) => .ran (m.run query program).1
  | .call .reset => .reset
  | .readTerm a => .term (m.readTerm a)
  | .queryTerm => .optionalTerm m.queryTerm
  | .bindings => .bindings m.bindings
  | .binding name => .optionalTerm (m.binding name)
  | .dump => .text m.dump
  | .functors => .functors m.functors
  | .heap => .cells m.state.heap.cells
  | .capacities => .capacities m.capacities

def afterRequest (m : Machine) : Request → Machine
  | .call c => m.after c
  | _ => m

def responses : Machine → List Request → List Response
  | _, [] => []
  | m, request :: requests => m.respond request :: responses (m.afterRequest request) requests

theorem clear_functors {table : Functor.Table} {capacity : Nat}
    (h : table.Bounded (min capacity Functor.tableLimit)) :
    table.clear = Functor.Table.empty capacity := by
  simp only [Functor.Table.clear, Functor.Table.empty, h.capacity_eq]

/-- Whatever has been done to a machine, resetting it leaves a fresh machine. -/
theorem reset_afterAll (capacities : Capacities) (calls : List Call) :
    ((create capacities).afterAll calls).reset = create capacities := by
  have hcapacities := afterAll_capacities capacities calls
  have hfunctors := clear_functors (afterAll_bounded capacities calls)
  have hheap := afterAll_heap_capacity capacities calls
  have hregisters := afterAll_count capacities calls
  generalize (create capacities).afterAll calls = m at hcapacities hfunctors hheap hregisters ⊢
  rw [reset, hcapacities, hfunctors, Heap.clear, hheap, RegisterFile.clear, hregisters]
  rfl

/-- After a reset a machine answers every request, and every one that follows, as a fresh machine
with the same capacities does. -/
theorem responses_reset (capacities : Capacities) (calls : List Call) (requests : List Request) :
    ((create capacities).afterAll calls).reset.responses requests =
      (create capacities).responses requests := by
  rw [reset_afterAll]

end TermMachine.Machine
