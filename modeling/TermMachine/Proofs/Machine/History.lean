import TermMachine.Machine.Basic

/-! # Histories of a machine

A machine is used by calls. Code that is run need not come from the machine itself: any code can be
given to any run.
-/
namespace TermMachine

inductive Call where
  | query (t : Term)
  | program (t : Term)
  | run (query program : Code)
  | reset

namespace Machine

def after (m : Machine) : Call → Machine
  | .query t => (m.compileQuery t).2
  | .program t => (m.compileProgram t).2
  | .run query program => (m.run query program).2
  | .reset => m.reset

def afterAll (m : Machine) (calls : List Call) : Machine := calls.foldl after m

theorem afterAll_induction {I : Machine → Prop} {m : Machine} (hm : I m)
    (hI : ∀ m call, I m → I (m.after call)) (calls : List Call) : I (m.afterAll calls) := by
  induction calls generalizing m with
  | nil => exact hm
  | cons call calls ih => exact ih (hI m call hm)

theorem load_eq (compile : Functor.Table → Nat → Except CompileError Code × Functor.Table)
    (m : Machine) :
    load compile m =
      match compile m.functors m.capacities.registers with
      | (.error e, functors) => (.error e, { m with functors })
      | (.ok new, functors) =>
        if m.code.length + new.size ≤ m.capacities.code then
          (.ok new, { m with functors, code := m.code ++ new.instructions })
        else (.error (.outOfCode m.capacities.code), { m with functors }) := rfl

theorem load_keeps (compile : Functor.Table → Nat → Except CompileError Code × Functor.Table)
    (m : Machine) : (load compile m).2.state = m.state ∧
      (load compile m).2.capacities = m.capacities ∧ (load compile m).2.capture = m.capture ∧
      (load compile m).2.functors = (compile m.functors m.capacities.registers).2 := by
  rw [load_eq]
  rcases compile m.functors m.capacities.registers with ⟨_ | new, functors⟩
  · exact ⟨rfl, rfl, rfl, rfl⟩
  · by_cases hc : m.code.length + new.size ≤ m.capacities.code
    · simp [hc]
    · simp [hc]

theorem run_eq (m : Machine) (query program : Code) :
    m.run query program =
      ((runState query program m.state.heap m.state.registers).1,
        { m with
          state := (runState query program m.state.heap m.state.registers).2.1
          capture := (runState query program m.state.heap m.state.registers).2.2 }) := rfl

end Machine
end TermMachine
