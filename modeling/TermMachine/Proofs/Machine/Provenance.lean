import TermMachine.Proofs.Machine.Compiled
import TermMachine.Proofs.Machine.Soundness

/-! # Code from the machine itself

Code that a machine has compiled since it was last reset stays right for it, whatever else is
compiled or run in between. So what has been shown of compiled code holds in every such history, and
the first thing to follow is that no run of compiled code faults on a heap with room for its terms.
-/
namespace TermMachine

open Heap

namespace Run

variable {h : Heap} {r : RegisterFile} {c : Cursor}

theorem putStructure_count (f : FunctorId) (n : Arity) (x : Register) :
    (putStructure f n x ⟨h, r, c⟩).2.registers.count = r.count := by
  rw [putStructure_eq]
  split
  · split <;> rfl
  · rfl

theorem setVariable_count (x : Register) :
    (setVariable x ⟨h, r, c⟩).2.registers.count = r.count := by
  rw [setVariable_eq]
  split
  · split <;> rfl
  · rfl

theorem setValue_count (x : Register) : (setValue x ⟨h, r, c⟩).2.registers.count = r.count := by
  rw [setValue_eq]
  split <;> rfl

theorem matchStructure_count (f : FunctorId) (n : Arity) (a : Address) :
    (matchStructure f n a ⟨h, r, c⟩).2.registers.count = r.count := by
  rw [matchStructure_eq]
  repeat' split
  all_goals rfl

/-- No instruction adds or takes away registers. -/
theorem step_count (i : Instruction) (s : RunState) :
    (i.step s).2.registers.count = s.registers.count := by
  obtain ⟨h, r, c⟩ := s
  cases i with
  | putStructure f n x => exact putStructure_count f n x
  | setVariable x => exact setVariable_count x
  | setValue x => exact setValue_count x
  | getStructure f n x =>
    rw [Instruction.step, getStructure_eq]
    split
    · rfl
    · exact putStructure_count f n x
    · exact matchStructure_count f n _
  | unifyVariable x =>
    rw [Instruction.step, unifyVariable_eq]
    split
    · rfl
    · split <;> rfl
    · exact setVariable_count x
  | unifyValue x =>
    rw [Instruction.step, unifyValue_eq]
    split
    · rfl
    · split
      · rfl
      · rfl
      · exact setValue_count x

theorem all_count (is : List Instruction) (s : RunState) :
    (Run.all is s).2.registers.count = s.registers.count := by
  induction is generalizing s with
  | nil => rfl
  | cons i is ih =>
    have hi := step_count i s
    unfold Run.all
    generalize i.step s = out at hi ⊢
    rcases out with ⟨_ | _ | _, t⟩
    · exact hi
    · exact hi
    · exact (ih t).trans hi

end Run

namespace Machine

theorem runState_count (query program : Code) (h : Heap) (r : RegisterFile) :
    (runState query program h r).2.1.registers.count = r.count := by
  have hq := Run.all_count query.instructions ⟨h, r.clear, .outside .write⟩
  unfold runState
  generalize Run.all query.instructions ⟨h, r.clear, .outside .write⟩ = out at hq ⊢
  rcases out with ⟨_ | _ | _, h₁, r₁, c₁⟩
  · exact hq
  · exact hq
  · dsimp only at hq ⊢
    rcases Capture.ofRegisters query r₁ with ⟨_ | _, capture⟩
    · exact hq
    · exact (Run.all_count program.instructions _).trans hq

theorem afterAll_count (capacities : Capacities) (calls : List Call) :
    ((create capacities).afterAll calls).state.registers.count = capacities.registers := by
  refine afterAll_induction (I := fun m => m.state.registers.count = capacities.registers) rfl
    (fun m call hm => ?_) calls
  cases call with
  | query t => exact (congrArg (fun s => s.registers.count) (load_keeps _ m).1).trans hm
  | program t => exact (congrArg (fun s => s.registers.count) (load_keeps _ m).1).trans hm
  | run query program => exact (runState_count query program _ _).trans hm
  | reset => exact hm

/-- The functor table stays within the machine's capacity. -/
theorem afterAll_bounded (capacities : Capacities) (calls : List Call) :
    ((create capacities).afterAll calls).functors.Bounded
      (min capacities.functors Functor.tableLimit) := by
  refine afterAll_induction (I := fun m => m.functors.Bounded _)
    (Functor.Table.bounded_empty capacities.functors) (fun m call hm => ?_) calls
  cases call with
  | query t =>
    rw [after, compileQuery, (load_keeps _ m).2.2.2, Code.query_eq_compileWith]
    exact Code.compileWith_keeps (fun table f h => h.intern f) _ t _ hm
  | program t =>
    rw [after, compileProgram, (load_keeps _ m).2.2.2, Code.program_eq_compileWith]
    exact Code.compileWith_keeps (fun table f h => h.intern f) _ t _ hm
  | run query program => exact hm
  | reset => exact hm.clear

/-- Functors are only added until the machine is reset. -/
theorem afterAll_extends {m : Machine} {calls : List Call} (h : Call.reset ∉ calls) :
    m.functors.Extends (m.afterAll calls).functors := by
  induction calls generalizing m with
  | nil => exact .refl _
  | cons call calls ih =>
    have hone : m.functors.Extends (m.after call).functors := by
      cases call with
      | query t =>
        rw [after, compileQuery, (load_keeps _ m).2.2.2, Code.query_eq_compileWith]
        exact Code.compileWith_extends ..
      | program t =>
        rw [after, compileProgram, (load_keeps _ m).2.2.2, Code.program_eq_compileWith]
        exact Code.compileWith_extends ..
      | run query program => exact .refl _
      | reset => exact absurd List.mem_cons_self h
    exact hone.trans (ih fun hmem => h (List.mem_cons_of_mem call hmem))

/-- The history has compiled the query since the last reset, and has got the code as the answer. -/
def CompiledQuery (capacities : Capacities) (calls : List Call) (t : Term) (code : Code) : Prop :=
  ∃ before later, calls = before ++ .query t :: later ∧ Call.reset ∉ later ∧
    (((create capacities).afterAll before).compileQuery t).1 = .ok code

def CompiledProgram (capacities : Capacities) (calls : List Call) (t : Term) (code : Code) :
    Prop :=
  ∃ before later, calls = before ++ .program t :: later ∧ Call.reset ∉ later ∧
    (((create capacities).afterAll before).compileProgram t).1 = .ok code

section Load

variable {compile : Functor.Table → Nat → Except CompileError Code × Functor.Table}
  {m : Machine} {code : Code}

theorem load_eq_ok (h : (load compile m).1 = .ok code) :
    compile m.functors m.capacities.registers = (.ok code, (load compile m).2.functors) := by
  rw [load_eq] at h ⊢
  generalize compile m.functors m.capacities.registers = out at h ⊢
  rcases out with ⟨e | new, functors⟩
  · cases h
  · dsimp only at h ⊢
    by_cases hc : m.code.length + new.size ≤ m.capacities.code
    · rw [if_pos hc] at h ⊢
      cases h
      rfl
    · rw [if_neg hc] at h
      cases h

theorem load_of_room {later : Functor.Table}
    (h : compile m.functors m.capacities.registers = (.ok code, later))
    (hroom : m.code.length + code.size ≤ m.capacities.code) :
    load compile m =
      (.ok code, { m with functors := later, code := m.code ++ code.instructions }) := by
  rw [load_eq, h]
  dsimp only
  rw [if_pos hroom]

theorem load_room (h : (load compile m).1 = .ok code) :
    m.code.length + code.size ≤ m.capacities.code ∧
      (load compile m).2.code = m.code ++ code.instructions := by
  have hcompile := load_eq_ok h
  by_cases hroom : m.code.length + code.size ≤ m.capacities.code
  · rw [load_of_room hcompile hroom]
    exact ⟨hroom, rfl⟩
  · rw [load_eq, hcompile] at h
    simp [hroom] at h

end Load

variable {capacities : Capacities} {calls : List Call} {q p t : Term} {query program code : Code}

theorem afterAll_append (m : Machine) (before later : List Call) :
    m.afterAll (before ++ later) = (m.afterAll before).afterAll later := List.foldl_append

theorem exists_compile
    {compile : Functor.Table → Nat → Except CompileError Code × Functor.Table} {call : Call}
    (hcall : ∀ m : Machine, m.after call = (load compile m).2) {before later : List Call}
    (hreset : Call.reset ∉ later)
    (hcode : (load compile ((create capacities).afterAll before)).1 = .ok code) :
    ∃ table table', compile table capacities.registers = (.ok code, table') ∧
      table'.Extends ((create capacities).afterAll (before ++ call :: later)).functors := by
  have hcompile := load_eq_ok hcode
  rw [afterAll_capacities] at hcompile
  refine ⟨_, _, hcompile, ?_⟩
  rw [afterAll_append, ← hcall]
  exact afterAll_extends hreset

theorem CompiledQuery.exists_compile (h : CompiledQuery capacities calls t code) :
    ∃ table table', Code.query t table capacities.registers = (.ok code, table') ∧
      table'.Extends ((create capacities).afterAll calls).functors := by
  obtain ⟨before, later, rfl, hreset, hcode⟩ := h
  exact Machine.exists_compile (fun _ => rfl) hreset hcode

theorem CompiledProgram.exists_compile (h : CompiledProgram capacities calls t code) :
    ∃ table table', Code.program t table capacities.registers = (.ok code, table') ∧
      table'.Extends ((create capacities).afterAll calls).functors := by
  obtain ⟨before, later, rfl, hreset, hcode⟩ := h
  exact Machine.exists_compile (fun _ => rfl) hreset hcode

theorem CompiledQuery.isQuery (h : CompiledQuery capacities calls t code) :
    Code.IsQuery ((create capacities).afterAll calls).functors capacities.registers t code := by
  obtain ⟨table, table', hcompile, hext⟩ := h.exists_compile
  exact (Code.query_eq_ok hcompile).mono hext

theorem CompiledProgram.isProgram (h : CompiledProgram capacities calls t code) :
    Code.IsProgram ((create capacities).afterAll calls).functors capacities.registers t code := by
  obtain ⟨table, table', hcompile, hext⟩ := h.exists_compile
  exact (Code.program_eq_ok hcompile).mono hext

theorem afterAll_heap_capacity (capacities : Capacities) (calls : List Call) :
    ((create capacities).afterAll calls).state.heap.capacity = capacities.heap := by
  rw [(afterAll_inOrder capacities calls).capacity_eq, afterAll_capacities]

/-- How the run of code that the machine has compiled ends. -/
theorem run_cases (hq : CompiledQuery capacities calls q query)
    (hp : CompiledProgram capacities calls p program) {m n : Machine}
    (hm : m = (create capacities).afterAll calls) (hn : n = (m.run query program).2) :
    ((m.run query program).1 = .ok true ∧ ∃ root,
      Answered m.functors m.state.heap.cells.size q p n.state.heap n.capture root) ∨
    ((m.run query program).1 = .ok false ∧
      n.state.heap.WellBuilt m.functors m.state.heap.cells.size 0 ∧
      (∃ root, Captured m.functors m.state.heap.cells.size q n.state.heap n.capture root) ∧
      ∀ {D : Type} [TreeDomain D] (σ τ : String → D), q.eval σ ≠ p.eval τ) ∨
    (m.run query program).1 = .error (.memory (.outOfMemory capacities.heap)) ∧
      capacities.heap < m.state.heap.cells.size + (q.queryCells + p.cells) := by
  have hcount := afterAll_count capacities calls
  have hcap := afterAll_heap_capacity capacities calls
  have hq' := hq.isQuery
  have hp' := hp.isProgram
  rw [← hm] at hcount hcap hq' hp'
  rw [run_eq] at hn
  rw [run_eq, hn]
  rcases runState_cases (h := m.state.heap) hq' hp' hcount with
    ⟨s, c, root, heq, hans⟩ | ⟨s, c, root, heq, hw, hc, hnone⟩ | ⟨s, c, heq, hlt⟩
  · rw [heq]
    exact .inl ⟨rfl, root, hans⟩
  · rw [heq]
    exact .inr (.inl ⟨rfl, hw, ⟨root, hc⟩, hnone⟩)
  · rw [heq]
    exact .inr (.inr ⟨by rw [Run.full, hcap], hcap ▸ hlt⟩)

/-- A run of compiled code that answers leaves a heap from which the query can be read back. -/
theorem run_captured (hq : CompiledQuery capacities calls q query)
    (hp : CompiledProgram capacities calls p program) {m n : Machine}
    (hm : m = (create capacities).afterAll calls) (hn : n = (m.run query program).2)
    {answer : Bool} (hends : (m.run query program).1 = .ok answer) :
    n.state.heap.WellBuilt n.functors m.state.heap.cells.size 0 ∧
      ∃ root, Captured n.functors m.state.heap.cells.size q n.state.heap n.capture root := by
  have hfunctors : m.functors = n.functors := by rw [hn, run_eq]
  rcases run_cases hq hp hm hn with ⟨-, root, hans⟩ | ⟨-, hw, hcap, -⟩ | ⟨hfull, -⟩
  · exact hfunctors ▸ ⟨hans.heap, root, hans.captured⟩
  · exact hfunctors ▸ ⟨hw, hcap⟩
  · simp [hends] at hfull

/-- Whatever has been compiled and run before, a run of compiled code answers yes or no, unless its
terms may not fit on the heap. -/
theorem run_compiled_ends (hq : CompiledQuery capacities calls q query)
    (hp : CompiledProgram capacities calls p program) :
    (((create capacities).afterAll calls).run query program).1 = .ok true ∨
    (((create capacities).afterAll calls).run query program).1 = .ok false ∨
    (((create capacities).afterAll calls).run query program).1 =
        .error (.memory (.outOfMemory capacities.heap)) ∧
      capacities.heap <
        ((create capacities).afterAll calls).state.heap.top + q.queryCells + p.cells := by
  rcases run_cases hq hp rfl rfl with ⟨htrue, -⟩ | ⟨hfalse, -⟩ | ⟨hfull, hlt⟩
  · exact .inl htrue
  · exact .inr (.inl hfalse)
  · exact .inr (.inr ⟨hfull, by rw [Heap.top]; omega⟩)

/-- A program that repeats a variable, on a heap without room for its terms and on what earlier
code has left there. -/
theorem run_compiled_ends_full :
    let calls : List Call := [.query (.app "f" [.var "X", .atom "a"]),
      .program (.app "f" [.var "Y", .var "Y"]),
      .run ⟨[.putStructure 0 2 0, .setVariable 1], [("X", 1)]⟩ ⟨[.unifyVariable 5], []⟩]
    let query : Code :=
      ⟨[.putStructure 1 0 2, .putStructure 0 2 0, .setVariable 1, .setValue 2], [("X", 1)]⟩
    let program : Code := ⟨[.getStructure 0 2 0, .unifyVariable 1, .unifyValue 1], [("Y", 1)]⟩
    CompiledQuery ⟨6, 20, 9, 2⟩ calls (.app "f" [.var "X", .atom "a"]) query ∧
      CompiledProgram ⟨6, 20, 9, 2⟩ calls (.app "f" [.var "Y", .var "Y"]) program ∧
      ((((create ⟨6, 20, 9, 2⟩).afterAll calls).run query program).1 = .ok true ∨
        (((create ⟨6, 20, 9, 2⟩).afterAll calls).run query program).1 = .ok false ∨
        (((create ⟨6, 20, 9, 2⟩).afterAll calls).run query program).1 =
            .error (.memory (.outOfMemory 9)) ∧
          9 < ((create ⟨6, 20, 9, 2⟩).afterAll calls).state.heap.top + 6 + 4) := by
  intro calls query program
  have hq : CompiledQuery ⟨6, 20, 9, 2⟩ calls (.app "f" [.var "X", .atom "a"]) query :=
    ⟨[], calls.tail, rfl, by simp [calls], by rfl⟩
  have hp : CompiledProgram ⟨6, 20, 9, 2⟩ calls (.app "f" [.var "Y", .var "Y"]) program :=
    ⟨calls.take 1, calls.drop 2, rfl, by simp [calls], by rfl⟩
  exact ⟨hq, hp, run_compiled_ends hq hp⟩

end Machine
end TermMachine
