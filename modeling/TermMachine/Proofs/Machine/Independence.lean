import TermMachine.Proofs.Machine.Provenance
import TermMachine.Proofs.Machine.Relocation

/-! # A run does not depend on the past

What a machine has compiled and run before leaves cells on its heap, functors in its table and code
in its code zone. A run of compiled code does not read any of it: a fresh machine with the same
capacities compiles the same terms, gives the same answer, and builds the same cells, but for where
they stand and for the numbers of the functors.
-/
namespace TermMachine

open Functor.Table

namespace Machine

variable {compile compile' : Functor.Table → Nat → Except CompileError Code × Functor.Table}
  {capacities : Capacities} {calls : List Call} {m : Machine} {q p : Term}
  {query program code code' : Code} {later : Functor.Table}

theorem load_code_length (compile : Functor.Table → Nat → Except CompileError Code × Functor.Table)
    (m : Machine) : m.code.length ≤ (load compile m).2.code.length := by
  rw [load_eq]
  rcases compile m.functors m.capacities.registers with ⟨_ | new, functors⟩
  · exact Nat.le_refl _
  · dsimp only
    by_cases hroom : m.code.length + new.size ≤ m.capacities.code
    · rw [if_pos hroom, List.length_append]
      exact Nat.le_add_right _ _
    · rw [if_neg hroom]

/-- Code stays in the code zone until the machine is reset. -/
theorem afterAll_code_length (h : Call.reset ∉ calls) :
    m.code.length ≤ (m.afterAll calls).code.length := by
  induction calls generalizing m with
  | nil => exact Nat.le_refl _
  | cons call calls ih =>
    have hone : m.code.length ≤ (m.after call).code.length := by
      cases call with
      | query t => exact load_code_length _ m
      | program t => exact load_code_length _ m
      | run query program => exact Nat.le_refl _
      | reset => exact absurd List.mem_cons_self h
    exact Nat.le_trans hone (ih fun hmem => h (List.mem_cons_of_mem call hmem))

/-- Two codes that are in the code zone together fit into it. -/
theorem load_load_room (h : (load compile m).1 = .ok code) (hreset : Call.reset ∉ calls)
    (h' : (load compile' ((load compile m).2.afterAll calls)).1 = .ok code') :
    code.size + code'.size ≤ m.capacities.code := by
  have hcap : ((load compile m).2.afterAll calls).capacities = m.capacities :=
    afterAll_induction (I := fun n => n.capacities = m.capacities) (load_keeps compile m).2.1
      (fun n call hn => (after_capacities n call).trans hn) calls
  have hlen := afterAll_code_length (m := (load compile m).2) hreset
  have hroom := (load_room h').1
  rw [(load_room h).2, List.length_append] at hlen
  rw [hcap] at hroom
  have hsize : code.size = code.instructions.length := rfl
  omega

/-- Of two calls of a history one is made before the other. -/
theorem exists_between {c d : Call} (hne : c ≠ d) {before before' later later' : List Call}
    (h : before ++ c :: later = before' ++ d :: later') :
    (∃ between, before' = before ++ c :: between ∧ later = between ++ d :: later') ∨
      ∃ between, before = before' ++ d :: between ∧ later' = between ++ c :: later := by
  rcases List.append_eq_append_iff.1 h with ⟨between, hbefore, hrest⟩ | ⟨between, hbefore, hrest⟩
  · cases between with
    | nil => exact absurd (List.cons.inj hrest).1 hne
    | cons e between =>
      obtain ⟨rfl, rfl⟩ := List.cons.inj hrest
      exact .inl ⟨between, hbefore, rfl⟩
  · cases between with
    | nil => exact absurd (List.cons.inj hrest).1.symm hne
    | cons e between =>
      obtain ⟨rfl, rfl⟩ := List.cons.inj hrest
      exact .inr ⟨between, hbefore, rfl⟩

theorem code_size_le (hq : CompiledQuery capacities calls q query)
    (hp : CompiledProgram capacities calls p program) :
    query.size + program.size ≤ capacities.code := by
  obtain ⟨before, later, rfl, hreset, hquery⟩ := hq
  obtain ⟨before', later', heq, hreset', hprogram⟩ := hp
  rcases exists_between (by simp) heq with ⟨between, rfl, rfl⟩ | ⟨between, rfl, rfl⟩
  · rw [afterAll_append] at hprogram
    have hle := load_load_room hquery (fun hmem => hreset (List.mem_append_left _ hmem)) hprogram
    rwa [afterAll_capacities] at hle
  · rw [afterAll_append] at hquery
    have hle := load_load_room hprogram (fun hmem => hreset' (List.mem_append_left _ hmem)) hquery
    rwa [afterAll_capacities, Nat.add_comm] at hle

def prepared (capacities : Capacities) (q p : Term) : Machine :=
  (((create capacities).compileQuery q).2.compileProgram p).2

/-- A fresh machine compiles both terms, and the run of their codes answers `b` and leaves `n`. -/
def RunsFresh (capacities : Capacities) (q p : Term) (b : Bool) (n : Machine) : Prop :=
  ∃ query program, ((create capacities).compileQuery q).1 = .ok query ∧
    (((create capacities).compileQuery q).2.compileProgram p).1 = .ok program ∧
    (prepared capacities q p).run query program = (.ok b, n)

theorem prepared_state (capacities : Capacities) (q p : Term) :
    (prepared capacities q p).state = (create capacities).state := by
  rw [prepared, compileProgram, (load_keeps _ _).1, compileQuery, (load_keeps _ _).1]

/-- A fresh machine compiles the two terms to the same code, up to the ids. -/
theorem compile_fresh (hq : CompiledQuery capacities calls q query)
    (hp : CompiledProgram capacities calls p program) :
    ∃ query₀ program₀, ((create capacities).compileQuery q).1 = .ok query₀ ∧
      (((create capacities).compileQuery q).2.compileProgram p).1 = .ok program₀ ∧
      (prepared capacities q p).functors.Covered ((create capacities).afterAll calls).functors ∧
      ∀ ρ, Carries ρ (prepared capacities q p).functors
          ((create capacities).afterAll calls).functors →
        query = query₀.rename ρ ∧ program = program₀.rename ρ := by
  have hroom := code_size_le hq hp
  obtain ⟨_, _, hquery, hext⟩ := hq.exists_compile
  obtain ⟨_, _, hprogram, hext'⟩ := hp.exists_compile
  obtain ⟨query₀, table₁, hq₀, -, hcov₁, hsame⟩ :=
    Code.query_repeats hquery hext (covered_empty (afterAll_bounded capacities calls))
  obtain ⟨program₀, table₂, hp₀, hgrow, hcov₂, hsame'⟩ :=
    Code.program_repeats hprogram hext' hcov₁
  have hcarry := carries_renumber hcov₂
  -- the codes are as long as those of the machine, which have found room together
  have hqsize : query.size = query₀.size := by
    rw [hsame _ (hcarry.of_extends hgrow), Code.size_rename]
  have hpsize : program.size = program₀.size := by
    rw [hsame' _ hcarry, Code.size_rename]
  have hqroom : (create capacities).code.length + query₀.size ≤ capacities.code := by
    rw [create, List.length_nil]
    omega
  have hqload : (create capacities).compileQuery q = _ := load_of_room hq₀ hqroom
  have hproom : ((create capacities).code ++ query₀.instructions).length + program₀.size ≤
      capacities.code := by
    rw [create, List.nil_append, ← Code.size]
    omega
  rw [prepared, hqload]
  have hpload := load_of_room (m := { create capacities with
    functors := table₁
    code := (create capacities).code ++ query₀.instructions }) hp₀ hproom
  rw [compileProgram, hpload]
  exact ⟨query₀, program₀, rfl, rfl, hcov₂,
    fun ρ hρ => ⟨hsame ρ (hρ.of_extends hgrow), hsame' ρ hρ⟩⟩

/-- The functors on the heap of a fresh machine are in its table. -/
theorem run_functor_known (hq : ((create capacities).compileQuery q).1 = .ok query)
    (hp : (((create capacities).compileQuery q).2.compileProgram p).1 = .ok program) {b : Bool}
    {n : Machine} (hrun : (prepared capacities q p).run query program = (.ok b, n)) {a : Address}
    {f : FunctorId} {arity : Arity} (hf : n.state.heap.cells[a]? = some (.functor f arity)) :
    ∃ name, (prepared capacities q p).functors.lookup f = some ⟨name, arity⟩ := by
  have hcalls : prepared capacities q p =
    (create capacities).afterAll [.query q, .program p] := rfl
  have hq' : CompiledQuery capacities [.query q, .program p] q query :=
    ⟨[], [.program p], rfl, by simp, hq⟩
  have hp' : CompiledProgram capacities [.query q, .program p] p program :=
    ⟨[.query q], [], rfl, by simp, hp⟩
  have hbase : (prepared capacities q p).state.heap.cells.size ≤ a := by
    rw [prepared_state]
    exact Nat.zero_le a
  rcases run_cases hq' hp' hcalls (congrArg Prod.snd hrun).symm with
    ⟨-, root, hans⟩ | ⟨-, hbuilt, -⟩ | ⟨hfull, -⟩
  · exact hans.heap.known hbase hf
  · exact hbuilt.known hbase hf
  · rw [hrun] at hfull
    cases hfull

/-- A machine with an empty heap runs as one with cells on its heap. -/
theorem run_follows {m n : Machine} {ρ : FunctorId → FunctorId} (hρ : Function.Injective ρ)
    (hempty : n.state.heap = Heap.empty m.state.heap.capacity)
    (hcount : m.state.registers.count = n.state.registers.count) {b : Bool}
    (hrun : (m.run (query.rename ρ) (program.rename ρ)).1 = .ok b) :
    (n.run query program).1 = .ok b ∧
      (m.run (query.rename ρ) (program.rename ρ)).2.state.heap.cells =
        m.state.heap.cells ++
          (n.run query program).2.state.heap.cells.map (Cell.move m.state.heap.top ρ) := by
  have hheap : n.state.heap.relocate m.state.heap.cells ρ = m.state.heap := by
    rw [hempty, Heap.relocate_empty]
  rw [run_eq, ← hheap] at hrun
  obtain ⟨hb, hmoves⟩ := runState_follows hρ hcount query program n.state.heap hrun
  rw [hheap] at hmoves
  refine ⟨hb, ?_⟩
  rw [run_eq, run_eq]
  exact congrArg Heap.cells hmoves.heap_eq

/-- Whatever a machine has done before, a run of compiled code goes as on a fresh machine. It leaves
the cells that it finds and appends those of the fresh machine, moved up behind them, with the ids
that the machine has for the same functors. -/
theorem run_independent (hq : CompiledQuery capacities calls q query)
    (hp : CompiledProgram capacities calls p program) {b : Bool}
    (hrun : (((create capacities).afterAll calls).run query program).1 = .ok b) :
    ∃ n ρ, RunsFresh capacities q p b n ∧
      (((create capacities).afterAll calls).run query program).2.state.heap.cells =
        ((create capacities).afterAll calls).state.heap.cells ++
          n.state.heap.cells.map
            (Cell.move ((create capacities).afterAll calls).state.heap.top ρ) ∧
      ∀ f arity, Cell.functor f arity ∈ n.state.heap.cells → ∃ name,
        n.functors.lookup f = some ⟨name, arity⟩ ∧
        (((create capacities).afterAll calls).run query program).2.functors.lookup (ρ f) =
          some ⟨name, arity⟩ := by
  obtain ⟨query₀, program₀, hq₀, hp₀, hcov, hcode⟩ := compile_fresh hq hp
  have hcarry := carries_renumber hcov
  obtain ⟨rfl, rfl⟩ := hcode _ hcarry
  have hempty : (prepared capacities q p).state.heap =
      Heap.empty ((create capacities).afterAll calls).state.heap.capacity := by
    rw [prepared_state, afterAll_heap_capacity, create]
  have hcount : ((create capacities).afterAll calls).state.registers.count =
      (prepared capacities q p).state.registers.count := by
    rw [prepared_state, afterAll_count, create, RegisterFile.empty]
  obtain ⟨hb, hcells⟩ := run_follows (renumber_injective hcov) hempty hcount hrun
  have hfresh : (prepared capacities q p).run query₀ program₀ = (.ok b, _) := Prod.ext hb rfl
  refine ⟨_, _, ⟨query₀, program₀, hq₀, hp₀, hfresh⟩, hcells, fun f arity hf => ?_⟩
  obtain ⟨a, hfa⟩ := Array.mem_iff_getElem?.1 hf
  obtain ⟨name, hname⟩ := run_functor_known hq₀ hp₀ hfresh hfa
  exact ⟨name, hname, hcarry hname⟩

/-- A run behind the cells of one that has failed, on a machine that has numbered the functors the
other way round. -/
theorem run_independent_after_failure :
    let q : Term := .app "f" [.var "X"]
    let p : Term := .app "f" [.app "g" [.var "Y"]]
    let calls : List Call := [.program (.app "g" [.var "X"]),
      .run ⟨[.putStructure 0 1 0, .setVariable 1], []⟩ ⟨[.unifyValue 3], []⟩, .query q, .program p]
    let query : Code := ⟨[.putStructure 1 1 0, .setVariable 1], [("X", 1)]⟩
    let program : Code := ⟨[.getStructure 1 1 0, .unifyVariable 1, .getStructure 0 1 1,
      .unifyVariable 2], [("Y", 2)]⟩
    CompiledQuery ⟨4, 20, 11, 2⟩ calls q query ∧
      CompiledProgram ⟨4, 20, 11, 2⟩ calls p program ∧
      (((create ⟨4, 20, 11, 2⟩).afterAll calls).run query program).1 = .ok true ∧
      ∃ n ρ, RunsFresh ⟨4, 20, 11, 2⟩ q p true n ∧
        (((create ⟨4, 20, 11, 2⟩).afterAll calls).run query program).2.state.heap.cells =
          ((create ⟨4, 20, 11, 2⟩).afterAll calls).state.heap.cells ++
            n.state.heap.cells.map
              (Cell.move ((create ⟨4, 20, 11, 2⟩).afterAll calls).state.heap.top ρ) ∧
        ∀ f arity, Cell.functor f arity ∈ n.state.heap.cells → ∃ name,
          n.functors.lookup f = some ⟨name, arity⟩ ∧
          (((create ⟨4, 20, 11, 2⟩).afterAll calls).run query program).2.functors.lookup (ρ f) =
            some ⟨name, arity⟩ := by
  intro q p calls query program
  have hq : CompiledQuery ⟨4, 20, 11, 2⟩ calls q query :=
    ⟨calls.take 2, [.program p], rfl, by simp, by decide +kernel⟩
  have hp : CompiledProgram ⟨4, 20, 11, 2⟩ calls p program :=
    ⟨calls.take 3, [], rfl, by simp, by decide +kernel⟩
  have hrun : (((create ⟨4, 20, 11, 2⟩).afterAll calls).run query program).1 = .ok true := by
    decide +kernel
  exact ⟨hq, hp, hrun, run_independent hq hp hrun⟩

end Machine
end TermMachine
