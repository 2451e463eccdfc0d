import TermMachine.Proofs.Machine.RoundTrip

/-! # A program that builds its term

A program that is run by itself finds the register of its term empty, so it builds the structure
there and every structure below it, parents first. A parent's block leaves a variable in the place
of each argument, and the block of the argument binds it. What comes of it is the term that the query
would have built, but no name is kept of its variables.
-/
namespace TermMachine

open Heap

namespace Run

variable {table : Functor.Table} {map : RegisterMap} {nodes : Array Term} {t : Term} {h : Heap}
  {r : RegisterFile} {c : Cursor}

/-- The first structure is built at the top of the heap, and the others are found below it. -/
theorem program_builds (hmap : map.Represents table t nodes) (hcount : nodes.size ≤ r.count)
    (happ : t.IsApp) (hempty : r.values[RegisterMap.root]? = none) :
    Ends (fun s => Queried table h.cells.size t nodes s ∧
        s.address RegisterMap.root = h.cells.size)
      (fun _ => False) t.cells h (Run.all (Code.programInstructions map t) ⟨h, r, c⟩) := by
  obtain ⟨b, hb, hreg, hfor⟩ := Block.exists_block hmap hmap.root happ
  have hparents := Block.parentsFirst_eq happ (hreg.symm ▸ hb)
  rw [hreg] at hparents
  have hfits := fits_of_mem hmap hcount
  rw [hparents] at hfits
  have hstart := ready_start table 0 h r c
  have hhead : Ends (Begun table h.cells.size ∅ .program b ⟨h, r, c⟩)
      (Refutes table h.cells.size ∅ [b] ⟨h, r, c⟩) 2 h
      ((Instruction.getStructure b.functor b.arity b.register).step ⟨h, r, c⟩) := by
    have hfit := hfits b List.mem_cons_self
    have hget : r.get b.register = .ok none := by
      rw [RegisterFile.get_of_lt hfit.register_lt, hreg, hempty]
    have hput := putStructure_ends (.inr rfl) hstart hfit (by simp)
    rw [Instruction.step, getStructure_eq, hget]
    exact hput.imp (fun _ => id) (fun _ => False.elim) (Nat.le_refl 2)
  -- the arguments have been met when the blocks below them come
  have hends := block_cons_ends (block_ends (hfits b List.mem_cons_self) hhead) fun s hs =>
    blocks_ends (headsWork_program table _) hs.ready
      (fun d hd => hs.keeps.count ▸ hfits d (List.mem_cons_of_mem b hd))
      (Block.schedule_flatMap fun p hp met hmet => Block.schedule_parentsFirst hmap (hfor.zip hp)
        (hmet _ (Block.mem_after.2 (.inr (.inl (List.of_mem_zip hp).1)))))
  rw [← hparents, cells_blocks hmap (.refl _),
    ← Code.programInstructions] at hends
  refine hends.imp (fun s hs => ⟨?_, ?_⟩) (fun s => not_refutes (s := ⟨h, r, c⟩) hmap (.refl _))
    (Nat.le_refl _)
  · exact Solved.queried (s := ⟨h, r, c⟩) hmap happ (.refl _) hs
  · rw [← hreg]
    exact hs.first b (by rw [hparents]; rfl) (by simp)

end Run

/-- Where nothing has a name, a fresh term is read with names made from the cells of its
variables. -/
theorem Fresh.exists_generated {m : Machine} {k root : Address} {q : Term} {c : Capture}
    (hf : Fresh m.functors k q m.state.heap c root) (hnames : m.names = .ok ∅) :
    ∃ cell : String → Address, Set.InjOn cell {a | a ∈ q.vars} ∧
      (∀ a ∈ q.vars, m.state.heap.cells[cell a]? = some (.ref (cell a))) ∧
      m.readTerm root = .ok (q.canon.rename fun a => Machine.generatedName (cell a)) := by
  have hcap := hf.captured
  have hcell : ∀ a ∈ q.vars, ∃ e x, (a, x) ∈ c.vars ∧ m.state.heap.Resolves x e ∧
      m.state.heap.cells[e]? = some (.ref e) := by
    intro a ha
    obtain ⟨x, hx⟩ := hcap.var_mem.1 ha
    obtain ⟨e, -, hr, he⟩ := hf.unbound hx
    exact ⟨e, x, hx, hr, he⟩
  choose! cell place hplace hresolves hself using hcell
  obtain ⟨read, hread⟩ := Machine.exists_reads hf.heap ∅
  refine ⟨cell, fun a ha b hb hab => ?_, hself, ?_⟩
  · exact hf.apart (hplace a ha) (hplace b hb) (hresolves a ha) (hab ▸ hresolves b hb)
  · have hprinted : ∀ {a : String} {x e : Address}, (a, x) ∈ c.vars →
        m.state.heap.Resolves x e →
        Machine.printedName ∅ e = Machine.generatedName (cell a) := by
      intro a x e hx hr
      have ha := hcap.var_mem.2 ⟨x, hx⟩
      obtain rfl := hcap.var_unique hx (hplace a ha)
      rw [hr.unique (hresolves a ha)]
      simp [Machine.printedName]
    rw [← hf.read_root (fun a ha => (hread a ha).2) hprinted, Machine.readTerm, hnames]
    exact (hread root hcap.root_term).1

namespace Machine

variable {table : Functor.Table} {registers : Nat} {t : Term} {program : Code} {h : Heap}
  {r : RegisterFile} {capacities : Capacities} {calls : List Call}

theorem runState_program (hp : Code.IsProgram table registers t program) (happ : t.IsApp)
    (hr : r.count = registers) (hroom : h.cells.size + t.cells ≤ h.capacity) :
    ∃ s c, runState .empty program h r = (.ok true, s, .empty) ∧
      Fresh table h.cells.size t s.heap c h.cells.size := by
  obtain ⟨map, nodes, hmap, hsize, rfl⟩ := hp
  subst hr
  have hends := Run.program_builds (h := h) (r := r.clear) (c := .outside .read) hmap hsize happ
    (by simp [RegisterFile.clear])
  obtain ⟨s, hrun, hqueried, hroot⟩ := hends.exists_matched hroom
  obtain ⟨c, -, hfresh, -⟩ := hqueried.fresh hmap
  refine ⟨s, c, ?_, hroot ▸ hfresh⟩
  unfold runState
  dsimp only [Code.empty, Run.all, Capture.ofRegisters, Capture.loadVariables,
    List.isEmpty_nil, if_true]
  rw [hrun]
  rfl

/-- A program that is run by itself, and the term that it leaves at what was the top of the heap. -/
theorem run_program_fresh (hp : CompiledProgram capacities calls t program) (happ : t.IsApp)
    {m n : Machine} (hm : m = (create capacities).afterAll calls)
    (hn : n = (m.run .empty program).2)
    (hroom : m.state.heap.top + t.cells ≤ capacities.heap) :
    (m.run .empty program).1 = .ok true ∧ n.capture = .empty ∧
      ∃ c, Fresh n.functors m.state.heap.top t n.state.heap c m.state.heap.top := by
  have hcount := afterAll_count capacities calls
  have hcap := afterAll_heap_capacity capacities calls
  have hp' := hp.isProgram
  rw [← hm] at hcount hcap hp'
  obtain ⟨s, c, heq, hfresh⟩ := runState_program hp' happ hcount (hcap ▸ hroom)
  rw [run_eq, heq] at hn ⊢
  rw [hn]
  exact ⟨rfl, rfl, c, hfresh⟩

/-- What compiles as a program compiles as a query. -/
theorem exists_compileQuery {m : Machine} (hp : (m.compileProgram t).1 = .ok program)
    (happ : t.IsApp) : ∃ query, (m.compileQuery t).1 = .ok query := by
  have hcompile := load_eq_ok hp
  rw [Code.program_eq_compileWith] at hcompile
  obtain ⟨map, hmap, rfl⟩ := Code.compileWith_eq_ok hcompile
  obtain ⟨nodes, hrep, -⟩ := RegisterMap.allocate_eq_ok hmap
  have hlength := Code.length_queryInstructions hrep happ
  have hroom : m.code.length + Code.size ⟨Code.queryInstructions map t,
      Code.sortedVariables map⟩ ≤ m.capacities.code := by
    rw [Code.size, hlength]
    exact (load_room hp).1
  have hquery : Code.compileWith Code.queryInstructions t m.functors m.capacities.registers = _ :=
    Code.compileWith_of_allocate hmap
  rw [← Code.query_eq_compileWith] at hquery
  exact ⟨_, by rw [compileQuery, load_of_room hquery hroom]⟩

/-- With room on the heap, a program that is run by itself builds its term at the top. It is read
with empty structures as atoms, and with names made from different addresses for its variables: it is
the term that the query would have built, but for these names. -/
theorem run_program_readBack {m n : Machine} (hm : m = (create capacities).afterAll calls)
    (hp : (m.compileProgram t).1 = .ok program) (happ : t.IsApp)
    (hroom : m.state.heap.top + t.cells ≤ capacities.heap)
    (hn : n = ((m.compileProgram t).2.run .empty program).2) :
    ((m.compileProgram t).2.run .empty program).1 = .ok true ∧ n.queryTerm = .ok none ∧
      ∃ cell : String → Address,
        Set.InjOn (fun a => generatedName (cell a)) {a | a ∈ t.vars} ∧
        (∀ a ∈ t.vars, n.state.heap.cells[cell a]? = some (.ref (cell a))) ∧
        n.readTerm m.state.heap.top =
          .ok (t.canon.rename fun a => generatedName (cell a)) ∧
        ∃ query, (m.compileQuery t).1 = .ok query ∧
          ((m.compileQuery t).2.run query .empty).2.queryTerm = .ok (some t.canon) := by
  have hstate : (m.compileProgram t).2.state = m.state := (load_keeps _ m).1
  have hprogram : CompiledProgram capacities (calls ++ [.program t]) t program :=
    ⟨calls, [], rfl, by simp, hm ▸ hp⟩
  have hafter : (m.compileProgram t).2 = (create capacities).afterAll (calls ++ [.program t]) := by
    rw [afterAll_append, ← hm]
    rfl
  obtain ⟨htrue, hcapture, c, hfresh⟩ :=
    run_program_fresh hprogram happ hafter hn (hstate.symm ▸ hroom)
  have hnames : n.names = .ok ∅ := by
    rw [names, hcapture]
    rfl
  obtain ⟨cell, hinj, hself, hread⟩ := hfresh.exists_generated hnames
  obtain ⟨query, hquery⟩ := exists_compileQuery hp happ
  have hcompiled : CompiledQuery capacities (calls ++ [.query t]) t query :=
    ⟨calls, [], rfl, by simp, hm ▸ hquery⟩
  have hqafter : (m.compileQuery t).2 = (create capacities).afterAll (calls ++ [.query t]) := by
    rw [afterAll_append, ← hm]
    rfl
  have hqstate : (m.compileQuery t).2.state = m.state := (load_keeps _ m).1
  obtain ⟨-, ⟨root, hqfresh⟩, -⟩ := run_query_fresh hcompiled hqafter rfl
    (by rw [hqstate, Term.queryCells_of_isApp happ]; exact hroom)
  refine ⟨htrue, ?_, cell, generatedName_injective.comp_injOn hinj, hself, hstate ▸ hread,
    query, hquery, hqfresh.readBack.1⟩
  rw [queryTerm, hcapture]
  rfl

/-- A program with a shared variable and an empty structure, behind two cells of earlier. -/
theorem run_program_readBack_shared :
    let t : Term := .app "f" [.app "g" [.var "Y"], .app "h" [], .var "X", .var "Y"]
    let program : Code := ⟨[.getStructure 1 4 0, .unifyVariable 1, .unifyVariable 2,
      .unifyVariable 3, .unifyVariable 4, .getStructure 2 1 1, .unifyValue 4,
      .getStructure 3 0 2], [("X", 3), ("Y", 4)]⟩
    let m := (create ⟨5, 9, 13, 4⟩).afterAll
      [.program (.atom "a"), .run .empty ⟨[.getStructure 0 0 0], []⟩]
    let n := ((m.compileProgram t).2.run .empty program).2
    (m.compileProgram t).1 = .ok program ∧ t.IsApp ∧ m.state.heap.top + t.cells ≤ 13 ∧
      ((m.compileProgram t).2.run .empty program).1 = .ok true ∧ n.queryTerm = .ok none ∧
      ∃ cell : String → Address,
        Set.InjOn (fun a => generatedName (cell a)) {a | a ∈ t.vars} ∧
        (∀ a ∈ t.vars, n.state.heap.cells[cell a]? = some (.ref (cell a))) ∧
        n.readTerm m.state.heap.top =
          .ok (t.canon.rename fun a => generatedName (cell a)) ∧
        ∃ query, (m.compileQuery t).1 = .ok query ∧
          ((m.compileQuery t).2.run query .empty).2.queryTerm = .ok (some t.canon) := by
  intro t program m n
  have hp : (m.compileProgram t).1 = .ok program := by decide +kernel
  have hroom : m.state.heap.top + t.cells ≤ 13 := by decide +kernel
  exact ⟨hp, trivial, hroom, run_program_readBack rfl hp trivial hroom rfl⟩

end Machine
end TermMachine
