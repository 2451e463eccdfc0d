import TermMachine.Proofs.Code.Emission
import TermMachine.Proofs.Code.Equations

/-! # Compiled code

What the two compilers answer with: the blocks of the term in one of the two orders, and the
registers of its variables. Later functors leave compiled code right.
-/
namespace TermMachine

namespace RegisterMap

variable {table : Functor.Table} {t : Term} {nodes : Array Term} {map : RegisterMap}

theorem mem_vars {map : RegisterMap} {name : String} {x : Register} :
    (name, x) ∈ map.vars ↔ map.rows[x]? = some (.var name) := by
  simp only [vars, List.mem_filterMap, Prod.exists]
  constructor
  · rintro ⟨row, y, hmem, heq⟩
    rw [List.mk_mem_zipIdx_iff_getElem?, Array.getElem?_toList] at hmem
    cases row with
    | var a =>
      simp only [Option.some.injEq, Prod.mk.injEq] at heq
      rw [← heq.1, ← heq.2, hmem]
    | app f n xs => simp at heq
  · intro hrow
    exact ⟨.var name, x, by rw [List.mk_mem_zipIdx_iff_getElem?, Array.getElem?_toList, hrow], rfl⟩

theorem vars_increasing (map : RegisterMap) : map.vars.Pairwise fun a b => a.2 < b.2 := by
  have hidx : (map.rows.toList.zipIdx.map Prod.snd).Pairwise (· < ·) := by
    rw [List.zipIdx_eq_zip_range', List.map_snd_zip (by simp)]
    exact List.pairwise_lt_range'
  refine List.pairwise_filterMap.2 ((List.pairwise_map.1 hidx).imp ?_)
  rintro ⟨row, x⟩ ⟨row', x'⟩ hlt c hc c' hc'
  cases row with
  | app f n xs => cases hc
  | var a =>
    cases row' with
    | app f n xs => cases hc'
    | var a' =>
      cases hc
      cases hc'
      exact hlt

namespace Represents

theorem mem_sortedVariables (h : map.Represents table t nodes) {name : String} {x : Register} :
    (name, x) ∈ Code.sortedVariables map ↔ nodes[x]? = some (.var name) := by
  have hdistinct : map.vars.Pairwise fun a b => ¬compare a.1 b.1 = .eq := by
    refine map.vars_increasing.imp_of_mem fun {a b} ha hb hlt heq => ?_
    have hname : a.1 = b.1 := Std.LawfulEqCmp.eq_of_compare heq
    have hxa := h.var_row.1 (mem_vars.1 ha)
    have hxb := h.var_row.1 (mem_vars.1 hb)
    exact absurd (h.var_unique hxa (hname ▸ hxb)) (Nat.ne_of_lt hlt)
  rw [← h.var_row, ← mem_vars, Code.sortedVariables, Std.TreeMap.mem_toList_iff_getElem?_eq_some]
  constructor
  · intro hget
    have hmem : name ∈ Std.TreeMap.ofList map.vars :=
      Std.TreeMap.mem_iff_isSome_getElem?.2 (by simp [hget])
    rw [Std.TreeMap.mem_ofList, List.contains_iff_mem, List.mem_map] at hmem
    obtain ⟨⟨a, y⟩, hay, rfl⟩ := hmem
    have hget' : (Std.TreeMap.ofList map.vars)[a]? = some y :=
      Std.TreeMap.getElem?_ofList_of_mem Std.ReflCmp.compare_self hdistinct hay
    rw [hget, Option.some.injEq] at hget'
    exact hget' ▸ hay
  · exact Std.TreeMap.getElem?_ofList_of_mem Std.ReflCmp.compare_self hdistinct

/-- Every variable has a register, which is the term's own or an argument of one of its blocks. -/
theorem exists_register (h : map.Represents table t nodes) {x : Register} {u : Term}
    (hx : nodes[x]? = some u) {a : String} (ha : a ∈ u.vars) :
    ∃ z, nodes[z]? = some (.var a) ∧
      (z = x ∨ ∃ b ∈ Block.parentsFirst map x u [], z ∈ b.arguments) := by
  refine Block.induction_on h (P := fun x u => a ∈ u.vars → ∃ z, nodes[z]? = some (.var a) ∧
    (z = x ∨ ∃ b ∈ Block.parentsFirst map x u [], z ∈ b.arguments)) ?_ ?_ hx ha
  · intro x name hx ha
    obtain rfl : a = name := by simpa [Term.vars] using ha
    exact ⟨x, hx, .inl rfl⟩
  · intro b u hfor hb ih ha
    obtain ⟨w, hw, haw⟩ : ∃ w ∈ u.args, a ∈ w.vars := by
      cases u with
      | var name => exact hfor.isApp.elim
      | atom name => simp [Term.vars] at ha
      | app name args => exact Term.mem_varsAll.1 ha
    obtain ⟨i, hi, rfl⟩ := List.getElem_of_mem hw
    have hlt : i < (b.arguments.zip u.args).length := by
      rw [List.length_zip, hfor.arguments.length_eq, Nat.min_self]
      exact hi
    have hzip := List.getElem_mem hlt
    rw [List.getElem_zip] at hzip
    obtain ⟨z, hz, hplace⟩ := ih _ hzip haw
    refine ⟨z, hz, .inr ?_⟩
    rw [Block.parentsFirst_eq hfor.isApp hb]
    rcases hplace with rfl | ⟨c, hc, hzc⟩
    · exact ⟨b, List.mem_cons_self, (List.of_mem_zip hzip).1⟩
    · exact ⟨c, List.mem_cons_of_mem b (List.mem_flatMap.2 ⟨_, hzip, hc⟩), hzc⟩

end Represents
end RegisterMap

namespace Block

theorem argumentCode_congr {met met' : Std.TreeSet Register} (h : ∀ y, y ∈ met ↔ y ∈ met')
    (style : Style) (xs : List Register) :
    argumentCode style met xs = argumentCode style met' xs := by
  induction xs generalizing met met' with
  | nil => rfl
  | cons x xs ih =>
    simp only [argumentCode, h x]
    exact congrArg _ (ih fun y => by rw [mem_meet, mem_meet, h y])

/-- Only which registers have been met matters to code. -/
theorem code_congr {met met' : Std.TreeSet Register} (h : ∀ y, y ∈ met ↔ y ∈ met') (style : Style)
    (bs : List Block) : code style met bs = code style met' bs := by
  induction bs generalizing met met' with
  | nil => rfl
  | cons b bs ih =>
    have hargs : argumentCode style (met.insert b.register) b.arguments =
        argumentCode style (met'.insert b.register) b.arguments :=
      argumentCode_congr (fun y => by rw [mem_insert, mem_insert, h y]) style b.arguments
    have hrest : code style (b.after met) bs = code style (b.after met') bs :=
      ih fun y => by simp only [mem_after, h y]
    rw [code, code, hargs, hrest]

/-- The register of the first block counts as met. -/
theorem code_insert (style : Style) (met : Std.TreeSet Register) (b : Block) (bs : List Block) :
    code style (met.insert b.register) (b :: bs) = code style met (b :: bs) := by
  have hargs : argumentCode style ((met.insert b.register).insert b.register) b.arguments =
      argumentCode style (met.insert b.register) b.arguments :=
    argumentCode_congr (fun y => by simp only [mem_insert]; tauto) style b.arguments
  have hrest : code style (b.after (met.insert b.register)) bs = code style (b.after met) bs :=
    code_congr (fun y => by simp only [mem_after, mem_insert]; tauto) style bs
  rw [code, code, hargs, hrest]

end Block

namespace Code

def queryInstructions (map : RegisterMap) : Term → List Instruction
  | .var _ => [.setVariable RegisterMap.root]
  | t => Block.code .query ∅ (Block.childrenFirst map RegisterMap.root t [])

def programInstructions (map : RegisterMap) (t : Term) : List Instruction :=
  Block.code .program ∅ (Block.parentsFirst map RegisterMap.root t [])

/-- Code that builds the term as a query, in so many registers and with the functors of a table. -/
def IsQuery (table : Functor.Table) (registers : Nat) (t : Term) (code : Code) : Prop :=
  ∃ map nodes, RegisterMap.Represents table t nodes map ∧ nodes.size ≤ registers ∧
    code = ⟨queryInstructions map t, sortedVariables map⟩

def IsProgram (table : Functor.Table) (registers : Nat) (t : Term) (code : Code) : Prop :=
  ∃ map nodes, RegisterMap.Represents table t nodes map ∧ nodes.size ≤ registers ∧
    code = ⟨programInstructions map t, sortedVariables map⟩

variable {table table' : Functor.Table} {registers : Nat} {t : Term} {code : Code}

theorem sortedVariables_pairwise (map : RegisterMap) :
    ((sortedVariables map).map Prod.fst).Pairwise (· < ·) := by
  have hordered := (Std.TreeMap.ofList map.vars).ordered_keys_toList
  exact List.pairwise_map.2 (hordered.imp fun hlt => compareOfLessAndEq_eq_lt.1 hlt)

theorem IsQuery.mono (h : IsQuery table registers t code) (ht : table.Extends table') :
    IsQuery table' registers t code := by
  obtain ⟨map, nodes, hmap, hsize, hcode⟩ := h
  exact ⟨map, nodes, hmap.mono ht, hsize, hcode⟩

theorem IsProgram.mono (h : IsProgram table registers t code) (ht : table.Extends table') :
    IsProgram table' registers t code := by
  obtain ⟨map, nodes, hmap, hsize, hcode⟩ := h
  exact ⟨map, nodes, hmap.mono ht, hsize, hcode⟩

theorem queryInstructions_eq (map : RegisterMap) (happ : t.IsApp) :
    queryInstructions map t =
      Block.code .query ∅ (Block.childrenFirst map RegisterMap.root t []) := by
  cases t with
  | var name => exact happ.elim
  | atom name => rfl
  | app name args => rfl

/-- The emitter of a query writes the code of the term that the map is for. -/
theorem ofMap_query {nodes : Array Term} {map : RegisterMap} (h : map.Represents table t nodes) :
    ofMap Emitter.query map = .ok ⟨queryInstructions map t, sortedVariables map⟩ := by
  unfold ofMap
  rcases t.eq_var_or_isApp with ⟨name, rfl⟩ | happ
  · have hget : map.get RegisterMap.root = .ok (.var name) := Emitter.get_var h h.root
    have hnew : RegisterMap.root ∉ Emitter.empty.known := by simp [Emitter.empty]
    rw [Emitter.query, if_neg hnew, hget]
    rfl
  · obtain ⟨e, hquery, hwrites⟩ := Emitter.query_writes h h.root happ (e := .empty)
      (Block.schedule_childrenFirst h h.root) (Nat.lt_succ_self map.rows.size)
    rw [hquery]
    dsimp only
    rw [hwrites.code, queryInstructions_eq map happ]
    rfl

theorem ofMap_program {nodes : Array Term} {map : RegisterMap} (h : map.Represents table t nodes) :
    ofMap Emitter.program map = .ok ⟨programInstructions map t, sortedVariables map⟩ := by
  obtain ⟨e, hprogram, hwrites⟩ := Emitter.program_writes h h.root (e := .empty)
    (Nat.succ_pos map.rows.size) fun _ => Nat.lt_succ_self map.rows.size
  rw [ofMap, hprogram]
  dsimp only
  rw [hwrites.code]
  rfl

def compileWith (emit : RegisterMap → Term → List Instruction) (t : Term)
    (functors : Functor.Table) (registers : Nat) : Except CompileError Code × Functor.Table :=
  match RegisterMap.allocate t functors registers with
  | (.error e, functors) => (.error e, functors)
  | (.ok map, functors) => (.ok ⟨emit map t, sortedVariables map⟩, functors)

theorem compile_eq_compileWith
    {write : RegisterMap → Nat → Emitter → Register → Except CompileError Emitter}
    {emit : RegisterMap → Term → List Instruction}
    (hwrite : ∀ {table t nodes} {map : RegisterMap}, map.Represents table t nodes →
      ofMap write map = .ok ⟨emit map t, sortedVariables map⟩) :
    compile write = compileWith emit := by
  funext t table registers
  unfold compile compileWith
  rcases hmap : RegisterMap.allocate t table registers with ⟨e | map, later⟩
  · rfl
  · obtain ⟨nodes, hrep, -⟩ := RegisterMap.allocate_eq_ok hmap
    dsimp only
    rw [hwrite hrep]

theorem query_eq_compileWith : query = compileWith queryInstructions :=
  compile_eq_compileWith ofMap_query

theorem program_eq_compileWith : program = compileWith programInstructions :=
  compile_eq_compileWith ofMap_program

variable {emit : RegisterMap → Term → List Instruction}

theorem compileWith_eq_ok (h : compileWith emit t table registers = (.ok code, table')) :
    ∃ map, RegisterMap.allocate t table registers = (.ok map, table') ∧
      code = ⟨emit map t, sortedVariables map⟩ := by
  unfold compileWith at h
  rcases hmap : RegisterMap.allocate t table registers with ⟨_ | map, table₁⟩
  · simp [hmap] at h
  · simp only [hmap, Prod.mk.injEq, Except.ok.injEq] at h
    obtain ⟨rfl, rfl⟩ := h
    exact ⟨map, rfl, rfl⟩

theorem compileWith_of_allocate {map : RegisterMap}
    (h : RegisterMap.allocate t table registers = (.ok map, table')) :
    compileWith emit t table registers = (.ok ⟨emit map t, sortedVariables map⟩, table') := by
  rw [compileWith, h]

/-- What interning a functor keeps of a table, compiling keeps. -/
theorem compileWith_keeps {I : Functor.Table → Prop}
    (hI : ∀ table f, I table → I (table.intern f).2)
    (emit : RegisterMap → Term → List Instruction) (t : Term) (registers : Nat) (h : I table) :
    I (compileWith emit t table registers).2 := by
  have hkept := RegisterMap.allocate_keeps hI t registers h
  unfold compileWith
  rcases hmap : RegisterMap.allocate t table registers with ⟨_ | map, table₁⟩
  · rwa [hmap] at hkept
  · rwa [hmap] at hkept

theorem query_eq_ok (h : query t table registers = (.ok code, table')) :
    IsQuery table' registers t code := by
  rw [query_eq_compileWith] at h
  obtain ⟨map, hmap, rfl⟩ := compileWith_eq_ok h
  obtain ⟨nodes, hrep, hsize⟩ := RegisterMap.allocate_eq_ok hmap
  exact ⟨map, nodes, hrep, hsize, rfl⟩

theorem program_eq_ok (h : program t table registers = (.ok code, table')) :
    IsProgram table' registers t code := by
  rw [program_eq_compileWith] at h
  obtain ⟨map, hmap, rfl⟩ := compileWith_eq_ok h
  obtain ⟨nodes, hrep, hsize⟩ := RegisterMap.allocate_eq_ok hmap
  exact ⟨map, nodes, hrep, hsize, rfl⟩

theorem compileWith_extends (emit : RegisterMap → Term → List Instruction) (t : Term)
    (table : Functor.Table) (registers : Nat) :
    table.Extends (compileWith emit t table registers).2 :=
  compileWith_keeps (fun later f h => h.trans (later.extends_intern f)) emit t registers
    (.refl table)

theorem programInstructions_eq {nodes : Array Term} {map : RegisterMap}
    (h : map.Represents table t nodes) : programInstructions map t =
      Block.code .program ((∅ : Std.TreeSet Register).insert RegisterMap.root)
        (Block.parentsFirst map RegisterMap.root t []) := by
  rw [programInstructions]
  rcases t.eq_var_or_isApp with ⟨name, rfl⟩ | happ
  · rfl
  · obtain ⟨b, hb, hreg, -⟩ := Block.exists_block h h.root happ
    rw [← hreg] at hb ⊢
    rw [Block.parentsFirst_eq happ hb, Block.code_insert]

/-- A structure takes as many instructions as a query as it does as a program. -/
theorem length_queryInstructions {nodes : Array Term} {map : RegisterMap}
    (h : map.Represents table t nodes) (happ : t.IsApp) :
    (queryInstructions map t).length = (programInstructions map t).length := by
  have hperm := Block.perm h h.root
  have hlength : ∀ b ∈ Block.parentsFirst map RegisterMap.root t [],
      b.arguments.length = b.arity.val := fun b hb => Block.length_arguments h h.root hb
  have hquery := Block.length_code .query ∅ fun b hb => hlength b (hperm.mem_iff.1 hb)
  have hprogram := Block.length_code .program
    ((∅ : Std.TreeSet Register).insert RegisterMap.root) hlength
  have hcells := Block.cells_perm hperm
  have hblocks := hperm.length_eq
  rw [queryInstructions_eq map happ, programInstructions_eq h]
  omega

end Code
end TermMachine
