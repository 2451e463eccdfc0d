import TermMachine.Proofs.Code.Tally
import TermMachine.Proofs.Machine.Provenance

/-! # The heap that a query takes

Each instruction of a query appends what its term needs there, so the cells that a query leaves can
be counted in its code: a functor cell for each structure, a reference for each variable, and an
unbound one for each variable that is new.
-/
namespace TermMachine

def Cell.isFunctor : Cell → Bool
  | functor _ _ => true
  | _ => false

def Cell.isRef : Cell → Bool
  | ref _ => true
  | _ => false

namespace Heap

variable {h : Heap} {k : Address}

def count (h : Heap) (k : Address) (test : Address → Cell → Bool) : Nat :=
  (h.cells.toList.zipIdx.drop k).countP fun c => test c.2 c.1

theorem count_size (h : Heap) (test : Address → Cell → Bool) : h.count h.cells.size test = 0 := by
  rw [count, List.drop_of_length_le (by simp)]
  rfl

theorem count_append (hk : k ≤ h.cells.size) (c : Cell) (test : Address → Cell → Bool) :
    (h.append c).count k test = h.count k test + if test h.cells.size c then 1 else 0 := by
  have hlen : k ≤ h.cells.toList.zipIdx.length := by simpa using hk
  rw [count, count, append, Array.toList_push, List.zipIdx_append,
    List.drop_append_of_le_length hlen, List.countP_append, List.zipIdx_singleton,
    List.countP_singleton]
  simp

theorem count_appendStructure (hk : k ≤ h.cells.size) (f : FunctorId) (n : Arity)
    (test : Address → Cell → Bool) : (h.appendStructure f n).count k test = h.count k test +
      (if test h.cells.size (.str (h.cells.size + 1)) then 1 else 0) +
      if test (h.cells.size + 1) (.functor f n) then 1 else 0 := by
  have hk' : k ≤ (h.append (.str (h.cells.size + 1))).cells.size := by
    rw [append_size]
    exact Nat.le_succ_of_le hk
  rw [appendStructure, count_append hk', count_append hk, append_size]

theorem count_eq_zero {test : Address → Cell → Bool} : h.count k test = 0 ↔
    ∀ {a : Address} {c : Cell}, k ≤ a → h.cells[a]? = some c → test a c = false := by
  rw [count, List.countP_eq_zero]
  constructor
  · intro hall a c hka hc
    refine Bool.eq_false_iff.2 (hall (c, a) (List.mem_iff_getElem?.2 ⟨a - k, ?_⟩))
    rw [List.getElem?_drop, Nat.add_sub_cancel' hka]
    simp [List.getElem?_zipIdx, hc]
  · intro hall p hp
    obtain ⟨i, hi⟩ := List.mem_iff_getElem?.1 hp
    rw [List.getElem?_drop, List.getElem?_zipIdx, Option.map_eq_some_iff] at hi
    obtain ⟨c, hc, rfl⟩ := hi
    refine Bool.eq_false_iff.1 (hall (by simp) ?_)
    simpa using hc

/-- The heap has the cells of one more term, which nothing is known of, behind those that were
there. -/
structure Footprint (h : Heap) (t : Term) (h' : Heap) : Prop where
  size_eq : h'.cells.size = h.cells.size + t.queryCells
  below : ∀ a < h.cells.size, h'.cells[a]? = h.cells[a]?
  functors : (h'.count h.cells.size fun _ c => c.isFunctor) = t.functors.length
  refs : (h'.count h.cells.size fun _ c => c.isRef) = t.vars.length
  unbound : (h'.count h.cells.size fun a c => c == .ref a) = t.vars.toFinset.card

end Heap

/-- The registers that the code defines hold the addresses of unbound references, if they are for
variables, or else of structures. -/
def RunState.Held (isVar : Register → Bool) (code : List Instruction) (s : RunState) : Prop :=
  ∀ x ∈ code.filterMap Instruction.defines, ∀ a, s.registers.values[x]? = some a →
    ∃ b, s.heap.cells[a]? = some (if isVar x then .ref a else .str b)

structure Laid (isVar : Register → Bool) (h : Heap) (code : List Instruction) (s : RunState) :
    Prop where
  size_eq : s.heap.cells.size = h.cells.size + (code.map Instruction.cost).sum
  below : ∀ a < h.cells.size, s.heap.cells[a]? = h.cells[a]?
  functors : (s.heap.count h.cells.size fun _ c => c.isFunctor) = code.countP Instruction.isPut
  refs : (s.heap.count h.cells.size fun _ c => c.isRef) =
    code.countP (Instruction.isVarArgument isVar)
  unbound : (s.heap.count h.cells.size fun a c => c == .ref a) =
    code.countP Instruction.isSetVariable
  held : s.Held isVar code

section

variable {isVar : Register → Bool} {h h' : Heap} {r : RegisterFile} {c c' : Cursor}
  {pre : List Instruction} {i : Instruction} {x : Register} {s t : RunState}

theorem RunState.Held.put (hs : Held isVar pre ⟨h, r, c⟩) (hi : i.defines = some x)
    (hold : ∀ {a : Address} {d : Cell}, h.cells[a]? = some d → h'.cells[a]? = some d)
    {a b : Address} (hnew : h'.cells[a]? = some (if isVar x then .ref a else .str b)) :
    Held isVar (pre ++ [i]) ⟨h', r.put x a, c'⟩ := by
  intro y hy d hd
  dsimp only at hd
  rw [RegisterFile.put_values] at hd
  by_cases hxy : x = y
  · rw [if_pos hxy, Option.some.injEq] at hd
    subst hxy hd
    exact ⟨b, hnew⟩
  · rw [if_neg hxy] at hd
    have hpre : y ∈ pre.filterMap Instruction.defines := by
      rw [List.filterMap_append, List.mem_append] at hy
      refine hy.resolve_right fun hlast => hxy ?_
      obtain ⟨j, hj, hjy⟩ := List.mem_filterMap.1 hlast
      rw [List.mem_singleton.1 hj, hi] at hjy
      exact Option.some.inj hjy
    obtain ⟨e, he⟩ := hs y hpre d hd
    exact ⟨e, hold he⟩

namespace Laid

theorem start (isVar : Register → Bool) (h : Heap) (r : RegisterFile) (c : Cursor) :
    Laid isVar h [] ⟨h, r, c⟩ where
  size_eq := rfl
  below _ _ := rfl
  functors := h.count_size _
  refs := h.count_size _
  unbound := h.count_size _
  held := by simp [RunState.Held]

theorem size_le (hs : Laid isVar h pre s) : h.cells.size ≤ s.heap.cells.size := by
  rw [hs.size_eq]
  exact Nat.le_add_right _ _

/-- A cell for an argument. -/
theorem append (hs : Laid isVar h pre s) {d : Cell} (hheap : t.heap = s.heap.append d)
    (hput : i.isPut = false) (hterm : d.isFunctor = false) (href : d.isRef = isVar i.register)
    (hself : (d == .ref s.heap.cells.size) = i.isSetVariable) (hheld : t.Held isVar (pre ++ [i])) :
    Laid isVar h (pre ++ [i]) t where
  size_eq := by
    rw [hheap, Heap.append_size, hs.size_eq, List.map_append, List.sum_append, List.map_singleton,
      List.sum_singleton, Instruction.cost, hput]
    simp [Nat.add_assoc]
  below a ha := by
    rw [hheap, Heap.append_cell, if_neg (Nat.ne_of_lt (Nat.lt_of_lt_of_le ha hs.size_le)),
      hs.below a ha]
  functors := by
    rw [hheap, Heap.count_append hs.size_le, hs.functors, List.countP_append, List.countP_singleton,
      hterm, hput]
  refs := by
    rw [hheap, Heap.count_append hs.size_le, hs.refs, List.countP_append, List.countP_singleton,
      href, Instruction.isVarArgument, hput, Bool.not_false, Bool.true_and]
  unbound := by
    rw [hheap, Heap.count_append hs.size_le, hs.unbound, List.countP_append, List.countP_singleton,
      hself]
  held := hheld

theorem appendStructure (hs : Laid isVar h pre s) {f : FunctorId} {n : Arity}
    (hheap : t.heap = s.heap.appendStructure f n) (hput : i.isPut = true)
    (hset : i.isSetVariable = false) (hheld : t.Held isVar (pre ++ [i])) :
    Laid isVar h (pre ++ [i]) t where
  size_eq := by
    rw [hheap, Heap.appendStructure_size, hs.size_eq, List.map_append, List.sum_append,
      List.map_singleton, List.sum_singleton, Instruction.cost, hput]
    simp [Nat.add_assoc]
  below a ha := by
    have hlt : a < s.heap.cells.size := Nat.lt_of_lt_of_le ha hs.size_le
    rw [hheap, Heap.appendStructure_cell, if_neg (Nat.ne_of_lt (Nat.lt_succ_of_lt hlt)),
      if_neg (Nat.ne_of_lt hlt), hs.below a ha]
  functors := by
    rw [hheap, Heap.count_appendStructure hs.size_le, hs.functors, List.countP_append,
      List.countP_singleton, hput]
    simp [Cell.isFunctor]
  refs := by
    rw [hheap, Heap.count_appendStructure hs.size_le, hs.refs, List.countP_append,
      List.countP_singleton, Instruction.isVarArgument, hput]
    simp [Cell.isRef]
  unbound := by
    rw [hheap, Heap.count_appendStructure hs.size_le, hs.unbound, List.countP_append,
      List.countP_singleton, hset]
    simp
  held := hheld

/-- One instruction, supported by those before it. -/
theorem step (hs : Laid isVar h pre s) (hi : i.Supported isVar pre)
    (hstep : i.step s = (.ok true, t)) : Laid isVar h (pre ++ [i]) t := by
  obtain ⟨h₁, r, c⟩ := s
  cases hi with
  | @put f n x hx =>
    obtain rfl := Run.putStructure_eq_ok hstep
    refine hs.appendStructure rfl rfl rfl (hs.held.put rfl
      (fun hd => Heap.appendStructure_cell_of_some hd f n) (b := h₁.cells.size + 1) ?_)
    rw [hx, if_neg Bool.false_ne_true]
    exact h₁.appendStructure_cell_top f n
  | @first x hx =>
    obtain rfl := Run.setVariable_eq_ok hstep
    refine hs.append rfl rfl rfl hx.symm (beq_self_eq_true _) (hs.held.put rfl
      (fun hd => Heap.append_cell_of_some hd _) (b := h₁.cells.size) ?_)
    rw [hx, if_pos rfl]
    exact h₁.append_cell_top _
  | @again x hx =>
    obtain ⟨a, d, hload, hd, rfl⟩ := Run.setValue_eq_ok hstep
    have hheld : RunState.Held isVar (pre ++ [.setValue x]) ⟨h₁.append d, r, c⟩ := by
      intro y hy e he
      obtain ⟨b, hb⟩ := hs.held y (by simpa [Instruction.defines] using hy) e he
      exact ⟨b, Heap.append_cell_of_some hb d⟩
    -- the copy of an unbound reference is bound to it
    obtain ⟨b, hb⟩ := hs.held x hx a hload
    obtain rfl := Option.some.inj (hd.symm.trans hb)
    have hne : a ≠ h₁.cells.size := Nat.ne_of_lt (Heap.lt_size_of_getElem? hd)
    by_cases hvar : isVar x = true
    · rw [if_pos hvar] at hheld ⊢
      exact hs.append rfl rfl rfl hvar.symm (by simpa [Instruction.isSetVariable] using hne) hheld
    · rw [if_neg hvar] at hheld ⊢
      exact hs.append rfl rfl rfl (Bool.eq_false_iff.2 hvar).symm rfl hheld

/-- Instructions that are each supported by those before it. -/
theorem all {code : List Instruction} (hs : Laid isVar h [] s)
    (hcode : ∀ {pre post : List Instruction} {i : Instruction}, code = pre ++ i :: post →
      i.Supported isVar pre)
    (hall : Run.all code s = (.ok true, t)) : Laid isVar h code t := by
  induction code using List.reverseRecOn generalizing t with
  | nil =>
    obtain rfl := (Prod.mk.inj hall).2
    exact hs
  | append_singleton code i ih =>
    rw [Run.all_append] at hall
    rcases hrun : Run.all code s with ⟨_ | _ | _, u⟩
    · simp [hrun] at hall
    · simp [hrun] at hall
    · simp only [hrun, Run.all_singleton] at hall
      refine (ih (fun {pre post j} heq => ?_) hrun).step (hcode rfl) hall
      have hlonger : code ++ [i] = pre ++ j :: (post ++ [i]) := by simp [heq]
      exact hcode hlonger

end Laid

end

namespace Machine

variable {capacities : Capacities} {calls : List Call} {t : Term} {query : Code}

theorem capture_empty {m : Machine} (h : m.capture = .empty) :
    m.queryTerm = .ok none ∧ m.bindings = .ok [] := by
  refine ⟨by simp [queryTerm, h, Capture.empty], ?_⟩
  have hnames : m.names = .ok ∅ := by simp [names, h, Capture.empty, namesFrom, Except.mapError]
  simp [bindings, hnames, h, Capture.empty, readBindings, bind, Except.bind]

/-- A query that is run by itself succeeds exactly when there is room for its cells. -/
theorem run_query_cases (hq : CompiledQuery capacities calls t query) {m n : Machine}
    (hm : m = (create capacities).afterAll calls) (hn : n = (m.run query .empty).2) :
    (m.state.heap.top + t.queryCells ≤ capacities.heap ∧ (m.run query .empty).1 = .ok true ∧
      m.state.heap.Footprint t n.state.heap) ∨
    (capacities.heap < m.state.heap.top + t.queryCells ∧
      (m.run query .empty).1 = .error (.memory (.outOfMemory capacities.heap)) ∧
      n.capture = .empty) := by
  have hcount := afterAll_count capacities calls
  have hcap := afterAll_heap_capacity capacities calls
  have horder := afterAll_inOrder capacities calls
  obtain ⟨table, later, hcompile, -⟩ := hq.exists_compile
  obtain ⟨⟨isVar, htally⟩, -⟩ := Code.query_tally hcompile
  obtain ⟨map, nodes, hmap, hsize, rfl⟩ := hq.isQuery
  rw [InOrder, afterAll_capacities] at horder
  rw [← hm] at hcount hcap horder hmap
  have hends := Run.query_ends (h := m.state.heap) (r := m.state.registers.clear)
    (c := .outside .write) hmap (hcount.symm ▸ hsize)
  have hin := Run.all_inOrder (Code.queryInstructions map t)
    (s := ⟨m.state.heap, m.state.registers.clear, .outside .write⟩) horder
  rw [run_eq] at hn ⊢
  subst hn
  unfold runState
  dsimp only
  generalize hrun : Run.all (Code.queryInstructions map t)
    ⟨m.state.heap, m.state.registers.clear, .outside .write⟩ = out at hends hin
  cases hends with
  | mismatch hfalse => exact hfalse.elim
  | noRoom hlt => exact .inr ⟨hcap ▸ hlt, by rw [Run.full, hcap], rfl⟩
  | @matched s hs =>
    obtain ⟨c, hcapture, -⟩ := hs.1.fresh hmap
    have hlaid := Laid.all (.start isVar m.state.heap _ _) htally.supported hrun
    have hgrown := hlaid.size_eq
    rw [htally.cost] at hgrown
    refine .inl ⟨hgrown ▸ hin.1.size_le, ?_⟩
    obtain ⟨h₁, r₁, c₁⟩ := s
    dsimp only at hcapture ⊢
    rw [hcapture]
    exact ⟨rfl, hgrown, hlaid.below, hlaid.functors.trans htally.puts,
      hlaid.refs.trans htally.refs, hlaid.unbound.trans htally.firsts⟩

/-- A query that is run by itself takes the cells that its term needs and no others: it succeeds
exactly when they fit, and what it has appended shows whether the term is ground. -/
theorem run_query_footprint (hq : CompiledQuery capacities calls t query) {m n : Machine}
    (hm : m = (create capacities).afterAll calls) (hn : n = (m.run query .empty).2) :
    ((m.run query .empty).1 = .ok true ↔ m.state.heap.top + t.queryCells ≤ capacities.heap) ∧
    ((m.run query .empty).1 = .ok true → m.state.heap.Footprint t n.state.heap ∧
      ((∀ {a b : Address}, m.state.heap.top ≤ a → n.state.heap.cells[a]? ≠ some (.ref b)) ↔
        t.isGround = true)) ∧
    ((m.run query .empty).1 ≠ .ok true →
      (m.run query .empty).1 = .error (.memory (.outOfMemory capacities.heap)) ∧
      n.queryTerm = .ok none ∧ n.bindings = .ok []) ∧
    (t.isGround = true ↔ query.vars = []) := by
  have hground : t.isGround = true ↔ query.vars = [] := by
    obtain ⟨table, later, hcompile, -⟩ := hq.exists_compile
    rw [Term.isGround_iff, (Code.query_tally hcompile).2]
  rcases run_query_cases hq hm hn with ⟨hroom, htrue, hlaid⟩ | ⟨hlt, hfull, hcapture⟩
  · refine ⟨⟨fun _ => hroom, fun _ => htrue⟩, fun _ => ⟨hlaid, ?_⟩, fun hne => absurd htrue hne,
      hground⟩
    have hrefs : t.isGround = true ↔ ∀ {a : Address} {c : Cell}, m.state.heap.cells.size ≤ a →
        n.state.heap.cells[a]? = some c → c.isRef = false := by
      rw [Term.isGround_iff, ← List.length_eq_zero_iff, ← hlaid.refs]
      exact Heap.count_eq_zero
    rw [hrefs]
    constructor
    · intro hnone a c hka hc
      cases c with
      | ref b => exact absurd hc (hnone hka)
      | str b => rfl
      | functor f n => rfl
    · intro hnone a b hka hb
      exact absurd (hnone hka hb) (by simp [Cell.isRef])
  · have hne : (m.run query .empty).1 ≠ .ok true := by simp [hfull]
    exact ⟨⟨fun htrue => absurd htrue hne, fun hroom => absurd hroom (Nat.not_le_of_lt hlt)⟩,
      fun htrue => absurd htrue hne, fun _ => ⟨hfull, capture_empty hcapture⟩, hground⟩

/-- A query for the second time, on a heap that has room for just two of it. -/
theorem run_query_footprint_twice :
    let t : Term := .app "f" [.app "g" [.var "Y"], .app "h" [], .var "X", .var "Y"]
    let query : Code := ⟨[.putStructure 1 1 1, .setVariable 4, .putStructure 2 0 2,
      .putStructure 0 4 0, .setValue 1, .setValue 2, .setVariable 3, .setValue 4],
      [("X", 3), ("Y", 4)]⟩
    let m := (create ⟨5, 8, 22, 3⟩).afterAll [.query t, .run query .empty]
    let n := (m.run query .empty).2
    CompiledQuery ⟨5, 8, 22, 3⟩ [.query t, .run query .empty] t query ∧ m.state.heap.top = 11 ∧
      ((m.run query .empty).1 = .ok true ↔ m.state.heap.top + t.queryCells ≤ 22) ∧
      ((m.run query .empty).1 = .ok true → m.state.heap.Footprint t n.state.heap ∧
        ((∀ {a b : Address}, m.state.heap.top ≤ a → n.state.heap.cells[a]? ≠ some (.ref b)) ↔
          t.isGround = true)) ∧
      ((m.run query .empty).1 ≠ .ok true →
        (m.run query .empty).1 = .error (.memory (.outOfMemory 22)) ∧
        n.queryTerm = .ok none ∧ n.bindings = .ok []) ∧
      (t.isGround = true ↔ query.vars = []) := by
  intro t query m n
  have hq : CompiledQuery ⟨5, 8, 22, 3⟩ [.query t, .run query .empty] t query :=
    ⟨[], [.run query .empty], rfl, by simp, by decide +kernel⟩
  have htop : m.state.heap.top = 11 := by decide +kernel
  exact ⟨hq, htop, run_query_footprint hq rfl rfl⟩

end Machine

end TermMachine
