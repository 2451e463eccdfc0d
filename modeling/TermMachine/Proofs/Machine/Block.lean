import TermMachine.Proofs.Code.Equations
import TermMachine.Proofs.Machine.Argument

/-! # Running blocks

A block solves its equation: the register of its structure is made equal to the node of its
argument registers. Its head finds the structure or builds one, and leaves the slots to the
arguments. Nothing but a full heap stops it, and a mismatch only when there is no solution.
-/
namespace TermMachine

open Heap

namespace Run

variable {table : Functor.Table} {k : Address} {met : Std.TreeSet Register} {s t : RunState}
  {b : Block} {slot : Address}

/-- The head of a block has found its structure or built it, with the arguments still to come. -/
structure Headed (table : Functor.Table) (k : Address) (met : Std.TreeSet Register) (b : Block)
    (slot : Address) (s t : RunState) : Prop where
  keeps : Keeps met s t
  sound : ∀ {D : Type} [TreeDomain D] {v : Address → D} {name : String},
    t.heap.Models table k v → table.lookup b.functor = some ⟨name, b.arity⟩ →
    v (t.address b.register) = node name ((slots slot b.arity.val).map v)
  complete : ∀ {D : Type} [TreeDomain D] {v : Address → D} {ν : Register → D},
    s.heap.Models table k v → Agree met s v ν → b.Holds table ν →
    ∃ v' : Address → D, (∀ a < s.heap.cells.size, v' a = v a) ∧ t.heap.Models table k v' ∧
      Agree (met.insert b.register) t v' ν ∧
      (slots slot b.arity.val).map v' = b.arguments.map ν
  new : b.register ∉ met → t.address b.register = s.heap.cells.size

structure ToWrite (table : Functor.Table) (k : Address) (met : Std.TreeSet Register)
    (style : Block.Style) (b : Block) (s t : RunState) : Prop where
  headed : Headed table k met b t.heap.cells.size s t
  ready : Ready table k (met.insert b.register) b.arity.val t
  writes : Writes style b.arity.val t.cursor
  size_eq : t.heap.cells.size = s.heap.cells.size + 2

structure ToRead (table : Functor.Table) (k : Address) (met : Std.TreeSet Register)
    (style : Block.Style) (b : Block) (slot : Address) (s t : RunState) : Prop where
  headed : Headed table k met b slot s t
  ready : Ready table k (met.insert b.register) 0 t
  style_eq : style = .program
  cursor_eq : t.cursor = ⟨.read, slot, b.arity.val⟩
  terms : ∀ i < b.arity.val, HasTerm k t.heap (slot + i)
  size_eq : t.heap.cells.size = s.heap.cells.size

def Begun (table : Functor.Table) (k : Address) (met : Std.TreeSet Register) (style : Block.Style)
    (b : Block) (s t : RunState) : Prop :=
  ToWrite table k met style b s t ∨ ∃ slot, ToRead table k met style b slot s t

theorem argumentAddresses_eq (t : Address) (n : Nat) : argumentAddresses t n = slots (t + 1) n := by
  rw [slots, argumentAddresses_eq_range']

section Extend

variable {D : Type} [TreeDomain D] {h : Heap} {v : Address → D} {ν : Register → D}

def extend (v : Address → D) (top : Address) (ν : Register → D) (b : Block) (a : Address) : D :=
  if a < top then v a
  else if a = top then ν b.register
  else ν (b.arguments.getD (a - (top + 2)) RegisterMap.root)

omit [TreeDomain D] in
theorem extend_of_lt {top a : Address} (ha : a < top) : extend v top ν b a = v a := if_pos ha

omit [TreeDomain D] in
theorem extend_top (top : Address) : extend v top ν b top = ν b.register := by
  rw [extend, if_neg (Nat.lt_irrefl top), if_pos rfl]

omit [TreeDomain D] in
theorem extend_slots (top : Address) (hlen : b.arguments.length = b.arity.val) :
    (slots (top + 2) b.arity.val).map (extend v top ν b) = b.arguments.map ν := by
  refine List.ext_getElem (by simp [hlen]) fun i hi hi' => ?_
  have hlt : i < b.arguments.length := by simpa using hi'
  have hslot : ¬top + 2 + i < top ∧ top + 2 + i ≠ top := by lia
  simp [extend, hslot, List.getD_eq_getElem?_getD, hlt]

theorem appendStructure_sound (hw : h.WellBuilt table k 0) (hk : k ≤ h.cells.size) {f : FunctorId}
    {n : Arity} {name : String} (hf : table.lookup f = some ⟨name, n⟩)
    (hv : (h.appendStructure f n).Models table k v) :
    v h.cells.size = node name ((slots (h.cells.size + 2) n.val).map v) := by
  have heq := ((models_appendStructure hw hk hf).1 hv).2
  rwa [argumentAddresses_eq] at heq

theorem appendStructure_complete (hw : h.WellBuilt table k 0) (hk : k ≤ h.cells.size)
    (hb : b.arguments.length = b.arity.val) {name : String}
    (hf : table.lookup b.functor = some ⟨name, b.arity⟩) (hv : h.Models table k v)
    (hholds : b.Holds table ν) :
    (h.appendStructure b.functor b.arity).Models table k (extend v h.cells.size ν b) := by
  refine (models_appendStructure hw hk hf).2 ⟨hv.congr hw fun a ha => extend_of_lt ha, ?_⟩
  rw [argumentAddresses_eq, extend_top, extend_slots _ hb, hholds name hf]

end Extend

theorem Agree.insert {D : Type} {v v' : Address → D} {ν : Register → D} {left : Nat} {x : Register}
    (hν : Agree met s v ν) (hs : Ready table k met left s) (hst : Keeps met s t)
    (heq : ∀ a < s.heap.cells.size, v' a = v a) (hx : v' (t.address x) = ν x) :
    Agree (met.insert x) t v' ν := by
  intro y hy
  rcases Block.mem_insert.1 hy with rfl | hy
  · exact hx
  · rw [hst.address hy, heq _ (hs.load hy).2.lt_size, hν y hy]

theorem writes_writing {style : Block.Style} (hstyle : style = .query ∨ style = .program)
    (n : Arity) (c : Cursor) : Writes style n.val (c.writing n) :=
  hstyle.imp id fun hprogram => ⟨hprogram, rfl, rfl⟩

/-- A structure is built in a new register. -/
theorem putStructure_ends {style : Block.Style} (hstyle : style = .query ∨ style = .program)
    (hs : Ready table k met 0 s) (hb : b.Fits table s.registers.count) (hnew : b.register ∉ met) :
    Ends (Begun table k met style b s) (fun _ => False) 2 s.heap
      ((Instruction.putStructure b.functor b.arity b.register).step s) := by
  obtain ⟨h, r, c⟩ := s
  obtain ⟨name, hname⟩ := hb.functor
  have hw := hs.heap
  have hk := hs.le_top
  rw [Instruction.step, putStructure_eq]
  by_cases hroom : h.cells.size + 2 ≤ h.capacity
  · rw [if_pos hroom, if_pos hb.register_lt]
    generalize ht : RunState.mk (h.appendStructure b.functor b.arity)
      (r.put b.register h.cells.size) (c.writing b.arity) = t
    have hput : t.registers.values[b.register]? = some h.cells.size := by
      rw [← ht, RegisterFile.put_values, if_pos rfl]
    have haddr : t.address b.register = h.cells.size := by simp [RunState.address, hput]
    have hheap : t.heap = h.appendStructure b.functor b.arity := by rw [← ht]
    have hsize : t.heap.cells.size = h.cells.size + 2 := by rw [hheap, appendStructure_size]
    have hkeeps : Keeps met ⟨h, r, c⟩ t := by
      rw [← ht]
      exact ⟨grows_appendStructure h _ _, rfl, fun y hy => put_values_of_not_mem hnew r _ hy⟩
    have hwrites : Writes style b.arity.val t.cursor := by
      rw [← ht]
      exact writes_writing hstyle b.arity c
    refine .matched (.inl ⟨⟨hkeeps, ?_, ?_, fun _ => haddr⟩, ?_, hwrites, hsize⟩)
    · intro D _ v name hv hname
      rw [haddr, hsize]
      exact appendStructure_sound hw hk hname (hheap ▸ hv)
    · intro D _ v ν hv hν hholds
      have hold : ∀ a < h.cells.size, extend v h.cells.size ν b a = v a :=
        fun a ha => extend_of_lt ha
      refine ⟨extend v h.cells.size ν b, hold, ?_, hν.insert hs hkeeps hold ?_, ?_⟩
      · rw [hheap]
        exact appendStructure_complete hw hk hb.length hname hv hholds
      · rw [haddr, extend_top]
      · rw [hsize, extend_slots _ hb.length]
    · have hterm : HasTerm k t.heap h.cells.size := by
        rw [hheap]
        exact ⟨hk, _, appendStructure_cell_top h _ _, trivial⟩
      have hw' : t.heap.WellBuilt table k b.arity.val := hheap ▸ hw.appendStructure hk hname
      have hlt : b.register < t.registers.count := hkeeps.count ▸ hb.register_lt
      exact (hs.of_keeps hkeeps hw').meet hlt hput hterm fun y => Block.mem_insert.1
  · rw [if_neg hroom]
    exact .noRoom (by simpa using hroom)

abbrev Refutes (table : Functor.Table) (k : Address) (met : Std.TreeSet Register)
    (bs : List Block) (s t : RunState) : Prop :=
  Refuted table k s.heap t.heap fun _ _ v => ∃ ν, Agree met s v ν ∧ ∀ b ∈ bs, b.Holds table ν

/-- A program builds the structure at an unbound reference. -/
theorem ToWrite.built {e : Address} (hs : Ready table k met 0 s)
    (hb : b.Fits table s.registers.count) (hmet : b.register ∈ met)
    (hr : s.heap.Resolves (s.address b.register) e) (he : s.heap.cells[e]? = some (.ref e)) :
    ToWrite table k met .program b s
      ⟨built s.heap b.functor b.arity e, s.registers, s.cursor.writing b.arity⟩ := by
  obtain ⟨h, r, c⟩ := s
  obtain ⟨name, hname⟩ := hb.functor
  have hw := hs.heap
  have hk := hs.le_top
  obtain ⟨-, hterm⟩ := hs.load hmet
  have hke := hw.resolves_le hr hterm.1
  dsimp only at hr he hw hk
  have he' := appendStructure_cell_of_some he b.functor b.arity
  have hgrow : Grows h (built h b.functor b.arity e) :=
    (grows_appendStructure h _ _).trans (grows_point he' _)
  have hkeeps : Keeps met ⟨h, r, c⟩ ⟨built h b.functor b.arity e, r, c.writing b.arity⟩ :=
    ⟨hgrow, rfl, fun _ _ => rfl⟩
  have hw' : (built h b.functor b.arity e).WellBuilt table k b.arity.val :=
    (hw.appendStructure hk hname).point he' hk (appendStructure_cell_top h _ _) trivial
      (.inr ⟨_, rfl⟩)
  have hsize : (built h b.functor b.arity e).cells.size = h.cells.size + 2 := by
    rw [built, point_size, appendStructure_size]
  refine ⟨⟨hkeeps, ?_, ?_, absurd hmet⟩, ?_, writes_writing (.inr rfl) b.arity c, hsize⟩
  · intro D _ v name hv hname
    obtain ⟨hv', hbound⟩ := (models_point he' hke).1 hv
    have hvalue := (Models.of_grows hgrow hv).resolves hw.toSoundFrom hr hterm.1
    dsimp only
    rw [hkeeps.address hmet, hvalue, hbound, hsize]
    exact appendStructure_sound hw hk hname hv'
  · intro D _ v ν hv hν hholds
    have hold : ∀ a < h.cells.size, extend v h.cells.size ν b a = v a :=
      fun a ha => extend_of_lt ha
    refine ⟨extend v h.cells.size ν b, hold, (models_point he' hke).2 ⟨?_, ?_⟩,
      hν.insert hs hkeeps hold ?_, ?_⟩
    · exact appendStructure_complete hw hk hb.length hname hv hholds
    · rw [extend_top, hold e (lt_size_of_getElem? he), ← hv.resolves hw.toSoundFrom hr hterm.1]
      exact hν _ hmet
    · rw [hkeeps.address hmet, hold _ hterm.lt_size]
      exact hν _ hmet
    · dsimp only
      rw [hsize, extend_slots _ hb.length]
  · obtain ⟨hlt, a, ha, hterm⟩ := hs.registers _ hmet
    exact (hs.of_keeps hkeeps hw').meet hlt ha (hterm.grows hgrow) fun y => Block.mem_insert.1

/-- A program finds a structure of the same functor. -/
theorem ToRead.found {e u : Address} (hs : Ready table k met 0 s)
    (hb : b.Fits table s.registers.count) (hmet : b.register ∈ met)
    (hr : s.heap.Resolves (s.address b.register) e) (he : s.heap.cells[e]? = some (.str u))
    (hu : s.heap.cells[u]? = some (.functor b.functor b.arity)) :
    ToRead table k met .program b (u + 1) s
      ⟨s.heap, s.registers, .reading (u.offset 1) b.arity⟩ := by
  obtain ⟨h, r, c⟩ := s
  have hw := hs.heap
  obtain ⟨-, hterm⟩ := hs.load hmet
  have hke := hw.resolves_le hr hterm.1
  have hkeeps : Keeps met ⟨h, r, c⟩ ⟨h, r, .reading (u.offset 1) b.arity⟩ :=
    ⟨.refl h, rfl, fun _ _ => rfl⟩
  have hvalue : ∀ {D : Type} [TreeDomain D] {v : Address → D} {name : String},
      h.Models table k v → table.lookup b.functor = some ⟨name, b.arity⟩ →
      v (RunState.address ⟨h, r, c⟩ b.register) =
        node name ((slots (u + 1) b.arity.val).map v) := by
    intro D _ v name hv hname
    rw [hv.resolves hw.toSoundFrom hr hterm.1, hv.str hke he hu hname, argumentAddresses_eq]
  refine ⟨⟨hkeeps, hvalue, ?_, absurd hmet⟩, ?_, rfl, rfl, fun i hi => ?_, rfl⟩
  · intro D _ v ν hv hν hholds
    obtain ⟨name, hname⟩ := hb.functor
    refine ⟨v, fun _ _ => rfl, hv, hν.insert hs hkeeps (fun _ _ => rfl) (hν _ hmet), ?_⟩
    have hnode := hvalue hv hname
    rw [hν _ hmet, hholds name hname] at hnode
    exact (TreeDomain.node_inj hnode).2.symm
  · obtain ⟨hlt, a, ha, hterm⟩ := hs.registers _ hmet
    exact (hs.of_keeps hkeeps hw).meet hlt ha hterm fun y => Block.mem_insert.1
  · have harg := hw.arguments_hasTerm (hw.str_functor hke he).1 hu hi
    rwa [Nat.add_comm i, ← Nat.add_assoc] at harg

/-- Two structures of different functors have no common value. -/
theorem refutes_of_functor {e u : Address} {g : FunctorId} {m : Arity}
    (hs : Ready table k met 0 s) (hb : b.Fits table s.registers.count) (hmet : b.register ∈ met)
    (hr : s.heap.Resolves (s.address b.register) e) (he : s.heap.cells[e]? = some (.str u))
    (hu : s.heap.cells[u]? = some (.functor g m)) (hne : (g, m) ≠ (b.functor, b.arity)) :
    Refutes table k met [b] s s := by
  have hw := hs.heap
  obtain ⟨-, hterm⟩ := hs.load hmet
  have hke := hw.resolves_le hr hterm.1
  obtain ⟨name, hname⟩ := hb.functor
  obtain ⟨gname, hg⟩ := hw.known (hw.str_functor hke he).1 hu
  refine ⟨hw, .refl _, fun v hv ⟨ν, hν, hholds⟩ => hne ?_⟩
  have hnode := hν _ hmet
  rw [hv.resolves hw.toSoundFrom hr hterm.1, hv.str hke he hu hg,
    hholds b List.mem_cons_self name hname] at hnode
  obtain ⟨hnames, hargs⟩ := TreeDomain.node_inj hnode
  have hlen := congrArg List.length hargs
  rw [argumentAddresses_eq, List.length_map, List.length_map, List.length_range', hb.length] at hlen
  obtain rfl : m = b.arity := Fin.ext hlen
  subst hnames
  rw [Functor.Table.lookup_inj hg hname]

theorem getStructure_ends (hs : Ready table k met 0 s) (hb : b.Fits table s.registers.count)
    (hmet : b.register ∈ met) :
    Ends (Begun table k met .program b s) (Refutes table k met [b] s) 2 s.heap
      ((Instruction.getStructure b.functor b.arity b.register).step s) := by
  obtain ⟨hlt, a, ha, hterm⟩ := hs.registers _ hmet
  have haddr : s.address b.register = a := by simp [RunState.address, ha]
  obtain ⟨e, hd, hr, -, d, hcell, hdterm⟩ := hs.heap.deref_term hterm
  have hend := hr.cell
  rw [← haddr] at hr
  have hstep : (Instruction.getStructure b.functor b.arity b.register).step s =
      matchStructure b.functor b.arity a s := by
    rw [Instruction.step, getStructure_eq, RegisterFile.get_of_lt hlt, ha]
  rw [hstep, matchStructure_eq, hd]
  dsimp only
  rw [hcell]
  cases d with
  | functor g m => exact hdterm.elim
  | ref t =>
    obtain ⟨_, hcell', hself⟩ := hend
    rw [hcell, Option.some.injEq] at hcell'
    obtain rfl := hself t hcell'.symm
    by_cases hroom : s.heap.cells.size + 2 ≤ s.heap.capacity
    · dsimp only
      rw [if_pos hroom]
      exact .matched (.inl (.built hs hb hmet hr hcell))
    · dsimp only
      rw [if_neg hroom]
      exact .noRoom (by omega)
  | str u =>
    obtain ⟨-, g, m, -, hu, -⟩ := hs.heap.structure_cell (hs.heap.resolves_le hr
      (haddr ▸ hterm.1)) hcell
    have hfun : s.heap.functorAt u = .ok (g, m) := by simp [functorAt, get_of_some hu]
    dsimp only
    rw [hfun]
    dsimp only
    by_cases heq : (g, m) = (b.functor, b.arity)
    · rw [if_pos heq]
      obtain ⟨rfl, rfl⟩ := Prod.mk.injEq .. ▸ heq
      exact .matched (.inr ⟨_, .found hs hb hmet hr hcell hu⟩)
    · rw [if_neg heq]
      exact .mismatch (refutes_of_functor hs hb hmet hr hcell hu heq)

structure Solved (table : Functor.Table) (k : Address) (met : Std.TreeSet Register)
    (bs : List Block) (s t : RunState) : Prop where
  ready : Ready table k (Block.afterAll met bs) 0 t
  keeps : Keeps met s t
  size_le : t.heap.cells.size ≤ s.heap.cells.size + Block.cells bs
  sound : ∀ {D : Type} [TreeDomain D] {v : Address → D}, t.heap.Models table k v →
    ∀ b ∈ bs, b.Holds table fun x => v (t.address x)
  complete : ∀ {D : Type} [TreeDomain D] {v : Address → D} {ν : Register → D},
    s.heap.Models table k v → Agree met s v ν → (∀ b ∈ bs, b.Holds table ν) →
    ∃ v' : Address → D, (∀ a < s.heap.cells.size, v' a = v a) ∧ t.heap.Models table k v' ∧
      Agree (Block.afterAll met bs) t v' ν
  first : ∀ b, bs.head? = some b → b.register ∉ met → t.address b.register = s.heap.cells.size

variable {u : RunState} {style : Block.Style}

theorem Solved.of_headed (hh : Headed table k met b slot s t)
    (ha : Arguments table k (met.insert b.register) b.arguments slot t u)
    (hb : b.arguments.length = b.arity.val)
    (hsize : u.heap.cells.size ≤ s.heap.cells.size + (2 + b.arity.val)) :
    Solved table k met [b] s u where
  ready := ha.ready
  keeps := hh.keeps.trans ha.keeps fun y hy => Block.mem_insert.2 (.inr hy)
  size_le := by simpa [Block.cells] using hsize
  sound := by
    intro D _ v hv c hc name hname
    obtain rfl := List.mem_singleton.1 hc
    dsimp only
    rw [ha.keeps.address (Block.mem_insert.2 (.inl rfl)), ← ha.sound hv, hb]
    exact hh.sound (.of_grows ha.keeps.grows hv) hname
  complete := by
    intro D _ v ν hv hν hbs
    obtain ⟨v', hold, hv', hν', hslots⟩ := hh.complete hv hν (hbs b List.mem_cons_self)
    obtain ⟨hv'', hν''⟩ := ha.complete hv' hν' (hb.symm ▸ hslots)
    exact ⟨v', hold, hv'', hν''⟩
  first := by
    intro c hc hnew
    obtain rfl := Option.some.inj hc
    rw [ha.keeps.address (Block.mem_insert.2 (.inl rfl)), hh.new hnew]

/-- A head and its arguments. -/
theorem block_ends (hb : b.Fits table s.registers.count)
    (hhead : Ends (Begun table k met style b s) (Refutes table k met [b] s) 2 s.heap
      ((style.head b.functor b.arity b.register).step s)) :
    Ends (Solved table k met [b] s) (Refutes table k met [b] s) (2 + b.arity.val) s.heap
      (Run.all (Block.code style met [b]) s) := by
  rw [← all_singleton] at hhead
  have hcode : Block.code style met [b] = [style.head b.functor b.arity b.register] ++
      Block.argumentCode style (met.insert b.register) b.arguments := by
    simp [Block.code]
  rw [hcode]
  refine hhead.append (fun _ => id) fun t hbegun => ?_
  have hlt : ∀ {t : RunState}, Keeps met s t → ∀ x ∈ b.arguments, x < t.registers.count :=
    fun hkeeps x hx => hkeeps.count ▸ hb.arguments_lt x hx
  rcases hbegun with hw | ⟨slot, hr⟩
  · have hkeeps := hw.headed.keeps
    refine ⟨hkeeps.grows.capacity, Nat.le_of_eq hw.size_eq, ?_⟩
    have hargs := writeArguments_ends (hb.length ▸ hw.ready) (hb.length ▸ hw.writes) (hlt hkeeps)
    refine hargs.imp ?_ (fun _ => False.elim) (Nat.le_of_eq hb.length)
    rintro u ⟨hu, hsize⟩
    refine .of_headed hw.headed hu hb.length ?_
    rw [hsize, hw.size_eq, hb.length, Nat.add_assoc]
  · have hkeeps := hr.headed.keeps
    obtain rfl := hr.style_eq
    refine ⟨hkeeps.grows.capacity, by rw [hr.size_eq]; omega, ?_⟩
    have hargs := readArguments_ends hr.ready (hb.length ▸ hr.cursor_eq) (hlt hkeeps)
      (hb.length ▸ hr.terms)
    refine hargs.imp ?_ ?_ (Nat.zero_le _)
    · rintro u ⟨hu, hsize⟩
      refine .of_headed hr.headed hu hb.length ?_
      rw [hsize, hr.size_eq]
      exact Nat.le_add_right _ _
    · rintro u ⟨hw, hg, hnone⟩
      refine ⟨hw, hkeeps.grows.trans hg, ?_⟩
      rintro D _ v hv ⟨ν, hν, hholds⟩
      obtain ⟨v', -, hv', hν', hslots⟩ := hr.headed.complete hv hν (hholds b List.mem_cons_self)
      exact hnone v' hv' ⟨ν, hν', hb.length.symm ▸ hslots⟩

/-- What solves the first block and then the others solves them all. -/
theorem Solved.cons {bs : List Block} (hs : Solved table k met [b] s t)
    (ht : Solved table k (b.after met) bs t u) : Solved table k met (b :: bs) s u where
  ready := ht.ready
  keeps := hs.keeps.trans ht.keeps fun y hy => Block.mem_after.2 (.inr (.inr hy))
  size_le := by
    have h1 := hs.size_le
    have h2 := ht.size_le
    simp only [Block.cells] at h1 ⊢
    omega
  sound := by
    intro D _ v hv c hc
    rcases List.mem_cons.1 hc with rfl | hc
    · have hold := hs.sound (.of_grows ht.keeps.grows hv) c List.mem_cons_self
      refine hold.congr ?_ fun y hy => ?_
      · rw [ht.keeps.address (Block.mem_after.2 (.inl rfl))]
      · rw [ht.keeps.address (Block.mem_after.2 (.inr (.inl hy)))]
    · exact ht.sound hv c hc
  complete := by
    intro D _ v ν hv hν hall
    obtain ⟨v₁, hold₁, hv₁, hν₁⟩ := hs.complete hv hν fun c hc => by
      obtain rfl := List.mem_singleton.1 hc
      exact hall c List.mem_cons_self
    obtain ⟨v₂, hold₂, hv₂, hν₂⟩ := ht.complete hv₁ hν₁ fun c hc =>
      hall c (List.mem_cons_of_mem b hc)
    refine ⟨v₂, fun a ha => ?_, hv₂, hν₂⟩
    rw [hold₂ a (Nat.lt_of_lt_of_le ha hs.keeps.grows.size_le), hold₁ a ha]
  first := by
    intro c hc hnew
    obtain rfl := Option.some.inj hc
    rw [ht.keeps.address (Block.mem_after.2 (.inl rfl)), hs.first b rfl hnew]

/-- A block and those behind it. -/
theorem block_cons_ends {bs : List Block}
    (hone : Ends (Solved table k met [b] s) (Refutes table k met [b] s) (2 + b.arity.val) s.heap
      (Run.all (Block.code style met [b]) s))
    (hrest : ∀ t, Solved table k met [b] s t →
      Ends (Solved table k (b.after met) bs t) (Refutes table k (b.after met) bs t)
        (Block.cells bs) t.heap (Run.all (Block.code style (b.after met) bs) t)) :
    Ends (Solved table k met (b :: bs) s) (Refutes table k met (b :: bs) s)
      (Block.cells (b :: bs)) s.heap (Run.all (Block.code style met (b :: bs)) s) := by
  have hcode : Block.code style met (b :: bs) =
      Block.code style met [b] ++ Block.code style (b.after met) bs := by
    simp [Block.code]
  rw [hcode, Block.cells]
  refine hone.append ?_ fun t ht =>
    ⟨ht.keeps.grows.capacity, by simpa [Block.cells] using ht.size_le, ?_⟩
  · rintro t ⟨hw, hg, hnone⟩
    refine ⟨hw, hg, ?_⟩
    rintro D _ v hv ⟨ν, hν, hall⟩
    refine hnone v hv ⟨ν, hν, fun c hc => ?_⟩
    obtain rfl := List.mem_singleton.1 hc
    exact hall c List.mem_cons_self
  · refine (hrest t ht).imp (fun u hu => ht.cons hu) ?_ (Nat.le_refl _)
    rintro u ⟨hw, hg, hnone⟩
    refine ⟨hw, ht.keeps.grows.trans hg, ?_⟩
    rintro D _ v hv ⟨ν, hν, hall⟩
    obtain ⟨v', -, hv', hν'⟩ := ht.complete hv hν fun c hc => by
      obtain rfl := List.mem_singleton.1 hc
      exact hall c List.mem_cons_self
    exact hnone v' hv' ⟨ν, hν', fun c hc => hall c (List.mem_cons_of_mem b hc)⟩

def HeadsWork (table : Functor.Table) (k : Address) (style : Block.Style)
    (fit : Std.TreeSet Register → Block → Prop) : Prop :=
  ∀ ⦃met : Std.TreeSet Register⦄ ⦃s : RunState⦄ ⦃b : Block⦄, Ready table k met 0 s →
    b.Fits table s.registers.count → fit met b →
    Ends (Begun table k met style b s) (Refutes table k met [b] s) 2 s.heap
      ((style.head b.functor b.arity b.register).step s)

theorem headsWork_query (table : Functor.Table) (k : Address) :
    HeadsWork table k .query Block.IsNew := fun _ _ _ hs hb hnew =>
  (putStructure_ends (.inl rfl) hs hb hnew.1).imp (fun _ => id) (fun _ => False.elim) (Nat.le_refl 2)

theorem headsWork_program (table : Functor.Table) (k : Address) :
    HeadsWork table k .program Block.IsMet := fun _ _ _ hs hb hmet => getStructure_ends hs hb hmet

/-- Blocks in the order of a schedule. -/
theorem blocks_ends {fit : Std.TreeSet Register → Block → Prop}
    (hhead : HeadsWork table k style fit) {bs : List Block} (hs : Ready table k met 0 s)
    (hfits : ∀ b ∈ bs, b.Fits table s.registers.count) (hfit : Block.Schedule fit met bs) :
    Ends (Solved table k met bs s) (Refutes table k met bs s) (Block.cells bs) s.heap
      (Run.all (Block.code style met bs) s) := by
  induction bs generalizing met s with
  | nil =>
    exact .matched ⟨hs, .refl met s, Nat.le_refl _, by simp,
      fun hv hν _ => ⟨_, fun _ _ => rfl, hv, hν⟩, by simp⟩
  | cons b bs ih =>
    obtain ⟨hb, hbs⟩ := hfit
    have hone := block_ends (hfits b List.mem_cons_self)
      (hhead hs (hfits b List.mem_cons_self) hb)
    exact block_cons_ends hone fun t ht =>
      ih ht.ready (fun c hc => ht.keeps.count ▸ hfits c (List.mem_cons_of_mem b hc)) hbs

end Run
end TermMachine
