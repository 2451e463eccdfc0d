import TermMachine.Proofs.Code.Block
import TermMachine.Proofs.Heap.Unification
import TermMachine.Proofs.Machine.Instruction

/-! # Running the arguments of a block

The arguments of a structure go to consecutive cells, its slots, which are written or read one
after the other. An argument equates its slot with its register: a register met for the first time
gets the address of the slot, one met before is copied into the slot or unified with it.
-/
namespace TermMachine

open Heap

def RunState.address (s : RunState) (x : Register) : Address := (s.registers.values[x]?).getD 0

namespace Run

/-- The registers met hold terms, and the last structure has `left` arguments to come. -/
structure Ready (table : Functor.Table) (k : Address) (met : Std.TreeSet Register) (left : Nat)
    (s : RunState) : Prop where
  heap : s.heap.WellBuilt table k left
  le_top : k ≤ s.heap.cells.size
  registers : ∀ x ∈ met, x < s.registers.count ∧
    ∃ a, s.registers.values[x]? = some a ∧ HasTerm k s.heap a

structure Keeps (met : Std.TreeSet Register) (s t : RunState) : Prop where
  grows : Grows s.heap t.heap
  count : t.registers.count = s.registers.count
  values : ∀ x ∈ met, t.registers.values[x]? = s.registers.values[x]?

/-- How code ends on a heap, when it takes at most so many cells. -/
inductive Ends (post stuck : RunState → Prop) (cells : Nat) (h : Heap) :
    Except Fault Bool × RunState → Prop
  | matched {t : RunState} : post t → Ends post stuck cells h (.ok true, t)
  | mismatch {t : RunState} : stuck t → Ends post stuck cells h (.ok false, t)
  | noRoom {t : RunState} : h.capacity < h.cells.size + cells →
      Ends post stuck cells h (.error (full h), t)

def Agree {D : Type} (met : Std.TreeSet Register) (s : RunState) (v : Address → D)
    (ν : Register → D) : Prop := ∀ x ∈ met, v (s.address x) = ν x

variable {table : Functor.Table} {k : Address} {met met' : Std.TreeSet Register} {left : Nat}
  {s t u : RunState} {x : Register}

theorem Ready.load (hs : Ready table k met left s) (hx : x ∈ met) :
    s.registers.load x = .ok (s.address x) ∧ HasTerm k s.heap (s.address x) := by
  obtain ⟨hlt, a, ha, hterm⟩ := hs.registers x hx
  have haddr : s.address x = a := by simp [RunState.address, ha]
  rw [haddr]
  exact ⟨by simp [RegisterFile.load, RegisterFile.get_of_lt hlt, ha], hterm⟩

theorem Keeps.refl (met : Std.TreeSet Register) (s : RunState) : Keeps met s s :=
  ⟨.refl _, rfl, fun _ _ => rfl⟩

theorem Keeps.trans (hst : Keeps met s t) (htu : Keeps met' t u) (hsub : ∀ x ∈ met, x ∈ met') :
    Keeps met s u where
  grows := hst.grows.trans htu.grows
  count := htu.count.trans hst.count
  values x hx := (htu.values x (hsub x hx)).trans (hst.values x hx)

theorem Keeps.address (hst : Keeps met s t) (hx : x ∈ met) : t.address x = s.address x := by
  rw [RunState.address, RunState.address, hst.values x hx]

theorem Ready.of_keeps (hs : Ready table k met left s) (hst : Keeps met s t) {left' : Nat}
    (ht : t.heap.WellBuilt table k left') : Ready table k met left' t where
  heap := ht
  le_top := Nat.le_trans hs.le_top hst.grows.size_le
  registers y hy := by
    obtain ⟨hlt, a, ha, hterm⟩ := hs.registers y hy
    exact ⟨hst.count ▸ hlt, a, (hst.values y hy).trans ha, hterm.grows hst.grows⟩

theorem Ready.meet (hs : Ready table k met left s) (hx : x < s.registers.count) {a : Address}
    (ha : s.registers.values[x]? = some a) (hterm : HasTerm k s.heap a)
    (hmet : ∀ y ∈ met', y = x ∨ y ∈ met) : Ready table k met' left s where
  heap := hs.heap
  le_top := hs.le_top
  registers y hy := by
    rcases hmet y hy with rfl | hy
    · exact ⟨hx, a, ha, hterm⟩
    · exact hs.registers y hy

theorem all_singleton (i : Instruction) (s : RunState) : Run.all [i] s = i.step s := by
  unfold Run.all
  rcases i.step s with ⟨_ | b, t⟩
  · rfl
  · cases b <;> rfl

section Ends

variable {post post' stuck stuck' : RunState → Prop} {n m : Nat}

theorem Ends.imp {h : Heap} {out : Except Fault Bool × RunState} (he : Ends post stuck n h out)
    (hpost : ∀ t, post t → post' t) (hstuck : ∀ t, stuck t → stuck' t) (hn : n ≤ m) :
    Ends post' stuck' m h out := by
  cases he with
  | matched hp => exact .matched (hpost _ hp)
  | mismatch hs => exact .mismatch (hstuck _ hs)
  | noRoom hlt => exact .noRoom (by omega)

theorem Ends.exists_matched {h : Heap} {out : Except Fault Bool × RunState}
    (he : Ends post (fun _ => False) n h out) (hroom : h.cells.size + n ≤ h.capacity) :
    ∃ t, out = (.ok true, t) ∧ post t := by
  cases he with
  | matched hp => exact ⟨_, rfl, hp⟩
  | mismatch hs => exact hs.elim
  | noRoom hlt => omega

/-- Code in sequence. -/
theorem Ends.append {is js : List Instruction} (his : Ends post stuck n s.heap (Run.all is s))
    (hstuck : ∀ t, stuck t → stuck' t)
    (hjs : ∀ t, post t → t.heap.capacity = s.heap.capacity ∧
      t.heap.cells.size ≤ s.heap.cells.size + n ∧ Ends post' stuck' m t.heap (Run.all js t)) :
    Ends post' stuck' (n + m) s.heap (Run.all (is ++ js) s) := by
  rw [all_append]
  generalize Run.all is s = out at his
  cases his with
  | mismatch hs => exact .mismatch (hstuck _ hs)
  | noRoom hlt => exact .noRoom (by omega)
  | @matched t hp =>
    obtain ⟨hcap, hsize, hrest⟩ := hjs t hp
    dsimp only
    generalize Run.all js t = out at hrest
    cases hrest with
    | matched hp => exact .matched hp
    | mismatch hs => exact .mismatch hs
    | noRoom hlt =>
      have hfull : full t.heap = full s.heap := by rw [full, full, hcap]
      rw [hfull]
      exact .noRoom (by omega)

end Ends

structure Argued (table : Functor.Table) (k : Address) (met : Std.TreeSet Register) (left : Nat)
    (x : Register) (slot : Address) (s t : RunState) : Prop where
  ready : Ready table k (Block.meet met x) left t
  keeps : Keeps met s t
  new : x ∉ met → t.address x = slot
  models : ∀ {D : Type} [TreeDomain D] (v : Address → D),
    t.heap.Models table k v ↔ s.heap.Models table k v ∧ v slot = v (t.address x)

variable {h h' : Heap} {r : RegisterFile} {c c' : Cursor} {a : Address}

theorem put_values_of_not_mem (hx : x ∉ met) (r : RegisterFile) (a : Address) {y : Register}
    (hy : y ∈ met) : (r.put x a).values[y]? = r.values[y]? := by
  have hne : x ≠ y := fun heq => hx (heq ▸ hy)
  rw [RegisterFile.put_values, if_neg hne]

/-- A register met for the first time gets the address of its slot. -/
theorem Argued.first (hs : Ready table k met left ⟨h, r, c⟩) (hx : x < r.count) (hnew : x ∉ met)
    (hg : Grows h h') {left' : Nat} (hw : h'.WellBuilt table k left') (hterm : HasTerm k h' a)
    (hmodels : ∀ {D : Type} [TreeDomain D] (v : Address → D),
      h'.Models table k v ↔ h.Models table k v) :
    Argued table k met left' x a ⟨h, r, c⟩ ⟨h', r.put x a, c'⟩ := by
  have hput : (r.put x a).values[x]? = some a := by rw [RegisterFile.put_values, if_pos rfl]
  have haddr : RunState.address ⟨h', r.put x a, c'⟩ x = a := by simp [RunState.address, hput]
  have hkeeps : Keeps met ⟨h, r, c⟩ ⟨h', r.put x a, c'⟩ :=
    ⟨hg, rfl, fun y hy => put_values_of_not_mem hnew r a hy⟩
  refine ⟨(hs.of_keeps hkeeps hw).meet hx hput hterm fun y => Block.mem_meet.1, hkeeps,
    fun _ => haddr, fun v => ?_⟩
  rw [haddr]
  exact ⟨fun hv => ⟨(hmodels v).1 hv, rfl⟩, fun hv => (hmodels v).2 hv.1⟩

theorem Argued.again (hs : Ready table k met left ⟨h, r, c⟩) (hx : x ∈ met) (hg : Grows h h')
    {left' : Nat} (hw : h'.WellBuilt table k left')
    (hmodels : ∀ {D : Type} [TreeDomain D] (v : Address → D), h'.Models table k v ↔
      h.Models table k v ∧ v a = v (RunState.address ⟨h, r, c⟩ x)) :
    Argued table k met left' x a ⟨h, r, c⟩ ⟨h', r, c'⟩ := by
  have hkeeps : Keeps met ⟨h, r, c⟩ ⟨h', r, c'⟩ := ⟨hg, rfl, fun _ _ => rfl⟩
  refine ⟨?_, hkeeps, fun hnew => absurd hx hnew, hmodels⟩
  have hready := hs.of_keeps hkeeps hw
  refine ⟨hready.heap, hready.le_top, fun y hy => ?_⟩
  rcases Block.mem_meet.1 hy with rfl | hy
  · exact hready.registers y hx
  · exact hready.registers y hy

/-- The slot is the next cell of the heap. -/
theorem setArgument_ends (hs : Ready table k met (left + 1) ⟨h, r, c⟩) (hx : x < r.count) :
    Ends (fun t => Argued table k met left x h.cells.size ⟨h, r, c⟩ t ∧
        t.heap.cells.size = h.cells.size + 1 ∧ t.cursor = c)
      (fun _ => False) 1 h
      ((if x ∈ met then Instruction.setValue x else Instruction.setVariable x).step ⟨h, r, c⟩) := by
  by_cases hmem : x ∈ met
  · rw [if_pos hmem]
    obtain ⟨hload, hk, d, hd, hterm⟩ := hs.load hmem
    have hstep := setValue_eq h r c x
    rw [hload] at hstep
    dsimp only at hstep
    rw [pushCopy_eq_push hd hterm, push_eq] at hstep
    by_cases hroom : h.cells.size + 1 ≤ h.capacity
    · rw [if_pos hroom] at hstep
      rw [Instruction.step, hstep]
      refine .matched ⟨.again hs hmem (grows_append h d) ?_ ?_, append_size h d, rfl⟩
      · exact hs.heap.append_copy hk hd hterm
      · exact fun v => models_append_copy hs.heap hk hd hterm
    · rw [if_neg hroom] at hstep
      rw [Instruction.step, hstep]
      exact .noRoom (by omega)
  · rw [if_neg hmem, Instruction.step, setVariable_eq]
    by_cases hroom : h.cells.size + 1 ≤ h.capacity
    · rw [if_pos hroom, if_pos hx]
      refine .matched ⟨.first hs hx hmem (grows_append h _) (hs.heap.append_variable hs.le_top) ?_
        (fun v => models_append_variable), append_size h _, rfl⟩
      exact ⟨hs.le_top, _, append_cell_top h _, trivial⟩
    · rw [if_neg hroom]
      exact .noRoom (by omega)

structure Refuted (table : Functor.Table) (k : Address) (h h' : Heap)
    (E : (D : Type) → [TreeDomain D] → (Address → D) → Prop) : Prop where
  heap : h'.WellBuilt table k 0
  grows : Grows h h'
  unsolvable : ∀ {D : Type} [TreeDomain D] (v : Address → D), h.Models table k v → ¬E D v

/-- The slot is a cell that is there already. -/
theorem readArgument_ends (hs : Ready table k met 0 ⟨h, r, c⟩) (hx : x < r.count)
    (hc : c.advance = (.ok (.read a), c')) (ha : HasTerm k h a) :
    Ends (fun t => Argued table k met 0 x a ⟨h, r, c⟩ t ∧ t.heap.cells.size = h.cells.size ∧
        t.cursor = c')
      (fun t => x ∈ met ∧ Refuted table k h t.heap fun _ _ v =>
        v a = v (RunState.address ⟨h, r, c⟩ x)) 0 h
      ((if x ∈ met then Instruction.unifyValue x else .unifyVariable x).step ⟨h, r, c⟩) := by
  by_cases hmem : x ∈ met
  · obtain ⟨hload, hterm⟩ := hs.load hmem
    obtain ⟨hw, hres⟩ := unify_spec hs.heap hterm ha
    have hsize := h.unify_size (RunState.address ⟨h, r, c⟩ x) a
    have hgrow := h.grows_unify (RunState.address ⟨h, r, c⟩ x) a
    rw [if_pos hmem, Instruction.step, unifyValue_eq, hload, hc]
    dsimp only at hw hres ⊢
    rcases hres with ⟨htrue, hmodels⟩ | ⟨hfalse, hnone⟩
    · rw [htrue]
      refine .matched ⟨.again hs hmem hgrow hw fun v => ?_, hsize, rfl⟩
      rw [hmodels, eq_comm (a := v a)]
    · rw [hfalse]
      exact .mismatch ⟨hmem, hw, hgrow, fun v hv heq => hnone v hv heq.symm⟩
  · rw [if_neg hmem, Instruction.step, unifyVariable_eq, hc]
    dsimp only
    rw [if_pos hx]
    exact .matched ⟨.first hs hx hmem (.refl h) hs.heap ha fun v => Iff.rfl, rfl, rfl⟩

abbrev slots (a : Address) (n : Nat) : List Address := List.range' a n

structure Arguments (table : Functor.Table) (k : Address) (met : Std.TreeSet Register)
    (xs : List Register) (slot : Address) (s t : RunState) : Prop where
  ready : Ready table k (Block.meetAll met xs) 0 t
  keeps : Keeps met s t
  sound : ∀ {D : Type} [TreeDomain D] {v : Address → D}, t.heap.Models table k v →
    (slots slot xs.length).map v = xs.map fun x => v (t.address x)
  complete : ∀ {D : Type} [TreeDomain D] {v : Address → D} {ν : Register → D},
    s.heap.Models table k v → Agree met s v ν → (slots slot xs.length).map v = xs.map ν →
    t.heap.Models table k v ∧ Agree (Block.meetAll met xs) t v ν

/-- What is known of a register and its slot is known after the argument. -/
theorem Argued.complete {slot : Address} (h : Argued table k met left x slot s t) {D : Type}
    [TreeDomain D] {v : Address → D} {ν : Register → D} (hv : s.heap.Models table k v)
    (hν : Agree met s v ν) (heq : v slot = ν x) :
    t.heap.Models table k v ∧ Agree (Block.meet met x) t v ν := by
  have haddr : v slot = v (t.address x) := by
    by_cases hx : x ∈ met
    · rw [h.keeps.address hx, hν x hx, heq]
    · rw [h.new hx]
  refine ⟨(h.models v).2 ⟨hv, haddr⟩, fun y hy => ?_⟩
  rcases Block.mem_meet.1 hy with rfl | hy
  · rw [← haddr, heq]
  · rw [h.keeps.address hy, hν y hy]

theorem Arguments.nil (hs : Ready table k met 0 s) (slot : Address) :
    Arguments table k met [] slot s s :=
  ⟨hs, .refl met s, fun _ => rfl, fun hv hν _ => ⟨hv, hν⟩⟩

theorem Arguments.cons {slot : Address} {xs : List Register}
    (h : Argued table k met left x slot s t)
    (hs : Arguments table k (Block.meet met x) xs (slot + 1) t u) :
    Arguments table k met (x :: xs) slot s u where
  ready := hs.ready
  keeps := h.keeps.trans hs.keeps fun y hy => Block.mem_meet.2 (.inr hy)
  sound := by
    intro D _ v hv
    have hone := ((h.models v).1 (.of_grows hs.keeps.grows hv)).2
    rw [← hs.keeps.address (Block.mem_meet.2 (.inl rfl))] at hone
    rw [List.length_cons, slots, List.range'_succ, List.map_cons, List.map_cons, hone]
    exact congrArg _ (hs.sound hv)
  complete := by
    intro D _ v ν hv hν heq
    rw [List.length_cons, slots, List.range'_succ, List.map_cons, List.map_cons,
      List.cons.injEq] at heq
    obtain ⟨hv', hν'⟩ := h.complete hv hν heq.1
    exact hs.complete hv' hν' heq.2

def Writes (style : Block.Style) (n : Nat) (c : Cursor) : Prop :=
  style = .query ∨ style = .program ∧ c.mode = .write ∧ c.left = n

theorem Writes.step {style : Block.Style} {n : Nat} (hw : Writes style (n + 1) c)
    (hs : Ready table k met left ⟨h, r, c⟩) (x : Register) :
    ∃ c', Writes style n c' ∧
      (if x ∈ met then style.again x else style.first x).step ⟨h, r, c⟩ =
      (if x ∈ met then Instruction.setValue x else Instruction.setVariable x).step ⟨h, r, c'⟩ := by
  rcases hw with rfl | ⟨rfl, hmode, hleft⟩
  · exact ⟨c, .inl rfl, rfl⟩
  · obtain ⟨mode, position, m⟩ := c
    dsimp only at hmode hleft
    subst hmode hleft
    refine ⟨⟨.write, position.offset 1, n⟩, .inr ⟨rfl, rfl, rfl⟩, ?_⟩
    by_cases hx : x ∈ met
    · obtain ⟨hload, -⟩ := hs.load hx
      rw [if_pos hx, if_pos hx]
      refine (unifyValue_eq h r _ x).trans ?_
      rw [hload]
      rfl
    · rw [if_neg hx, if_neg hx]
      exact unifyVariable_eq h r _ x

theorem writeArguments_ends {style : Block.Style} {xs : List Register}
    (hs : Ready table k met xs.length s) (hw : Writes style xs.length s.cursor)
    (hx : ∀ x ∈ xs, x < s.registers.count) :
    Ends (fun t => Arguments table k met xs s.heap.cells.size s t ∧
        t.heap.cells.size = s.heap.cells.size + xs.length)
      (fun _ => False) xs.length s.heap (Run.all (Block.argumentCode style met xs) s) := by
  induction xs generalizing met s with
  | nil => exact .matched ⟨.nil hs _, rfl⟩
  | cons x xs ih =>
    obtain ⟨h, r, c⟩ := s
    obtain ⟨c', hw', hstep⟩ := hw.step hs x
    have hs' : Ready table k met (xs.length + 1) ⟨h, r, c'⟩ :=
      hs.of_keeps (t := ⟨h, r, c'⟩) ⟨.refl h, rfl, fun _ _ => rfl⟩ hs.heap
    have hone := setArgument_ends hs' (hx x List.mem_cons_self)
    rw [← hstep, ← all_singleton] at hone
    refine Ends.imp (n := 1 + xs.length) ?_ (fun _ => id) (fun _ => id)
      (Nat.le_of_eq (Nat.add_comm _ _))
    refine hone.append (s := ⟨h, r, c⟩) (fun _ => id) fun t ⟨harg, hsize, hcursor⟩ => ?_
    have harg' : Argued table k met xs.length x h.cells.size ⟨h, r, c⟩ t :=
      ⟨harg.ready, ⟨harg.keeps.grows, harg.keeps.count, harg.keeps.values⟩, harg.new, harg.models⟩
    refine ⟨harg.keeps.grows.capacity, Nat.le_of_eq hsize, ?_⟩
    have hrest := ih harg.ready (hcursor ▸ hw') fun y hy =>
      harg.keeps.count ▸ hx y (List.mem_cons_of_mem x hy)
    refine hrest.imp (fun u ⟨hu, husize⟩ => ⟨.cons harg' (hsize ▸ hu), ?_⟩) (fun _ => id)
      (Nat.le_refl _)
    rw [husize, hsize, List.length_cons, Nat.add_assoc, Nat.add_comm 1]

theorem readArguments_ends {xs : List Register} {slot : Address} (hs : Ready table k met 0 s)
    (hc : s.cursor = ⟨.read, slot, xs.length⟩) (hx : ∀ x ∈ xs, x < s.registers.count)
    (hterm : ∀ i < xs.length, HasTerm k s.heap (slot + i)) :
    Ends (fun t => Arguments table k met xs slot s t ∧ t.heap.cells.size = s.heap.cells.size)
      (fun t => Refuted table k s.heap t.heap fun _ _ v =>
        ∃ ν, Agree met s v ν ∧ (slots slot xs.length).map v = xs.map ν) 0 s.heap
      (Run.all (Block.argumentCode .program met xs) s) := by
  induction xs generalizing met s slot with
  | nil => exact .matched ⟨.nil hs _, rfl⟩
  | cons x xs ih =>
    obtain ⟨h, r, c⟩ := s
    dsimp only at hc
    subst hc
    have hcons : ∀ {D : Type} (v : Address → D) (ν : Register → D),
        (slots slot (x :: xs).length).map v = (x :: xs).map ν →
          v slot = ν x ∧ (slots (slot + 1) xs.length).map v = xs.map ν := by
      intro D v ν heq
      simpa [slots, List.range'_succ] using heq
    have hnext : Cursor.advance ⟨.read, slot, xs.length + 1⟩ =
        (.ok (.read slot), ⟨.read, slot + 1, xs.length⟩) := rfl
    have hone := readArgument_ends hs (hx x List.mem_cons_self) hnext (hterm 0 (Nat.succ_pos _))
    rw [← all_singleton] at hone
    refine hone.append (s := ⟨h, r, ⟨.read, slot, xs.length + 1⟩⟩) (m := 0) ?_
      fun t ⟨harg, hsize, hcursor⟩ => ?_
    · rintro t ⟨hmem, hw, hg, hnone⟩
      refine ⟨hw, hg, fun v hv ⟨ν, hν, heq⟩ => hnone v hv ?_⟩
      rw [hν x hmem]
      exact (hcons v ν heq).1
    · refine ⟨harg.keeps.grows.capacity, Nat.le_of_eq hsize, ?_⟩
      have hrest := ih harg.ready hcursor
        (fun y hy => harg.keeps.count ▸ hx y (List.mem_cons_of_mem x hy)) fun i hi => by
          have hnext := hterm (i + 1) (Nat.succ_lt_succ hi)
          rw [Nat.add_comm i, ← Nat.add_assoc] at hnext
          exact hnext.grows harg.keeps.grows
      refine hrest.imp (fun u ⟨hu, husize⟩ => ⟨.cons harg hu, husize.trans hsize⟩) ?_
        (Nat.le_refl _)
      rintro u ⟨hw, hg, hnone⟩
      refine ⟨hw, harg.keeps.grows.trans hg, fun v hv ⟨ν, hν, heq⟩ => ?_⟩
      obtain ⟨hhead, htail⟩ := hcons v ν heq
      obtain ⟨hv', hν'⟩ := harg.complete hv hν hhead
      exact hnone v hv' ⟨ν, hν', htail⟩

end Run
end TermMachine
