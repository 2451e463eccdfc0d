import TermMachine.Proofs.Machine.Vocabulary

/-! # What the cursor sees

The instruction of a structure sets the cursor to as many arguments as there are instructions behind
it, and each of these takes one: in read mode the next cell behind the functor cell, whatever has
been bound in the structure meanwhile, and in write mode the next cell at the top of the heap.
-/
namespace TermMachine

open Heap

inductive RunState.Reaches (root : Option Address) (s : RunState) : Address → Prop
  | register {x : Register} {a : Address} : s.registers.values[x]? = some a → Reaches root s a
  | root {a : Address} : root = some a → Reaches root s a
  | reference {a b : Address} : Reaches root s a → s.heap.cells[a]? = some (.ref b) →
      Reaches root s b
  | argument {a t : Address} {f : FunctorId} {n : Arity} {i : Nat} : Reaches root s a →
      s.heap.cells[a]? = some (.str t) → s.heap.cells[t]? = some (.functor f n) → i < n.val →
      Reaches root s (t + (i + 1))

/-- Every structure that is reached has its functor cell, and behind it all its arguments. -/
def RunState.Whole (root : Option Address) (s : RunState) : Prop :=
  ∀ a t, s.Reaches root a → s.heap.cells[a]? = some (.str t) →
    ∃ f n, s.heap.cells[t]? = some (.functor f n) ∧
      ∀ i < n.val, ∃ c, s.heap.cells[t + (i + 1)]? = some c ∧ c.IsTerm

def RunState.Finds (s : RunState) (x : Register) (f : FunctorId) (n : Arity) (u : Address) : Prop :=
  ∃ a b, s.registers.values[x]? = some a ∧ s.heap.deref a = .ok b ∧
    s.heap.cells[b]? = some (.str u) ∧ s.heap.cells[u]? = some (.functor f n)

def RunState.sees (s : RunState) : Except Cursor.Fault Cursor.Argument := s.cursor.advance.1

inductive Instruction.Takes (a : Address) (s : RunState) : Instruction → RunState → Prop
  | variable (x : Register) (c : Cursor) :
      Takes a s (.unifyVariable x) ⟨s.heap, s.registers.put x a, c⟩
  | value {x : Register} {b : Address} (c : Cursor) : s.registers.values[x]? = some b →
      Takes a s (.unifyValue x) ⟨(s.heap.unify b a).2, s.registers, c⟩

def Instruction.Unifies (i : Instruction) : Prop :=
  ∃ x, i = .unifyVariable x ∨ i = .unifyValue x

namespace Run

/-- The instructions read the cells behind the functor cell at `u`, each once and in order. -/
def ReadsBehind (u : Address) (args : List Instruction) (s : RunState) : Prop :=
  ∀ done i later t, args = done ++ i :: later → Run.all done s = (.ok true, t) →
    t.sees = .ok (.read (u + (done.length + 1))) ∧
      ∀ t', i.step t = (.ok true, t') → i.Takes (u + (done.length + 1)) t t'

/-- The instructions append the cells behind the functor cell at `u`, one after the other. -/
def WritesBehind (u : Address) (args : List Instruction) (s : RunState) : Prop :=
  ∀ done i later t, args = done ++ i :: later → Run.all done s = (.ok true, t) →
    t.sees = .ok .write ∧ t.heap.top = u + (done.length + 1) ∧
      ∀ t', i.step t = (.ok true, t') → ∃ c, c.IsTerm ∧ t'.heap = t.heap.append c

theorem all_append_eq_ok {is js : List Instruction} {s t : RunState} :
    Run.all (is ++ js) s = (.ok true, t) ↔
      ∃ u, Run.all is s = (.ok true, u) ∧ Run.all js u = (.ok true, t) := by
  rw [all_append]
  constructor
  · intro hrun
    generalize Run.all is s = out at hrun ⊢
    rcases out with ⟨_ | _ | _, u⟩
    · cases hrun
    · cases hrun
    · exact ⟨u, rfl, hrun⟩
  · rintro ⟨u, hfirst, hrest⟩
    rw [hfirst]
    exact hrest

theorem all_cons_eq_ok {i : Instruction} {is : List Instruction} {s t : RunState} :
    Run.all (i :: is) s = (.ok true, t) ↔
      ∃ u, i.step s = (.ok true, u) ∧ Run.all is u = (.ok true, t) := by
  rw [← List.singleton_append, all_append_eq_ok]
  simp only [all_singleton]

theorem step_grows (i : Instruction) (s : RunState) : Grows s.heap (i.step s).2.heap := by
  have heffect := step_effect i s
  generalize (i.step s).2.heap = h' at heffect
  cases heffect with
  | same => exact .refl _
  | term => exact grows_append _ _
  | structured => exact grows_appendStructure _ _ _
  | built _ ha =>
    exact (grows_appendStructure _ _ _).trans (grows_point (appendStructure_cell_of_some ha _ _) _)
  | unified => exact grows_unify _ _ _

theorem all_grows {is : List Instruction} {s t : RunState}
    (hrun : Run.all is s = (.ok true, t)) : Grows s.heap t.heap := by
  induction is generalizing s with
  | nil =>
    obtain rfl := (Prod.mk.inj hrun).2
    exact .refl _
  | cons i is ih =>
    obtain ⟨u, hstep, hrest⟩ := all_cons_eq_ok.1 hrun
    have hi := step_grows i s
    rw [hstep] at hi
    exact hi.trans (ih hrest)

section Succeeds

variable {h : Heap} {r : RegisterFile} {c : Cursor} {f : FunctorId} {n : Arity} {x : Register}
  {t : RunState}

/-- A structure is built at an unbound reference, or it is found. -/
theorem matchStructure_eq_ok {a : Address}
    (hstep : matchStructure f n a ⟨h, r, c⟩ = (.ok true, t)) :
    (∃ b, h.cells[b]? = some (.ref b) ∧ t = ⟨built h f n b, r, c.writing n⟩) ∨
    ∃ b u, h.deref a = .ok b ∧ h.cells[b]? = some (.str u) ∧ h.cells[u]? = some (.functor f n) ∧
      t = ⟨h, r, .reading (u + 1) n⟩ := by
  rw [matchStructure_eq] at hstep
  cases hd : h.deref a with
  | error e =>
    rw [hd] at hstep
    cases hstep
  | ok b =>
    obtain ⟨d, hcell, hend⟩ := (resolves_of_deref hd).cell
    rw [hd] at hstep
    dsimp only at hstep
    rw [hcell] at hstep
    cases d with
    | functor g m => cases hstep
    | ref e =>
      obtain rfl := hend e rfl
      dsimp only at hstep
      split at hstep
      · exact .inl ⟨e, hcell, (Prod.mk.inj hstep).2.symm⟩
      · cases hstep
    | str u =>
      dsimp only at hstep
      cases hfun : h.functorAt u with
      | error e =>
        rw [hfun] at hstep
        cases hstep
      | ok found =>
        rw [hfun] at hstep
        dsimp only at hstep
        by_cases hfound : found = (f, n)
        · rw [if_pos hfound] at hstep
          exact .inr ⟨b, u, rfl, hcell, Worklist.functorAt_eq_ok (hfound ▸ hfun),
            (Prod.mk.inj hstep).2.symm⟩
        · rw [if_neg hfound] at hstep
          cases hstep

/-- So it is from a register, and in an empty register it is built. -/
theorem getStructure_eq_ok (hstep : getStructure f n x ⟨h, r, c⟩ = (.ok true, t)) :
    t = ⟨h.appendStructure f n, r.put x h.cells.size, c.writing n⟩ ∨
    (∃ b, h.cells[b]? = some (.ref b) ∧ t = ⟨built h f n b, r, c.writing n⟩) ∨
    ∃ u, RunState.Finds ⟨h, r, c⟩ x f n u ∧ t = ⟨h, r, .reading (u + 1) n⟩ := by
  rw [getStructure_eq] at hstep
  by_cases hx : x < r.count
  · rw [RegisterFile.get_of_lt hx] at hstep
    cases ha : r.values[x]? with
    | none =>
      rw [ha] at hstep
      exact .inl (putStructure_eq_ok hstep)
    | some a =>
      rw [ha] at hstep
      rcases matchStructure_eq_ok hstep with hbuilt | ⟨b, u, hd, hb, hu, ht⟩
      · exact .inr (.inl hbuilt)
      · exact .inr (.inr ⟨u, ⟨a, b, ha, hd, hb, hu⟩, ht⟩)
  · rw [RegisterFile.get, if_neg hx] at hstep
    cases hstep

/-- In write mode an argument is written as in a query. -/
theorem unifyVariable_eq_ok (hstep : unifyVariable x ⟨h, r, c⟩ = (.ok true, t)) :
    (∃ c', c.advance = (.ok .write, c') ∧ setVariable x ⟨h, r, c'⟩ = (.ok true, t)) ∨
    ∃ a c', c.advance = (.ok (.read a), c') ∧ t = ⟨h, r.put x a, c'⟩ := by
  rw [unifyVariable_eq] at hstep
  rcases hc : c.advance with ⟨_ | a | _, c'⟩
  · rw [hc] at hstep
    cases hstep
  · rw [hc] at hstep
    dsimp only at hstep
    split at hstep
    · exact .inr ⟨a, c', rfl, (Prod.mk.inj hstep).2.symm⟩
    · cases hstep
  · rw [hc] at hstep
    exact .inl ⟨c', rfl, hstep⟩

theorem unifyValue_eq_ok (hstep : unifyValue x ⟨h, r, c⟩ = (.ok true, t)) :
    (∃ c', c.advance = (.ok .write, c') ∧ setValue x ⟨h, r, c'⟩ = (.ok true, t)) ∨
    ∃ a b c', c.advance = (.ok (.read b), c') ∧ r.values[x]? = some a ∧
      t = ⟨(h.unify a b).2, r, c'⟩ := by
  rw [unifyValue_eq] at hstep
  cases hload : r.load x with
  | error e =>
    rw [hload] at hstep
    cases hstep
  | ok a =>
    rw [hload] at hstep
    dsimp only at hstep
    rcases hc : c.advance with ⟨_ | b | _, c'⟩
    · rw [hc] at hstep
      cases hstep
    · rw [hc] at hstep
      exact .inr ⟨a, b, c', rfl, (RegisterFile.load_eq_ok hload).2, (Prod.mk.inj hstep).2.symm⟩
    · rw [hc] at hstep
      exact .inl ⟨c', rfl, hstep⟩

end Succeeds

structure Tidy (k : Address) (left : Nat) (s : RunState) : Prop where
  heap : s.heap.Complete k left
  le_top : k ≤ s.heap.cells.size
  registers : ∀ {x : Register} {a : Address}, s.registers.values[x]? = some a → HasTerm k s.heap a

structure Idle (k : Address) (s : RunState) : Prop extends Tidy k 0 s where
  outside : s.cursor.left = 0

structure Reading (k slot : Address) (left : Nat) (s : RunState) : Prop extends Tidy k 0 s where
  cursor : s.cursor = ⟨.read, slot, left⟩
  slots : ∀ i < left, HasTerm k s.heap (slot + i)

structure Writing (k : Address) (left : Nat) (s : RunState) : Prop extends Tidy k left s where
  mode : s.cursor.mode = .write
  left : s.cursor.left = left

section Invariants

variable {k slot : Address} {left left' : Nat} {f : FunctorId} {n : Arity} {x : Register}
  {i : Instruction} {args done : List Instruction} {s t : RunState}

theorem Tidy.reaches (hs : Tidy k 0 s) {root : Option Address}
    (hroot : ∀ a, root = some a → HasTerm k s.heap a) {a : Address} (ha : s.Reaches root a) :
    HasTerm k s.heap a := by
  induction ha with
  | register hx => exact hs.registers hx
  | root ha => exact hroot _ ha
  | reference _ hc ih => exact hs.heap.ref_term ih.1 hc
  | argument _ hc hf hi ih =>
    exact hs.heap.arguments_hasTerm (hs.heap.str_functor ih.1 hc).1 hf hi

theorem Tidy.whole (hs : Tidy k 0 s) {root : Option Address}
    (hroot : ∀ a, root = some a → HasTerm k s.heap a) : s.Whole root := by
  intro a u ha hc
  obtain ⟨hk, f, n, hf⟩ := hs.heap.str_functor (hs.reaches hroot ha).1 hc
  exact ⟨f, n, hf, fun i hi => (hs.heap.arguments_hasTerm hk hf hi).2⟩

theorem Tidy.grows (hs : Tidy k left s) {h : Heap} (hg : Grows s.heap h) (hh : h.Complete k left')
    (c : Cursor) : Tidy k left' ⟨h, s.registers, c⟩ where
  heap := hh
  le_top := Nat.le_trans hs.le_top hg.size_le
  registers hx := (hs.registers hx).grows hg

theorem Tidy.put (hs : Tidy k left s) {a : Address} (ha : HasTerm k s.heap a) (x : Register) :
    Tidy k left ⟨s.heap, s.registers.put x a, s.cursor⟩ where
  heap := hs.heap
  le_top := hs.le_top
  registers := by
    intro y b hy
    rw [RegisterFile.put_values] at hy
    split at hy
    · cases hy
      exact ha
    · exact hs.registers hy

theorem Tidy.appendStructure (hs : Tidy k 0 s) (f : FunctorId) (n : Arity) (x : Register)
    (c : Cursor) :
    Tidy k n.val ⟨s.heap.appendStructure f n, s.registers.put x s.heap.cells.size, c⟩ :=
  (hs.grows (grows_appendStructure _ f n) (hs.heap.appendStructure hs.le_top f n) c).put
    ⟨hs.le_top, _, appendStructure_cell_top _ f n, trivial⟩ x

theorem Tidy.built (hs : Tidy k 0 s) (f : FunctorId) (n : Arity) {b : Address}
    (hb : s.heap.cells[b]? = some (.ref b)) (c : Cursor) :
    Tidy k n.val ⟨built s.heap f n b, s.registers, c⟩ := by
  have hb' := appendStructure_cell_of_some hb f n
  refine hs.grows ((grows_appendStructure _ f n).trans (grows_point hb' _)) ?_ c
  exact (hs.heap.appendStructure hs.le_top f n).point hb' hs.le_top
    (appendStructure_cell_top _ f n) trivial (.inr ⟨_, rfl⟩)

structure Wrote (k : Address) (left : Nat) (s t : RunState) : Prop extends Tidy k (left - 1) t where
  cursor : t.cursor = s.cursor
  heap_eq : ∃ c, c.IsTerm ∧ t.heap = s.heap.append c

theorem Tidy.setVariable (hs : Tidy k left s) (hstep : setVariable x s = (.ok true, t)) :
    Wrote k left s t := by
  obtain ⟨h, r, c⟩ := s
  obtain rfl := setVariable_eq_ok hstep
  have hnew : HasTerm k (h.append (.ref h.cells.size)) h.cells.size :=
    ⟨hs.le_top, _, append_cell_top _ _, trivial⟩
  exact ⟨(hs.grows (grows_append _ _) (hs.heap.append_variable hs.le_top) c).put hnew x, rfl,
    .ref _, trivial, rfl⟩

theorem Tidy.setValue (hs : Tidy k left s) (hstep : setValue x s = (.ok true, t)) :
    Wrote k left s t := by
  obtain ⟨h, r, c⟩ := s
  obtain ⟨a, d, ha, hd, rfl⟩ := setValue_eq_ok hstep
  obtain ⟨hk, e, he, hterm⟩ := hs.registers ha
  obtain rfl : e = d := Option.some.inj (he.symm.trans hd)
  exact ⟨hs.grows (grows_append _ _) (hs.heap.append_copy hk hd hterm) c, rfl, _, hterm, rfl⟩

theorem Writing.sees (hs : Writing k (left + 1) s) : s.sees = .ok .write := by
  obtain ⟨h, r, ⟨mode, position, l⟩⟩ := s
  obtain rfl : mode = .write := hs.mode
  obtain rfl : l = left + 1 := hs.left
  rfl

theorem Reading.sees (hs : Reading k slot left s) (hleft : left ≠ 0) :
    s.sees = .ok (.read slot) := by
  obtain ⟨h, r, c⟩ := s
  obtain rfl : c = ⟨.read, slot, left⟩ := hs.cursor
  obtain ⟨l, rfl⟩ := Nat.exists_eq_succ_of_ne_zero hleft
  rfl

/-- In write mode an argument is the next cell. -/
theorem Writing.step (hs : Writing k (left + 1) s) (hi : i.Unifies)
    (hstep : i.step s = (.ok true, t)) :
    Writing k left t ∧ ∃ c, c.IsTerm ∧ t.heap = s.heap.append c := by
  obtain ⟨h, r, ⟨mode, position, l⟩⟩ := s
  obtain rfl : mode = .write := hs.mode
  obtain rfl : l = left + 1 := hs.left
  have hmoved : Tidy k (left + 1) ⟨h, r, ⟨.write, position.offset 1, left⟩⟩ :=
    hs.toTidy.grows (.refl h) hs.heap _
  -- the cursor has moved on when the argument is written
  have hwrote : Wrote k (left + 1) ⟨h, r, ⟨.write, position.offset 1, left⟩⟩ t := by
    obtain ⟨x, rfl | rfl⟩ := hi
    · rcases unifyVariable_eq_ok hstep with ⟨c', hc, hset⟩ | ⟨a, c', hc, -⟩
      · cases hc
        exact hmoved.setVariable hset
      · cases hc
    · rcases unifyValue_eq_ok hstep with ⟨c', hc, hset⟩ | ⟨a, b, c', hc, -, -⟩
      · cases hc
        exact hmoved.setValue hset
      · cases hc
  exact ⟨⟨hwrote.toTidy, by rw [hwrote.cursor], by rw [hwrote.cursor]⟩, hwrote.heap_eq⟩

/-- In read mode an argument is the term in the slot, whatever gets bound. -/
theorem Reading.step (hs : Reading k slot (left + 1) s) (hi : i.Unifies)
    (hstep : i.step s = (.ok true, t)) : Reading k (slot + 1) left t ∧ i.Takes slot s t := by
  obtain ⟨h, r, c⟩ := s
  obtain rfl : c = ⟨.read, slot, left + 1⟩ := hs.cursor
  have hslot : HasTerm k h slot := hs.slots 0 (by lia)
  have hslots : ∀ i < left, HasTerm k h (slot + 1 + i) := fun i hi => by
    have hnext := hs.slots (i + 1) (by lia)
    rwa [show slot + (i + 1) = slot + 1 + i by lia] at hnext
  have hmoved : Tidy k 0 ⟨h, r, ⟨.read, slot.offset 1, left⟩⟩ :=
    hs.toTidy.grows (.refl h) hs.heap _
  obtain ⟨x, rfl | rfl⟩ := hi
  · rcases unifyVariable_eq_ok hstep with ⟨c', hc, -⟩ | ⟨a, c', hc, rfl⟩
    · cases hc
    · cases hc
      exact ⟨⟨hmoved.put hslot x, rfl, hslots⟩, .variable x _⟩
  · rcases unifyValue_eq_ok hstep with ⟨c', hc, -⟩ | ⟨a, b, c', hc, ha, rfl⟩
    · cases hc
    · cases hc
      have hgrow := h.grows_unify a slot
      have hheap := hs.heap.unify (hs.registers ha).1 hslot.1
      exact ⟨⟨hmoved.grows hgrow hheap _, rfl, fun i hi => (hslots i hi).grows hgrow⟩,
        .value _ ha⟩

theorem Writing.all (hs : Writing k (done.length + left) s) (hdone : ∀ i ∈ done, i.Unifies)
    (hrun : Run.all done s = (.ok true, t)) :
    Writing k left t ∧ t.heap.top = s.heap.top + done.length := by
  induction done generalizing s with
  | nil =>
    obtain rfl := (Prod.mk.inj hrun).2
    exact ⟨by simpa using hs, rfl⟩
  | cons i done ih =>
    obtain ⟨u, hstep, hrest⟩ := all_cons_eq_ok.1 hrun
    rw [List.length_cons, Nat.add_right_comm] at hs
    obtain ⟨hu, c, -, hc⟩ := hs.step (hdone i List.mem_cons_self) hstep
    obtain ⟨ht, htop⟩ := ih hu (fun j hj => hdone j (List.mem_cons_of_mem i hj)) hrest
    refine ⟨ht, htop.trans ?_⟩
    rw [hc, Heap.top, append_size, List.length_cons, Heap.top]
    lia

theorem Reading.all (hs : Reading k slot (done.length + left) s) (hdone : ∀ i ∈ done, i.Unifies)
    (hrun : Run.all done s = (.ok true, t)) : Reading k (slot + done.length) left t := by
  induction done generalizing s slot with
  | nil =>
    obtain rfl := (Prod.mk.inj hrun).2
    simpa using hs
  | cons i done ih =>
    obtain ⟨u, hstep, hrest⟩ := all_cons_eq_ok.1 hrun
    rw [List.length_cons, Nat.add_right_comm] at hs
    obtain ⟨hu, -⟩ := hs.step (hdone i List.mem_cons_self) hstep
    have ht := ih hu (fun j hj => hdone j (List.mem_cons_of_mem i hj)) hrest
    rwa [show slot + 1 + done.length = slot + (i :: done).length by
      rw [List.length_cons]; lia] at ht

theorem Writing.idle (hs : Writing k args.length s) (hargs : ∀ i ∈ args, i.Unifies)
    (hrun : Run.all args s = (.ok true, t)) : Idle k t :=
  have ht : Writing k 0 t := (Writing.all hs hargs hrun).1
  ⟨ht.toTidy, ht.left⟩

theorem Reading.idle (hs : Reading k slot args.length s) (hargs : ∀ i ∈ args, i.Unifies)
    (hrun : Run.all args s = (.ok true, t)) : Idle k t :=
  have ht : Reading k (slot + args.length) 0 t := Reading.all hs hargs hrun
  ⟨ht.toTidy, by rw [ht.cursor]⟩

theorem Writing.writesBehind {u : Address} (hs : Writing k args.length s)
    (hargs : ∀ i ∈ args, i.Unifies) (htop : s.heap.top = u + 1) : WritesBehind u args s := by
  rintro done i later t rfl hrun
  rw [List.length_append, List.length_cons] at hs
  obtain ⟨ht, htop'⟩ := hs.all (fun j hj => hargs j (List.mem_append_left _ hj)) hrun
  refine ⟨ht.sees, by rw [htop', htop]; lia, fun t' hstep => ?_⟩
  exact (ht.step (hargs i (by simp)) hstep).2

theorem Reading.readsBehind {u : Address} (hs : Reading k (u + 1) args.length s)
    (hargs : ∀ i ∈ args, i.Unifies) : ReadsBehind u args s := by
  rintro done i later t rfl hrun
  rw [List.length_append, List.length_cons] at hs
  have ht := hs.all (fun j hj => hargs j (List.mem_append_left _ hj)) hrun
  rw [show u + 1 + done.length = u + (done.length + 1) by lia] at ht
  exact ⟨ht.sees (by lia), fun t' hstep => (ht.step (hargs i (by simp)) hstep).2⟩

end Invariants

end Run
end TermMachine
