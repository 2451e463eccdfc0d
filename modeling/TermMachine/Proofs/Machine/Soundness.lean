import Mathlib.Data.Finset.Card
import Mathlib.Data.Finset.Range
import TermMachine.Machine.Decode
import TermMachine.Proofs.Heap.Worklist
import TermMachine.Proofs.Machine.History
import TermMachine.Proofs.Machine.Instruction

/-! # Soundness under arbitrary code

Whatever code a machine is given, its heap stays sound and within its capacity. So reference chains
end, structure cells have their functors, and neither a run nor reading back finds otherwise.
-/
namespace TermMachine

def Fault.IsDisorder : Fault → Prop
  | .memory fault => fault.IsDisorder
  | _ => False

@[simp] theorem isDisorder_memory (e : Heap.Fault) :
    (Fault.memory e).IsDisorder ↔ e.IsDisorder := Iff.rfl
@[simp] theorem isDisorder_registers (e : RegisterFile.Fault) :
    ¬(Fault.registers e).IsDisorder := id
@[simp] theorem isDisorder_cursor (e : Cursor.Fault) : ¬(Fault.cursor e).IsDisorder := id
@[simp] theorem isDisorder_unknownFunctor (f : FunctorId) :
    ¬(Fault.unknownFunctor f).IsDisorder := id

structure Heap.InOrder (capacity : Nat) (h : Heap) : Prop where
  sound : h.SoundFrom 0
  capacity_eq : h.capacity = capacity
  size_le : h.cells.size ≤ capacity

namespace Run

variable {α : Type} {cap : Nat} {h : Heap}

/-- An action that ends with its heap in order, and in no fault that this excludes. -/
def EndsInOrder (cap : Nat) (out : Except Fault α × RunState) : Prop :=
  out.2.heap.InOrder cap ∧ ∀ e, out.1 = .error e → ¬e.IsDisorder

theorem endsInOrder_ok (hh : h.InOrder cap) (a : α) (r : RegisterFile) (c : Cursor) :
    EndsInOrder cap (.ok a, ⟨h, r, c⟩) := ⟨hh, by simp⟩

theorem endsInOrder_error (hh : h.InOrder cap) {e : Fault} (he : ¬e.IsDisorder) (r : RegisterFile)
    (c : Cursor) : EndsInOrder cap ((.error e, ⟨h, r, c⟩) : Except Fault α × RunState) :=
  ⟨hh, by rintro _ ⟨⟩; exact he⟩

theorem putStructure_inOrder (hh : h.InOrder cap) (f : FunctorId) (n : Arity) (x : Register)
    (r : RegisterFile) (c : Cursor) : EndsInOrder cap (putStructure f n x ⟨h, r, c⟩) := by
  rw [putStructure_eq]
  by_cases hroom : h.cells.size + 2 ≤ h.capacity
  · have hnew : (h.appendStructure f n).InOrder cap :=
      ⟨hh.sound.appendStructure (Nat.zero_le _) f n, hh.capacity_eq,
        by simpa [← hh.capacity_eq] using hroom⟩
    rw [if_pos hroom]
    split
    · exact endsInOrder_ok hnew _ _ _
    · exact endsInOrder_error hnew (by simp) _ _
  · rw [if_neg hroom]
    exact endsInOrder_error hh (by simp) _ _

theorem setVariable_inOrder (hh : h.InOrder cap) (x : Register) (r : RegisterFile) (c : Cursor) :
    EndsInOrder cap (setVariable x ⟨h, r, c⟩) := by
  rw [setVariable_eq]
  by_cases hroom : h.cells.size + 1 ≤ h.capacity
  · have hnew : (h.append (.ref h.cells.size)).InOrder cap :=
      ⟨hh.sound.append_variable (Nat.zero_le _), hh.capacity_eq,
        by simpa [← hh.capacity_eq] using hroom⟩
    rw [if_pos hroom]
    split
    · exact endsInOrder_ok hnew _ _ _
    · exact endsInOrder_error hnew (by simp) _ _
  · rw [if_neg hroom]
    exact endsInOrder_error hh (by simp) _ _

theorem setValue_inOrder (hh : h.InOrder cap) (x : Register) (r : RegisterFile) (c : Cursor) :
    EndsInOrder cap (setValue x ⟨h, r, c⟩) := by
  rw [setValue_eq]
  cases r.load x with
  | error e => exact endsInOrder_error hh (by simp) _ _
  | ok a =>
    rcases h.pushCopy_cases a with ⟨d, hd, -, heq⟩ | ⟨e, he, heq⟩
    · simp only [heq, Heap.push_eq]
      by_cases hroom : h.cells.size + 1 ≤ h.capacity
      · rw [if_pos hroom]
        exact endsInOrder_ok ⟨hh.sound.append_copy (Nat.zero_le _) hd, hh.capacity_eq,
          by simpa [← hh.capacity_eq] using hroom⟩ _ _ _
      · rw [if_neg hroom]
        exact endsInOrder_error hh (by simp) _ _
    · simp only [heq]
      exact endsInOrder_error hh (by simpa using he) _ _

theorem unifyVariable_inOrder (hh : h.InOrder cap) (x : Register) (r : RegisterFile)
    (c : Cursor) : EndsInOrder cap (unifyVariable x ⟨h, r, c⟩) := by
  rw [unifyVariable_eq]
  rcases c.advance with ⟨e | a | _, c⟩
  · exact endsInOrder_error hh (by simp) _ _
  · dsimp only
    split
    · exact endsInOrder_ok hh _ _ _
    · exact endsInOrder_error hh (by simp) _ _
  · exact setVariable_inOrder hh x r c

theorem unify_inOrder (hh : h.InOrder cap) (a b : Address) (r : RegisterFile) (c : Cursor) :
    EndsInOrder cap ((h.unify a b).1.mapError .memory, ⟨(h.unify a b).2, r, c⟩) := by
  have hnew : (h.unify a b).2.InOrder cap :=
    ⟨hh.sound.unify (Nat.zero_le a) (Nat.zero_le b),
      (h.grows_unify a b).capacity.trans hh.capacity_eq, by rw [h.unify_size]; exact hh.size_le⟩
  cases hu : (h.unify a b).1 with
  | error e =>
    have he := hh.sound.unify_error (Nat.zero_le a) (Nat.zero_le b) hu
    exact endsInOrder_error hnew (by simpa using he) _ _
  | ok ok => exact endsInOrder_ok hnew _ _ _

theorem unifyValue_inOrder (hh : h.InOrder cap) (x : Register) (r : RegisterFile) (c : Cursor) :
    EndsInOrder cap (unifyValue x ⟨h, r, c⟩) := by
  rw [unifyValue_eq]
  cases r.load x with
  | error e => exact endsInOrder_error hh (by simp) _ _
  | ok a =>
    dsimp only
    rcases c.advance with ⟨e | b | _, c⟩
    · exact endsInOrder_error hh (by simp) _ _
    · exact unify_inOrder hh a b r c
    · exact setValue_inOrder hh x r c

theorem built_inOrder (hh : h.InOrder cap) {f : FunctorId} {n : Arity} {a : Address}
    (ha : h.cells[a]? = some (.ref a)) (hroom : h.cells.size + 2 ≤ h.capacity) :
    (built h f n a).InOrder cap := by
  have ha' := Heap.appendStructure_cell_of_some ha f n
  have hb := h.appendStructure_cell_top f n
  exact ⟨(hh.sound.appendStructure (Nat.zero_le _) f n).point ha' (Nat.zero_le _) hb trivial
      (.inr ⟨_, rfl⟩), hh.capacity_eq, by simpa [built, ← hh.capacity_eq] using hroom⟩

theorem matchStructure_inOrder (hh : h.InOrder cap) (f : FunctorId) (n : Arity) (a : Address)
    (r : RegisterFile) (c : Cursor) : EndsInOrder cap (matchStructure f n a ⟨h, r, c⟩) := by
  rw [matchStructure_eq]
  cases hd : h.deref a with
  | error e => exact endsInOrder_error hh (by simp [hh.sound.deref_error (Nat.zero_le a) hd]) _ _
  | ok b =>
    obtain ⟨d, hcell, hend⟩ := (Heap.resolves_of_deref hd).cell
    simp only [hcell]
    cases d with
    | ref t =>
      obtain rfl := hend t rfl
      by_cases hroom : h.cells.size + 2 ≤ h.capacity
      · rw [if_pos hroom]
        exact endsInOrder_ok (built_inOrder hh hcell hroom) _ _ _
      · rw [if_neg hroom]
        exact endsInOrder_error hh (by simp) _ _
    | str t =>
      obtain ⟨-, g, m, hg⟩ := hh.sound.str_functor (Nat.zero_le b) hcell
      simp only [Heap.functorAt, Heap.get_of_some hg]
      split
      · exact endsInOrder_ok hh _ _ _
      · exact endsInOrder_ok hh _ _ _
    | functor g m => exact endsInOrder_error hh (by simp) _ _

theorem getStructure_inOrder (hh : h.InOrder cap) (f : FunctorId) (n : Arity) (x : Register)
    (r : RegisterFile) (c : Cursor) : EndsInOrder cap (getStructure f n x ⟨h, r, c⟩) := by
  rw [getStructure_eq]
  rcases r.get x with e | _ | a
  · exact endsInOrder_error hh (by simp) _ _
  · exact putStructure_inOrder hh f n x r c
  · exact matchStructure_inOrder hh f n a r c

/-- One instruction of any kind, on any registers and any cursor. -/
theorem step_inOrder (i : Instruction) {s : RunState} (hs : s.heap.InOrder cap) :
    EndsInOrder cap (i.step s) := by
  obtain ⟨h, r, c⟩ := s
  cases i with
  | putStructure f n x => exact putStructure_inOrder hs f n x r c
  | setVariable x => exact setVariable_inOrder hs x r c
  | setValue x => exact setValue_inOrder hs x r c
  | getStructure f n x => exact getStructure_inOrder hs f n x r c
  | unifyVariable x => exact unifyVariable_inOrder hs x r c
  | unifyValue x => exact unifyValue_inOrder hs x r c

theorem all_inOrder (is : List Instruction) {s : RunState} (hs : s.heap.InOrder cap) :
    EndsInOrder cap (Run.all is s) := by
  induction is generalizing s with
  | nil => exact endsInOrder_ok hs _ _ _
  | cons i is ih =>
    have hi := step_inOrder i hs
    rw [Run.all]
    rcases hstep : i.step s with ⟨_ | b, t⟩
    · rw [hstep] at hi
      exact hi
    · rw [hstep] at hi
      cases b
      · exact hi
      · exact ih hi.1

end Run

namespace Machine

def InOrder (m : Machine) : Prop := m.state.heap.InOrder m.capacities.heap

theorem runState_inOrder {cap : Nat} {h : Heap} (hh : h.InOrder cap) (query program : Code)
    (r : RegisterFile) : (runState query program h r).2.1.heap.InOrder cap ∧
      ∀ e, (runState query program h r).1 = .error e → ¬e.IsDisorder := by
  have hq := Run.all_inOrder query.instructions (s := ⟨h, r.clear, .outside .write⟩) hh
  unfold runState
  rcases hrun : Run.all query.instructions ⟨h, r.clear, .outside .write⟩ with ⟨_ | _ | _, h, r, c⟩
  · rw [hrun] at hq
    exact hq
  · rw [hrun] at hq
    exact hq
  · rw [hrun] at hq
    dsimp only
    rcases Capture.ofRegisters query r with ⟨e | _, capture⟩
    · exact ⟨hq.1, by rintro _ ⟨⟩; simp⟩
    · exact Run.all_inOrder program.instructions (s := ⟨h, r, .outside .read⟩) hq.1

theorem inOrder_empty (capacity : Nat) : (Heap.empty capacity).InOrder capacity :=
  ⟨⟨by simp [Heap.empty], by simp [Heap.empty], by simp [Heap.empty]⟩, rfl, by simp [Heap.empty]⟩

theorem after_inOrder (m : Machine) (call : Call) (hm : m.InOrder) : (m.after call).InOrder := by
  cases call with
  | query t =>
    obtain ⟨hs, hc, -⟩ := load_keeps (Code.query t) m
    simpa [InOrder, after, compileQuery, hs, hc] using hm
  | program t =>
    obtain ⟨hs, hc, -⟩ := load_keeps (Code.program t) m
    simpa [InOrder, after, compileProgram, hs, hc] using hm
  | run query program => exact (runState_inOrder hm query program m.state.registers).1
  | reset =>
    have hcap : m.state.heap.clear = Heap.empty m.capacities.heap := by
      rw [Heap.clear, hm.capacity_eq, Heap.empty]
    show m.state.heap.clear.InOrder m.capacities.heap
    rw [hcap]
    exact inOrder_empty _

theorem afterAll_inOrder (capacities : Capacities) (calls : List Call) :
    ((create capacities).afterAll calls).InOrder :=
  afterAll_induction (I := InOrder) (m := create capacities) (inOrder_empty capacities.heap)
    after_inOrder calls

theorem after_capacities (m : Machine) (call : Call) :
    (m.after call).capacities = m.capacities := by
  cases call with
  | query t => exact (load_keeps (Code.query t) m).2.1
  | program t => exact (load_keeps (Code.program t) m).2.1
  | run query program => rfl
  | reset => rfl

theorem afterAll_capacities (capacities : Capacities) (calls : List Call) :
    ((create capacities).afterAll calls).capacities = capacities :=
  afterAll_induction (I := fun m => m.capacities = capacities) rfl
    (fun m call hm => (after_capacities m call).trans hm) calls

section ReadBack

variable {m : Machine} (hm : m.state.heap.SoundFrom 0)
include hm

theorem namesFrom_error {vars : List (String × Address)} {names : Names} {e : Heap.Fault}
    (he : namesFrom m.state.heap vars names = .error e) : ¬e.IsDisorder := by
  induction vars generalizing names with
  | nil => simp [namesFrom] at he
  | cons v vars ih =>
    obtain ⟨name, a⟩ := v
    rw [namesFrom] at he
    cases hd : m.state.heap.deref a with
    | error e' =>
      simp only [hd, Except.error.injEq] at he
      simp [← he, hm.deref_error (Nat.zero_le a) hd]
    | ok b =>
      simp only [hd] at he
      exact ih he

theorem names_error {e : Fault} (he : m.names = .error e) : ¬e.IsDisorder := by
  unfold names at he
  cases hn : namesFrom m.state.heap m.capture.vars ∅ with
  | error e' =>
    rw [hn] at he
    cases he
    exact namesFrom_error hm hn
  | ok names =>
    rw [hn] at he
    cases he

omit hm in
theorem readAll_error {read : Address → Except Fault Term} {count : Nat} {a : Address} {e : Fault}
    (he : readAll read count a = .error e) : ∃ b, read b = .error e := by
  induction count generalizing a with
  | zero => simp [readAll] at he
  | succ count ih =>
    rw [readAll] at he
    cases hr : read a with
    | error e' =>
      simp only [hr, Except.error.injEq] at he
      exact ⟨a, he ▸ hr⟩
    | ok t =>
      cases hrest : readAll read count (a.offset 1) with
      | error e' =>
        simp only [hr, hrest, Except.error.injEq] at he
        exact ih (he ▸ hrest)
      | ok ts => simp [hr, hrest] at he

omit hm in
theorem length_le_of_nodup {n : Nat} {l : List Nat} (hl : l.Nodup) (hlt : ∀ t ∈ l, t < n) :
    l.length ≤ n := by
  have hsub : l.toFinset ⊆ Finset.range n := by
    intro t ht
    exact Finset.mem_range.2 (hlt t (List.mem_toFinset.1 ht))
  simpa [List.toFinset_card_of_nodup hl] using Finset.card_le_card hsub

/-- The ancestors of a term that is read are distinct functor cells, so reading ends before it is
as deep as the heap has cells. -/
theorem readWithin_error {names : Names} {fuel : Nat} {ancestors : List Address} {a : Address}
    {e : Fault} (hnodup : ancestors.Nodup) (hlt : ∀ t ∈ ancestors, t < m.state.heap.cells.size)
    (hfuel : m.state.heap.cells.size < ancestors.length + fuel)
    (he : m.readWithin names fuel ancestors a = .error e) : ¬e.IsDisorder := by
  induction fuel generalizing ancestors a with
  | zero =>
    have hle := length_le_of_nodup hnodup hlt
    omega
  | succ fuel ih =>
    rw [readWithin] at he
    cases hd : m.state.heap.deref a with
    | error e' =>
      simp only [hd, Except.error.injEq] at he
      simp [← he, hm.deref_error (Nat.zero_le a) hd]
    | ok b =>
      obtain ⟨c, hc, -⟩ := (Heap.resolves_of_deref hd).cell
      cases c with
      | functor f n =>
        simp only [hd, Heap.get_of_some hc, Except.error.injEq] at he
        simp [← he]
      | ref t => simp [hd, Heap.get_of_some hc] at he
      | str t =>
        obtain ⟨-, f, n, hf⟩ := hm.str_functor (Nat.zero_le b) hc
        by_cases hmem : t ∈ ancestors
        · simp [hd, Heap.get_of_some hc, hmem] at he
        · simp only [hd, Heap.get_of_some hc, hmem, if_false, Heap.functorAt,
            Heap.get_of_some hf] at he
          cases hl : m.functors.lookup f with
          | none =>
            simp only [hl, Except.error.injEq] at he
            simp [← he]
          | some functor =>
            simp only [hl] at he
            by_cases hn : n = 0
            · simp [hn] at he
            · simp only [hn, if_false] at he
              cases hall : readAll (m.readWithin names fuel (t :: ancestors)) n.val (t.offset 1) with
              | ok args => simp [hall] at he
              | error e' =>
                simp only [hall, Except.error.injEq] at he
                obtain ⟨d, hread⟩ := readAll_error hall
                refine ih (List.nodup_cons.2 ⟨hmem, hnodup⟩) ?_ ?_ (he ▸ hread)
                · intro u hu
                  rcases List.mem_cons.1 hu with rfl | hu
                  · exact Heap.lt_size_of_getElem? hf
                  · exact hlt u hu
                · simp only [List.length_cons]
                  omega

theorem readNamed_error {names : Names} {a : Address} {e : Fault}
    (he : m.readNamed names a = .error e) : ¬e.IsDisorder :=
  readWithin_error hm List.nodup_nil (by simp) (by simp) he

theorem readTerm_error {a : Address} {e : Fault} (he : m.readTerm a = .error e) :
    ¬e.IsDisorder := by
  unfold readTerm at he
  cases hn : m.names with
  | error e' =>
    rw [hn] at he
    cases he
    exact names_error hm hn
  | ok names =>
    rw [hn] at he
    exact readNamed_error hm he

theorem queryTerm_error {e : Fault} (he : m.queryTerm = .error e) : ¬e.IsDisorder := by
  unfold queryTerm at he
  cases hroot : m.capture.root with
  | none => simp [hroot] at he
  | some a =>
    simp only [hroot] at he
    cases hr : m.readTerm a with
    | error e' =>
      rw [hr] at he
      cases he
      exact readTerm_error hm hr
    | ok t =>
      rw [hr] at he
      cases he

theorem readBindings_error {names : Names} {vars : List (String × Address)} {e : Fault}
    (he : m.readBindings names vars = .error e) : ¬e.IsDisorder := by
  induction vars with
  | nil => simp [readBindings] at he
  | cons v vars ih =>
    obtain ⟨name, a⟩ := v
    rw [readBindings] at he
    cases hr : m.readNamed names a with
    | error e' =>
      simp only [hr, Except.error.injEq] at he
      exact he ▸ readNamed_error hm hr
    | ok t =>
      cases hrest : m.readBindings names vars with
      | error e' =>
        simp only [hr, hrest, Except.error.injEq] at he
        exact ih (he ▸ hrest)
      | ok bindings => simp [hr, hrest] at he

theorem bindings_error {e : Fault} (he : m.bindings = .error e) : ¬e.IsDisorder := by
  unfold bindings at he
  cases hn : m.names with
  | error e' =>
    rw [hn] at he
    cases he
    exact names_error hm hn
  | ok names =>
    rw [hn] at he
    exact readBindings_error hm he

theorem binding_error {name : String} {e : Fault} (he : m.binding name = .error e) :
    ¬e.IsDisorder := by
  unfold binding at he
  cases hl : m.capture.vars.lookup name with
  | none => simp [hl] at he
  | some a =>
    simp only [hl] at he
    cases hr : m.readTerm a with
    | error e' =>
      rw [hr] at he
      cases he
      exact readTerm_error hm hr
    | ok t =>
      rw [hr] at he
      cases he

end ReadBack

/-- A machine whose heap is sound, and what cannot go wrong on it: reference chains end, whatever
is run next, and whatever is read. -/
structure Sound (capacity : Nat) (m : Machine) : Prop where
  size_le : m.state.heap.cells.size ≤ capacity
  heap : m.state.heap.SoundFrom 0
  deref : ∀ a < m.state.heap.cells.size, ∃ b, m.state.heap.deref a = .ok b
  run : ∀ query program e, (m.run query program).1 = .error e → ¬e.IsDisorder
  readTerm : ∀ a e, m.readTerm a = .error e → ¬e.IsDisorder
  queryTerm : ∀ e, m.queryTerm = .error e → ¬e.IsDisorder
  bindings : ∀ e, m.bindings = .error e → ¬e.IsDisorder
  binding : ∀ name e, m.binding name = .error e → ¬e.IsDisorder

theorem InOrder.sound {m : Machine} (hm : m.InOrder) : m.Sound m.capacities.heap where
  size_le := hm.size_le
  heap := Heap.InOrder.sound hm
  deref a ha := by
    obtain ⟨b, hb, -⟩ := (Heap.InOrder.sound hm).deref_ok (Nat.zero_le a) ha
    exact ⟨b, hb⟩
  run query program e he :=
    (runState_inOrder hm query program m.state.registers).2 e (by simpa [run_eq] using he)
  readTerm _ _ he := readTerm_error (Heap.InOrder.sound hm) he
  queryTerm _ he := queryTerm_error (Heap.InOrder.sound hm) he
  bindings _ he := bindings_error (Heap.InOrder.sound hm) he
  binding _ _ he := binding_error (Heap.InOrder.sound hm) he

/-- After every call of every history the machine is sound, whatever code has been run and however
the runs have ended. The one cell that a binding writes is a cell of its heap. -/
theorem afterAll_sound (capacities : Capacities) (calls : List Call) :
    ((create capacities).afterAll calls).Sound capacities.heap ∧
      ∀ (h : Heap) (a b : Address), (h.bind a b).1 = .ok true →
        ∃ x v, (x = a ∧ v = b ∨ x = b ∧ v = a) ∧
          ∃ hx : x < h.cells.size, (h.bind a b).2.cells = h.cells.set x (.ref v) hx := by
  constructor
  · have hs := (afterAll_inOrder capacities calls).sound
    rwa [afterAll_capacities] at hs
  · intro h a b hok
    rcases h.bind_cases a b with ⟨x, v, hxv, hbind, -⟩ | ⟨-, hfail⟩
    · have hx := Heap.lt_size_of_getElem? hbind.unbound
      exact ⟨x, v, hxv, hx, by simp [hbind.eq, Heap.point, Array.setIfInBounds, hx]⟩
    · rcases hfail with hf | ⟨e, -, hf⟩ <;> simp [hok] at hf

end Machine
end TermMachine
