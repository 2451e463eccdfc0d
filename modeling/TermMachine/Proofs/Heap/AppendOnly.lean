import TermMachine.Proofs.Heap.Worklist

/-! # Heaps only grow

Any operations may be called on a heap, at any addresses and whatever they answer. The cells that
other cells refer to are always there, and an operation appends cells or binds unbound references
and does nothing else. The references of such a heap need not end: two of them may be bound in a
circle.
-/
namespace TermMachine.Heap

inductive Operation where
  | newVariable
  | newStructure (f : FunctorId) (n : Arity)
  | copy (a : Address)
  | bind (a b : Address)
  | unify (a b : Address)
  | clear

def Operation.Binds : Operation → Prop
  | .bind _ _ => True
  | .unify _ _ => True
  | _ => False

/-- The answer of an operation with the heap it leaves. Appending answers yes when there is room. -/
def perform (h : Heap) : Operation → Except Fault Bool × Heap
  | .newVariable => (h.pushVariable.1.map fun _ => true, h.pushVariable.2)
  | .newStructure f n => ((h.pushStructure f n).1.map fun _ => true, (h.pushStructure f n).2)
  | .copy a => ((h.pushCopy a).1.map fun _ => true, (h.pushCopy a).2)
  | .bind a b => h.bind a b
  | .unify a b => h.unify a b
  | .clear => (.ok true, h.clear)

def performAll (h : Heap) (operations : List Operation) : Heap :=
  operations.foldl (fun h operation => (h.perform operation).2) h

/-- What a cell refers to is there: a term behind a reference, a functor cell behind a structure. -/
def Fits (h : Heap) : Cell → Prop
  | .ref t => ∃ c, h.cells[t]? = some c ∧ c.IsTerm
  | .str t => ∃ f n, h.cells[t]? = some (.functor f n)
  | .functor _ _ => True

structure LaidOut (capacity : Nat) (h : Heap) : Prop where
  capacity_eq : h.capacity = capacity
  size_le : h.cells.size ≤ capacity
  fits : ∀ {a : Address} {c : Cell}, h.cells[a]? = some c → h.Fits c

/-- The cells that an operation finds stay as they are; only binding and unifying may change one,
and then it was an unbound reference and is a reference still. -/
def KeepsCells (op : Operation) (h h' : Heap) : Prop :=
  ∀ ⦃a : Address⦄ ⦃c : Cell⦄, h.cells[a]? = some c →
    h'.cells[a]? = some c ∨ op.Binds ∧ c = .ref a ∧ ∃ t, h'.cells[a]? = some (.ref t)

variable {h h' : Heap} {capacity : Nat} {c : Cell}

/-- What is there stays there. -/
theorem Fits.grows (hc : h.Fits c) (hg : Grows h h') : h'.Fits c := by
  cases c with
  | ref t =>
    obtain ⟨d, hd, hterm⟩ := hc
    exact hg.term hd hterm
  | str t =>
    obtain ⟨f, n, hf⟩ := hc
    exact ⟨f, n, hg.functor hf⟩
  | functor f n => trivial

theorem laidOut_empty (capacity : Nat) : (Heap.empty capacity).LaidOut capacity := by
  constructor
  · rfl
  · simp [Heap.empty]
  · intro a c hc
    simp [Heap.empty] at hc

namespace LaidOut

/-- A cell that fits may be appended. -/
theorem append (hl : h.LaidOut capacity) (hroom : h.cells.size + 1 ≤ capacity)
    (hc : (h.append c).Fits c) : (h.append c).LaidOut capacity := by
  constructor
  · exact hl.capacity_eq
  · rw [append_size]
    exact hroom
  · intro a d hd
    rw [append_cell] at hd
    by_cases ha : a = h.cells.size
    · rw [if_pos ha, Option.some.injEq] at hd
      exact hd ▸ hc
    · rw [if_neg ha] at hd
      exact (hl.fits hd).grows (grows_append h c)

/-- The structure cell points at the functor cell that is appended with it. -/
theorem appendStructure (hl : h.LaidOut capacity) (hroom : h.cells.size + 2 ≤ capacity)
    (f : FunctorId) (n : Arity) : (h.appendStructure f n).LaidOut capacity := by
  constructor
  · exact hl.capacity_eq
  · rw [appendStructure_size]
    exact hroom
  · intro a d hd
    rw [appendStructure_cell] at hd
    by_cases hfunctor : a = h.cells.size + 1
    · rw [if_pos hfunctor, Option.some.injEq] at hd
      subst hd
      trivial
    · rw [if_neg hfunctor] at hd
      by_cases hstr : a = h.cells.size
      · rw [if_pos hstr, Option.some.injEq] at hd
        subst hd
        exact ⟨f, n, appendStructure_cell_functor h f n⟩
      · rw [if_neg hstr] at hd
        exact (hl.fits hd).grows (grows_appendStructure h f n)

/-- An unbound reference may be bound to any term. -/
theorem point (hl : h.LaidOut capacity) {x v : Address} (hx : h.cells[x]? = some (.ref x))
    (hv : h.cells[v]? = some c) (hterm : c.IsTerm) : (h.point x v).LaidOut capacity := by
  have hgrow := grows_point hx v
  constructor
  · exact hl.capacity_eq
  · rw [point_size]
    exact hl.size_le
  · intro a d hd
    rw [point_cell hx] at hd
    by_cases ha : a = x
    · rw [if_pos ha, Option.some.injEq] at hd
      subst hd
      exact hgrow.term hv hterm
    · rw [if_neg ha] at hd
      exact (hl.fits hd).grows hgrow

theorem bind (hl : h.LaidOut capacity) (a b : Address) : (h.bind a b).2.LaidOut capacity := by
  rcases h.bind_cases a b with ⟨x, v, -, hbind, -⟩ | ⟨heq, -⟩
  · obtain ⟨d, hd, hterm, -⟩ := hbind.term
    rw [hbind.eq]
    exact hl.point hbind.unbound hd hterm
  · rw [heq]
    exact hl

/-- Each step of a unification leaves the heap alone or binds a reference. -/
theorem unify (hl : h.LaidOut capacity) (a b : Address) : (h.unify a b).2.LaidOut capacity := by
  obtain ⟨n, w, hsteps, hheap, -⟩ := h.unify_steps a b
  rw [hheap]
  refine hsteps.keeps (I := fun w => w.heap.LaidOut capacity) (fun hstep hu => ?_) hl
  cases hstep with
  | same => exact hu
  | bind _ hx hv hterm _ => exact hu.point hx hv hterm
  | again => exact hu
  | apart => exact hu

end LaidOut

theorem push_cases (h : Heap) (c : Cell) :
    (h.cells.size + 1 ≤ h.capacity ∧ h.push c = (.ok h.cells.size, h.append c)) ∨
      h.push c = (.error (.outOfMemory h.capacity), h) := by
  rw [push_eq]
  by_cases hroom : h.cells.size + 1 ≤ h.capacity
  · exact .inl ⟨hroom, if_pos hroom⟩
  · exact .inr (if_neg hroom)

/-- An operation of any kind leaves the heap laid out. -/
theorem LaidOut.perform (hl : h.LaidOut capacity) (op : Operation) :
    (h.perform op).2.LaidOut capacity := by
  have hcap := hl.capacity_eq
  cases op with
  | newVariable =>
    rcases h.push_cases (.ref h.top) with ⟨hroom, heq⟩ | heq
    · simp only [Heap.perform, pushVariable, heq]
      exact hl.append (hcap ▸ hroom) ⟨_, append_cell_top h _, trivial⟩
    · simp only [Heap.perform, pushVariable, heq]
      exact hl
  | newStructure f n =>
    simp only [Heap.perform, pushStructure_eq]
    by_cases hroom : h.cells.size + 2 ≤ h.capacity
    · rw [if_pos hroom]
      exact hl.appendStructure (hcap ▸ hroom) f n
    · rw [if_neg hroom]
      exact hl
  | copy a =>
    simp only [Heap.perform]
    rcases h.pushCopy_cases a with ⟨c, hc, -, heq⟩ | ⟨e, -, heq⟩
    · rw [heq]
      rcases h.push_cases c with ⟨hroom, hpush⟩ | hpush
      · rw [hpush]
        exact hl.append (hcap ▸ hroom) ((hl.fits hc).grows (grows_append h c))
      · rw [hpush]
        exact hl
    · rw [heq]
      exact hl
  | bind a b => exact hl.bind a b
  | unify a b => exact hl.unify a b
  | clear =>
    have hempty : h.clear = Heap.empty capacity := by rw [Heap.clear, hcap, Heap.empty]
    simp only [Heap.perform, hempty]
    exact laidOut_empty capacity

theorem keepsCells_of_eq {op : Operation}
    (hold : ∀ {a : Address} {c : Cell}, h.cells[a]? = some c → h'.cells[a]? = some c) :
    KeepsCells op h h' := fun _ _ hc => .inl (hold hc)

theorem keepsCells_of_grows {op : Operation} (hbinds : op.Binds) (hg : Grows h h') :
    KeepsCells op h h' := fun _ _ hc => (hg.cell hc).imp_right fun href => ⟨hbinds, href⟩

theorem push_keepsCells (op : Operation) (h : Heap) (c : Cell) : KeepsCells op h (h.push c).2 := by
  rcases h.push_cases c with ⟨-, heq⟩ | heq
  · rw [heq]
    exact keepsCells_of_eq fun hd => append_cell_of_some hd c
  · rw [heq]
    exact keepsCells_of_eq id

theorem grows_bind (h : Heap) (a b : Address) : Grows h (h.bind a b).2 := by
  rcases h.bind_cases a b with ⟨x, v, -, hbind, -⟩ | ⟨heq, -⟩
  · rw [hbind.eq]
    exact grows_point hbind.unbound v
  · rw [heq]

/-- What one operation does to the cells that it finds, on any heap. -/
theorem perform_keepsCells (h : Heap) {op : Operation} (hclear : op ≠ .clear) :
    KeepsCells op h (h.perform op).2 := by
  cases op with
  | newVariable => exact push_keepsCells _ h _
  | newStructure f n =>
    simp only [perform, pushStructure_eq]
    split
    · exact keepsCells_of_eq fun hd => appendStructure_cell_of_some hd f n
    · exact keepsCells_of_eq id
  | copy a =>
    simp only [perform]
    rcases h.pushCopy_cases a with ⟨c, -, -, heq⟩ | ⟨e, -, heq⟩
    · rw [heq]
      exact push_keepsCells _ h c
    · rw [heq]
      exact keepsCells_of_eq id
  | bind a b => exact keepsCells_of_grows trivial (h.grows_bind a b)
  | unify a b => exact keepsCells_of_grows trivial (h.grows_unify a b)
  | clear => exact absurd rfl hclear

/-- An operation that fails has done nothing. Unification is left out, as what it has bound before it
fails stays bound. -/
theorem perform_eq_self (h : Heap) {op : Operation} (hunify : ∀ a b, op ≠ .unify a b)
    (hfail : (h.perform op).1 ≠ .ok true) : (h.perform op).2 = h := by
  have hpush : ∀ c, ((h.push c).1.map fun _ => true) ≠ .ok true → (h.push c).2 = h := by
    intro c hfail
    rcases h.push_cases c with ⟨-, heq⟩ | heq
    · rw [heq] at hfail
      exact absurd rfl hfail
    · rw [heq]
  cases op with
  | newVariable => exact hpush _ hfail
  | newStructure f n =>
    simp only [perform, pushStructure_eq] at hfail ⊢
    split
    next hroom =>
      rw [if_pos hroom] at hfail
      exact absurd rfl hfail
    next => rfl
  | copy a =>
    simp only [perform] at hfail ⊢
    rcases h.pushCopy_cases a with ⟨c, -, -, heq⟩ | ⟨e, -, heq⟩
    · rw [heq] at hfail ⊢
      exact hpush c hfail
    · rw [heq]
  | bind a b =>
    rcases h.bind_cases a b with ⟨x, v, -, -, hok⟩ | ⟨heq, -⟩
    · exact absurd hok hfail
    · exact heq
  | unify a b => exact absurd rfl (hunify a b)
  | clear => exact absurd rfl hfail

theorem performAll_keeps {P : Heap → Prop} {operations : List Operation}
    (hstep : ∀ op ∈ operations, ∀ h : Heap, P h → P (h.perform op).2) (hh : P h) :
    P (h.performAll operations) := by
  induction operations generalizing h with
  | nil => exact hh
  | cons op operations ih =>
    have hnext : P (h.perform op).2 := hstep op List.mem_cons_self h hh
    exact ih (fun op' hop => hstep op' (List.mem_cons_of_mem _ hop)) hnext

theorem performAll_laidOut (capacity : Nat) (operations : List Operation) :
    ((empty capacity).performAll operations).LaidOut capacity :=
  performAll_keeps (fun op _ _ hl => hl.perform op) (laidOut_empty capacity)

/-- Whatever has been done to a heap, it is within its capacity and its cells fit; and whatever is
done next, cells are only appended and unbound references bound, and nothing is changed by an
operation that fails, unification apart. -/
theorem performAll_appendOnly (capacity : Nat) (operations : List Operation) :
    ((empty capacity).performAll operations).LaidOut capacity ∧
      ∀ op, op ≠ .clear →
        KeepsCells op ((empty capacity).performAll operations)
            (((empty capacity).performAll operations).perform op).2 ∧
          ((∀ a b, op ≠ .unify a b) →
            (((empty capacity).performAll operations).perform op).1 ≠ .ok true →
            (((empty capacity).performAll operations).perform op).2 =
              (empty capacity).performAll operations) := by
  constructor
  · exact performAll_laidOut capacity operations
  · intro op hclear
    exact ⟨perform_keepsCells _ hclear, perform_eq_self _⟩

/-- References in a circle, on a heap that is laid out all the same. -/
example : ((empty 2).performAll [.newVariable, .newVariable, .bind 0 1, .bind 0 1]).cells =
    #[.ref 1, .ref 0] := by decide

end TermMachine.Heap
