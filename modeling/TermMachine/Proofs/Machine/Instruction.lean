import TermMachine.Machine.Step
import TermMachine.Proofs.Heap.Operations

/-! # What the instructions do

One equation for each instruction, with every way in which it can end. The equations speak of heaps
and registers only, so nothing else has to open the monad of a run.
-/
namespace TermMachine

namespace RegisterFile

def put (r : RegisterFile) (x : Register) (a : Address) : RegisterFile :=
  ⟨r.count, r.values.insert x a⟩

@[simp] theorem put_count (r : RegisterFile) (x : Register) (a : Address) :
    (r.put x a).count = r.count := rfl

theorem put_values (r : RegisterFile) (x : Register) (a : Address) (y : Register) :
    (r.put x a).values[y]? = if x = y then some a else r.values[y]? := by
  simp [put, Std.TreeMap.getElem?_insert]

theorem store_eq (r : RegisterFile) (x : Register) (a : Address) :
    r.store x a = if x < r.count then (.ok (), r.put x a)
      else (.error (.indexOutOfRange x r.count), r) := rfl

theorem load_eq_ok {r : RegisterFile} {x : Register} {a : Address} (hl : r.load x = .ok a) :
    x < r.count ∧ r.values[x]? = some a := by
  unfold load get at hl
  by_cases hx : x < r.count
  · refine ⟨hx, ?_⟩
    cases hv : r.values[x]? with
    | none => simp [hx, hv] at hl
    | some b =>
      simp only [hx, hv, if_true, Except.ok.injEq] at hl
      rw [hl]
  · simp [hx] at hl

end RegisterFile

namespace Run

variable {α : Type}

@[simp] theorem onHeap_apply (act : Heap → Except Heap.Fault α × Heap) (h : Heap)
    (r : RegisterFile) (c : Cursor) :
    onHeap act ⟨h, r, c⟩ = ((act h).1.mapError .memory, ⟨(act h).2, r, c⟩) := rfl

@[simp] theorem onRegisters_apply
    (act : RegisterFile → Except RegisterFile.Fault α × RegisterFile) (h : Heap)
    (r : RegisterFile) (c : Cursor) :
    onRegisters act ⟨h, r, c⟩ = ((act r).1.mapError .registers, ⟨h, (act r).2, c⟩) := rfl

@[simp] theorem onCursor_apply (act : Cursor → Except Cursor.Fault α × Cursor) (h : Heap)
    (r : RegisterFile) (c : Cursor) :
    onCursor act ⟨h, r, c⟩ = ((act c).1.mapError .cursor, ⟨h, r, (act c).2⟩) := rfl

@[simp] theorem turnCursor_apply (turn : Cursor → Cursor) (h : Heap) (r : RegisterFile)
    (c : Cursor) : turnCursor turn ⟨h, r, c⟩ = (.ok (), ⟨h, r, turn c⟩) := rfl

@[simp] theorem ofHeap_apply (look : Heap → Except Heap.Fault α) (h : Heap) (r : RegisterFile)
    (c : Cursor) : ofHeap look ⟨h, r, c⟩ = ((look h).mapError .memory, ⟨h, r, c⟩) := rfl

@[simp] theorem ofRegisters_apply (look : RegisterFile → Except RegisterFile.Fault α) (h : Heap)
    (r : RegisterFile) (c : Cursor) :
    ofRegisters look ⟨h, r, c⟩ = ((look r).mapError .registers, ⟨h, r, c⟩) := rfl

@[simp] theorem mapError_ok {ε ε' : Type} (f : ε → ε') (a : α) :
    (Except.ok a : Except ε α).mapError f = .ok a := rfl

@[simp] theorem mapError_error {ε ε' : Type} (f : ε → ε') (e : ε) :
    (Except.error e : Except ε α).mapError f = .error (f e) := rfl

theorem map_apply {β : Type} (g : α → β) (m : Run α) (s : RunState) :
    (g <$> m) s =
      match m s with
      | (.ok a, s) => (.ok (g a), s)
      | (.error e, s) => (.error e, s) := by
  rw [← bind_pure_comp, bind_apply]
  rfl

abbrev full (h : Heap) : Fault := .memory (.outOfMemory h.capacity)

abbrev missing (r : RegisterFile) (x : Register) : Fault :=
  .registers (.indexOutOfRange x r.count)

variable (h : Heap) (r : RegisterFile) (c : Cursor)

theorem putStructure_eq (f : FunctorId) (n : Arity) (x : Register) :
    putStructure f n x ⟨h, r, c⟩ =
      if h.cells.size + 2 ≤ h.capacity then
        if x < r.count then
          (.ok true, ⟨h.appendStructure f n, r.put x h.cells.size, c.writing n⟩)
        else (.error (missing r x), ⟨h.appendStructure f n, r, c⟩)
      else (.error (full h), ⟨h, r, c⟩) := by
  by_cases hroom : h.cells.size + 2 ≤ h.capacity
  · by_cases hx : x < r.count
    · simp [putStructure, bind_apply, map_apply, Heap.pushStructure_eq, RegisterFile.store_eq,
        hroom, hx]
    · simp [putStructure, bind_apply, Heap.pushStructure_eq, RegisterFile.store_eq, hroom, hx]
  · simp [putStructure, bind_apply, Heap.pushStructure_eq, hroom]

theorem setVariable_eq (x : Register) :
    setVariable x ⟨h, r, c⟩ =
      if h.cells.size + 1 ≤ h.capacity then
        if x < r.count then
          (.ok true, ⟨h.append (.ref h.cells.size), r.put x h.cells.size, c⟩)
        else (.error (missing r x), ⟨h.append (.ref h.cells.size), r, c⟩)
      else (.error (full h), ⟨h, r, c⟩) := by
  by_cases hroom : h.cells.size + 1 ≤ h.capacity
  · by_cases hx : x < r.count
    · simp [setVariable, bind_apply, map_apply, Heap.pushVariable_eq, RegisterFile.store_eq,
        hroom, hx]
    · simp [setVariable, bind_apply, map_apply, Heap.pushVariable_eq, RegisterFile.store_eq,
        hroom, hx]
  · simp [setVariable, bind_apply, Heap.pushVariable_eq, hroom]

theorem setValue_eq (x : Register) :
    setValue x ⟨h, r, c⟩ =
      match r.load x with
      | .error e => (.error (.registers e), ⟨h, r, c⟩)
      | .ok a => (((h.pushCopy a).1.map fun _ => true).mapError .memory,
          ⟨(h.pushCopy a).2, r, c⟩) := by
  simp only [setValue, bind_apply, ofRegisters_apply]
  cases r.load x with
  | error e => rfl
  | ok a =>
    simp only [mapError_ok, onHeap_apply]
    cases (h.pushCopy a).1 with
    | error e => rfl
    | ok b => rfl

theorem unifyVariable_eq (x : Register) :
    unifyVariable x ⟨h, r, c⟩ =
      match c.advance with
      | (.error e, c) => (.error (.cursor e), ⟨h, r, c⟩)
      | (.ok (.read a), c) =>
        if x < r.count then (.ok true, ⟨h, r.put x a, c⟩)
        else (.error (missing r x), ⟨h, r, c⟩)
      | (.ok .write, c) => setVariable x ⟨h, r, c⟩ := by
  simp only [unifyVariable, setVariable, bind_apply, onCursor_apply]
  rcases c.advance with ⟨_ | _ | _, c⟩
  · rfl
  · by_cases hx : x < r.count
    · simp [map_apply, RegisterFile.store_eq, hx]
    · simp [map_apply, RegisterFile.store_eq, hx]
  · simp only [mapError_ok, bind_apply]

theorem unifyValue_eq (x : Register) :
    unifyValue x ⟨h, r, c⟩ =
      match r.load x with
      | .error e => (.error (.registers e), ⟨h, r, c⟩)
      | .ok a =>
        match c.advance with
        | (.error e, c) => (.error (.cursor e), ⟨h, r, c⟩)
        | (.ok (.read b), c) => ((h.unify a b).1.mapError .memory, ⟨(h.unify a b).2, r, c⟩)
        | (.ok .write, c) => setValue x ⟨h, r, c⟩ := by
  simp only [unifyValue, setValue, bind_apply, ofRegisters_apply]
  cases hl : r.load x with
  | error e => rfl
  | ok a =>
    simp only [mapError_ok, onCursor_apply]
    rcases c.advance with ⟨_ | _ | _, c⟩
    · rfl
    · rfl
    · simp only [mapError_ok, bind_apply]

def built (f : FunctorId) (n : Arity) (a : Address) : Heap :=
  (h.appendStructure f n).point a h.cells.size

theorem bind_structure {a : Address} (f : FunctorId) (n : Arity) (ha : h.cells[a]? = some (.ref a)) :
    (h.appendStructure f n).bind a h.cells.size = (.ok true, built h f n a) := by
  have ha' := Heap.appendStructure_cell_of_some ha f n
  have hb := h.appendStructure_cell_top f n
  simp [Heap.bind, Heap.isUnbound_of_some ha', Heap.isUnbound_of_some hb,
    Heap.assign_of_term hb trivial, built]

/-- How a structure is matched depends on the cell at the end of the chain. -/
theorem matchStructure_eq (f : FunctorId) (n : Arity) (a : Address) :
    matchStructure f n a ⟨h, r, c⟩ =
      match h.deref a with
      | .error e => (.error (.memory e), ⟨h, r, c⟩)
      | .ok b =>
        match h.cells[b]? with
        | some (.ref _) =>
          if h.cells.size + 2 ≤ h.capacity then (.ok true, ⟨built h f n b, r, c.writing n⟩)
          else (.error (full h), ⟨h, r, c⟩)
        | some (.str t) =>
          match h.functorAt t with
          | .error e => (.error (.memory e), ⟨h, r, c⟩)
          | .ok found =>
            if found = (f, n) then (.ok true, ⟨h, r, .reading (t.offset 1) n⟩)
            else (.ok false, ⟨h, r, c⟩)
        | some (.functor _ _) => (.error (.memory (.unexpectedFunctor b)), ⟨h, r, c⟩)
        | none => (.error (.memory (.addressOutOfRange b h.top)), ⟨h, r, c⟩) := by
  simp only [matchStructure, bind_apply, ofHeap_apply]
  cases hd : h.deref a with
  | error e => rfl
  | ok b =>
    obtain ⟨d, hcell, hend⟩ := (Heap.resolves_of_deref hd).cell
    simp only [mapError_ok, ofHeap_apply, Heap.get_of_some hcell, hcell]
    cases d with
    | ref t =>
      obtain rfl := hend t rfl
      by_cases hroom : h.cells.size + 2 ≤ h.capacity
      · simp [bind_apply, map_apply, Heap.pushStructure_eq, hroom, bind_structure h f n hcell]
      · simp [bind_apply, Heap.pushStructure_eq, hroom]
    | str t =>
      simp only [bind_apply, ofHeap_apply]
      cases h.functorAt t with
      | error e => rfl
      | ok found =>
        by_cases hfound : found = (f, n)
        · simp [bind_apply, pure_apply, hfound]
        · simp [pure_apply, hfound]
    | functor g m => rfl

theorem getStructure_eq (f : FunctorId) (n : Arity) (x : Register) :
    getStructure f n x ⟨h, r, c⟩ =
      match r.get x with
      | .error e => (.error (.registers e), ⟨h, r, c⟩)
      | .ok none => putStructure f n x ⟨h, r, c⟩
      | .ok (some a) => matchStructure f n a ⟨h, r, c⟩ := by
  simp only [getStructure, bind_apply, ofRegisters_apply]
  rcases r.get x with e | _ | a
  · rfl
  · rfl
  · rfl

section Succeeds

variable {h r c} {f : FunctorId} {n : Arity} {x : Register} {t : RunState}

theorem putStructure_eq_ok (hstep : putStructure f n x ⟨h, r, c⟩ = (.ok true, t)) :
    t = ⟨h.appendStructure f n, r.put x h.cells.size, c.writing n⟩ := by
  rw [putStructure_eq] at hstep
  split at hstep
  · split at hstep
    · exact (Prod.mk.inj hstep).2.symm
    · cases hstep
  · cases hstep

theorem setVariable_eq_ok (hstep : setVariable x ⟨h, r, c⟩ = (.ok true, t)) :
    t = ⟨h.append (.ref h.cells.size), r.put x h.cells.size, c⟩ := by
  rw [setVariable_eq] at hstep
  split at hstep
  · split at hstep
    · exact (Prod.mk.inj hstep).2.symm
    · cases hstep
  · cases hstep

theorem setValue_eq_ok (hstep : setValue x ⟨h, r, c⟩ = (.ok true, t)) :
    ∃ a d, r.values[x]? = some a ∧ h.cells[a]? = some d ∧ t = ⟨h.append d, r, c⟩ := by
  rw [setValue_eq] at hstep
  cases hload : r.load x with
  | error e =>
    simp only [hload] at hstep
    cases hstep
  | ok a =>
    simp only [hload] at hstep
    rcases h.pushCopy_cases a with ⟨d, hd, -, heq⟩ | ⟨e, -, heq⟩
    · rw [heq, Heap.push_eq] at hstep
      refine ⟨a, d, (RegisterFile.load_eq_ok hload).2, hd, ?_⟩
      by_cases hroom : h.cells.size + 1 ≤ h.capacity
      · rw [if_pos hroom] at hstep
        exact (Prod.mk.inj hstep).2.symm
      · rw [if_neg hroom] at hstep
        cases hstep
    · rw [heq] at hstep
      cases hstep

end Succeeds

end Run
end TermMachine
