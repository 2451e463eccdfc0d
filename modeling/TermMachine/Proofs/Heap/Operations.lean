import TermMachine.Proofs.Heap.Soundness

/-! # What the operations of a heap do

One lemma for each operation says all that it can do, errors included. Every operation grows the
heap: cells stay as they are, unbound references apart, which may be bound.
-/
namespace TermMachine.Heap

structure Grows (h h' : Heap) : Prop where
  capacity : h'.capacity = h.capacity
  size_le : h.cells.size ≤ h'.cells.size
  cell : ∀ {a : Address} {c : Cell}, h.cells[a]? = some c →
    h'.cells[a]? = some c ∨ (c = .ref a ∧ ∃ b, h'.cells[a]? = some (.ref b))

namespace Grows

variable {h h' h'' : Heap}

@[refl] theorem refl (h : Heap) : Grows h h := ⟨rfl, Nat.le_refl _, fun hc => .inl hc⟩

theorem trans (hg : Grows h h') (hg' : Grows h' h'') : Grows h h'' where
  capacity := hg'.capacity.trans hg.capacity
  size_le := Nat.le_trans hg.size_le hg'.size_le
  cell := by
    intro a c hc
    rcases hg.cell hc with hc' | ⟨rfl, b, hb⟩
    · exact hg'.cell hc'
    · rcases hg'.cell hb with hb' | ⟨_, d, hd⟩
      · exact .inr ⟨rfl, b, hb'⟩
      · exact .inr ⟨rfl, d, hd⟩

theorem str (hg : Grows h h') {a t : Address} (hc : h.cells[a]? = some (.str t)) :
    h'.cells[a]? = some (.str t) := by
  rcases hg.cell hc with hc' | ⟨hr, -⟩
  · exact hc'
  · cases hr

theorem functor (hg : Grows h h') {a : Address} {f : FunctorId} {n : Arity}
    (hc : h.cells[a]? = some (.functor f n)) : h'.cells[a]? = some (.functor f n) := by
  rcases hg.cell hc with hc' | ⟨hr, -⟩
  · exact hc'
  · cases hr

theorem term (hg : Grows h h') {a : Address} {c : Cell} (hc : h.cells[a]? = some c)
    (ht : c.IsTerm) : ∃ d, h'.cells[a]? = some d ∧ d.IsTerm := by
  rcases hg.cell hc with hc' | ⟨rfl, b, hb⟩
  · exact ⟨c, hc', ht⟩
  · exact ⟨_, hb, trivial⟩

theorem cell_of_not_ref (hg : Grows h h') (hsize : h'.cells.size = h.cells.size) {a : Address}
    {c : Cell} (hc : h'.cells[a]? = some c) (hne : ∀ t, c ≠ .ref t) : h.cells[a]? = some c := by
  have hlt : a < h.cells.size := hsize ▸ (Array.getElem?_eq_some_iff.1 hc).1
  have hold := Array.getElem?_eq_getElem hlt
  rcases hg.cell hold with heq | ⟨-, t, ht⟩
  · rw [hold, ← heq, hc]
  · rw [hc, Option.some.injEq] at ht
    exact absurd ht (hne t)

end Grows

def append (h : Heap) (c : Cell) : Heap := ⟨h.cells.push c, h.capacity⟩

@[simp] theorem append_size (h : Heap) (c : Cell) :
    (h.append c).cells.size = h.cells.size + 1 := by simp [append]

@[simp] theorem append_capacity (h : Heap) (c : Cell) : (h.append c).capacity = h.capacity := rfl

theorem append_cell (h : Heap) (c : Cell) (a : Address) :
    (h.append c).cells[a]? = if a = h.cells.size then some c else h.cells[a]? :=
  Array.getElem?_push

theorem append_cell_top (h : Heap) (c : Cell) : (h.append c).cells[h.cells.size]? = some c := by
  rw [append_cell, if_pos rfl]

theorem append_cell_of_some {h : Heap} {a : Address} {d : Cell} (hd : h.cells[a]? = some d)
    (c : Cell) : (h.append c).cells[a]? = some d := by
  have ha : a ≠ h.cells.size := Nat.ne_of_lt (lt_size_of_getElem? hd)
  simp [append_cell, ha, hd]

theorem grows_append (h : Heap) (c : Cell) : Grows h (h.append c) where
  capacity := rfl
  size_le := by simp
  cell hd := .inl (append_cell_of_some hd c)

def appendStructure (h : Heap) (f : FunctorId) (n : Arity) : Heap :=
  (h.append (.str (h.cells.size + 1))).append (.functor f n)

@[simp] theorem appendStructure_size (h : Heap) (f : FunctorId) (n : Arity) :
    (h.appendStructure f n).cells.size = h.cells.size + 2 := by simp [appendStructure]

@[simp] theorem appendStructure_capacity (h : Heap) (f : FunctorId) (n : Arity) :
    (h.appendStructure f n).capacity = h.capacity := rfl

theorem appendStructure_cell (h : Heap) (f : FunctorId) (n : Arity) (a : Address) :
    (h.appendStructure f n).cells[a]? =
      if a = h.cells.size + 1 then some (.functor f n)
      else if a = h.cells.size then some (.str (h.cells.size + 1)) else h.cells[a]? := by
  simp only [appendStructure, append_cell, append_size]

theorem appendStructure_cell_top (h : Heap) (f : FunctorId) (n : Arity) :
    (h.appendStructure f n).cells[h.cells.size]? = some (.str (h.cells.size + 1)) := by
  rw [appendStructure_cell, if_neg (by lia), if_pos rfl]

theorem appendStructure_cell_functor (h : Heap) (f : FunctorId) (n : Arity) :
    (h.appendStructure f n).cells[h.cells.size + 1]? = some (.functor f n) := by
  rw [appendStructure_cell, if_pos rfl]

theorem appendStructure_cell_of_some {h : Heap} {a : Address} {d : Cell}
    (hd : h.cells[a]? = some d) (f : FunctorId) (n : Arity) :
    (h.appendStructure f n).cells[a]? = some d :=
  append_cell_of_some (append_cell_of_some hd _) _

theorem grows_appendStructure (h : Heap) (f : FunctorId) (n : Arity) :
    Grows h (h.appendStructure f n) :=
  (grows_append h _).trans (grows_append _ _)

theorem push_eq (h : Heap) (c : Cell) :
    h.push c = if h.cells.size + 1 ≤ h.capacity then (.ok h.cells.size, h.append c)
      else (.error (.outOfMemory h.capacity), h) := rfl

theorem pushVariable_eq (h : Heap) :
    h.pushVariable = if h.cells.size + 1 ≤ h.capacity then
        (.ok h.cells.size, h.append (.ref h.cells.size))
      else (.error (.outOfMemory h.capacity), h) := rfl

theorem pushStructure_eq (f : FunctorId) (n : Arity) (h : Heap) :
    h.pushStructure f n = if h.cells.size + 2 ≤ h.capacity then
        (.ok h.cells.size, h.appendStructure f n)
      else (.error (.outOfMemory h.capacity), h) := rfl

theorem pushCopy_eq_push {h : Heap} {a : Address} {c : Cell} (hc : h.cells[a]? = some c)
    (ht : c.IsTerm) : h.pushCopy a = h.push c := by
  unfold pushCopy
  rw [get_of_some hc]
  cases c with
  | ref t => rfl
  | str t => rfl
  | functor f n => exact ht.elim

/-- A copy is either made of a term, or refused because of what stands there. -/
theorem pushCopy_cases (h : Heap) (a : Address) :
    (∃ c, h.cells[a]? = some c ∧ c.IsTerm ∧ h.pushCopy a = h.push c) ∨
    ∃ e, ¬e.IsDisorder ∧ h.pushCopy a = (.error e, h) := by
  cases hg : h.get a with
  | error e =>
    obtain ⟨rfl, -⟩ := get_eq_error hg
    exact .inr ⟨.addressOutOfRange a h.top, by simp, by simp [pushCopy, hg]⟩
  | ok c =>
    have hc := get_eq_ok_iff.1 hg
    cases c with
    | ref t => exact .inl ⟨_, hc, trivial, pushCopy_eq_push hc trivial⟩
    | str t => exact .inl ⟨_, hc, trivial, pushCopy_eq_push hc trivial⟩
    | functor f n => exact .inr ⟨.unexpectedFunctor a, by simp, by simp [pushCopy, hg]⟩

def point (h : Heap) (x v : Address) : Heap := ⟨h.cells.setIfInBounds x (.ref v), h.capacity⟩

@[simp] theorem point_size (h : Heap) (x v : Address) :
    (h.point x v).cells.size = h.cells.size := by simp [point]

@[simp] theorem point_capacity (h : Heap) (x v : Address) :
    (h.point x v).capacity = h.capacity := rfl

theorem point_cell {h : Heap} {x : Address} (hx : h.cells[x]? = some (.ref x)) (v a : Address) :
    (h.point x v).cells[a]? = if a = x then some (.ref v) else h.cells[a]? := by
  have hlt := lt_size_of_getElem? hx
  rw [point, Array.getElem?_setIfInBounds]
  by_cases ha : a = x
  · simp [ha, hlt]
  · simp [ha, Ne.symm ha]

theorem grows_point {h : Heap} {x : Address} (hx : h.cells[x]? = some (.ref x)) (v : Address) :
    Grows h (h.point x v) where
  capacity := rfl
  size_le := by simp
  cell := by
    intro a c hc
    rw [point_cell hx]
    by_cases ha : a = x
    · subst ha
      rw [hx] at hc
      exact .inr ⟨(Option.some.inj hc).symm, v, by simp⟩
    · exact .inl (by simp [ha, hc])

theorem eq_of_cells {h h' : Heap} (hcapacity : h.capacity = h'.capacity)
    (hcells : ∀ a : Address, h.cells[a]? = h'.cells[a]?) : h = h' := by
  obtain ⟨cells, capacity⟩ := h
  obtain ⟨cells', capacity'⟩ := h'
  rw [Heap.mk.injEq]
  exact ⟨Array.ext_getElem? hcells, hcapacity⟩

theorem point_self {h : Heap} {x : Address} (hx : h.cells[x]? = some (.ref x)) :
    h.point x x = h := by
  refine eq_of_cells rfl fun a => ?_
  rw [point_cell hx]
  by_cases ha : a = x
  · rw [if_pos ha, ha, hx]
  · rw [if_neg ha]

theorem ne_of_bound {h : Heap} {a t x : Address} (hc : h.cells[a]? = some (.ref t)) (hne : t ≠ a)
    (hx : h.cells[x]? = some (.ref x)) : a ≠ x := by
  rintro rfl
  rw [hx, Option.some.injEq, Cell.ref.injEq] at hc
  exact hne hc.symm

theorem isUnbound_of_some {h : Heap} {a : Address} {c : Cell} (hc : h.cells[a]? = some c) :
    h.isUnbound a = .ok (decide (c = .ref a)) := by simp [isUnbound, get_of_some hc]

theorem assign_of_term {h : Heap} {v : Address} {c : Cell} (hc : h.cells[v]? = some c)
    (ht : c.IsTerm) (x : Address) : h.assign x v = (.ok true, h.point x v) := by
  unfold assign
  rw [get_of_some hc]
  cases c with
  | ref t => rfl
  | str t => rfl
  | functor f n => exact ht.elim

/-- A binding that changes the heap: the unbound reference `x` now refers to the term at `v`, which
is no younger than `x` when it is unbound as well. -/
structure Binds (h : Heap) (x v : Address) (h' : Heap) : Prop where
  unbound : h.cells[x]? = some (.ref x)
  term : ∃ c, h.cells[v]? = some c ∧ c.IsTerm ∧ (c = .ref v → v ≤ x)
  eq : h' = h.point x v

/-- Either one of the two addresses is bound to the other, or nothing changes. -/
theorem bind_cases (h : Heap) (a b : Address) :
    (∃ x v, (x = a ∧ v = b ∨ x = b ∧ v = a) ∧ Binds h x v (h.bind a b).2 ∧
      (h.bind a b).1 = .ok true) ∨
    (h.bind a b).2 = h ∧ ((h.bind a b).1 = .ok false ∨
      ∃ e, ¬e.IsDisorder ∧ (h.bind a b).1 = .error e) := by
  cases ha : h.get a with
  | error e =>
    obtain ⟨rfl, -⟩ := get_eq_error ha
    exact .inr (by simp [bind, isUnbound, ha])
  | ok c =>
  cases hb : h.get b with
  | error e =>
    obtain ⟨rfl, -⟩ := get_eq_error hb
    exact .inr (by simp [bind, isUnbound, ha, hb])
  | ok d =>
  have hca := get_eq_ok_iff.1 ha
  have hdb := get_eq_ok_iff.1 hb
  -- binding `x` to `v` once it is clear that `x` is the one to be bound
  have hassign : ∀ {x v : Address} {c : Cell}, h.cells[x]? = some (.ref x) →
      h.cells[v]? = some c → (c = .ref v → v ≤ x) → (x = a ∧ v = b ∨ x = b ∧ v = a) →
      h.bind a b = h.assign x v →
      (∃ x v, (x = a ∧ v = b ∨ x = b ∧ v = a) ∧ Binds h x v (h.bind a b).2 ∧
        (h.bind a b).1 = .ok true) ∨
      (h.bind a b).2 = h ∧ ((h.bind a b).1 = .ok false ∨
        ∃ e, ¬e.IsDisorder ∧ (h.bind a b).1 = .error e) := by
    intro x v c hx hv hle hxv heq
    by_cases ht : c.IsTerm
    · rw [heq, assign_of_term hv ht]
      exact .inl ⟨x, v, hxv, ⟨hx, ⟨c, hv, ht, hle⟩, rfl⟩, rfl⟩
    · cases c with
      | ref t => exact absurd trivial ht
      | str t => exact absurd trivial ht
      | functor f n =>
        rw [heq]
        exact .inr (by simp [assign, get_of_some hv])
  have hua := isUnbound_of_some hca
  have hub := isUnbound_of_some hdb
  by_cases hc : c = .ref a <;> by_cases hd : d = .ref b
  · subst hc hd
    by_cases hlt : a < b
    · exact hassign hdb hca (fun _ => by lia) (.inr ⟨rfl, rfl⟩) (by simp [bind, hua, hub, hlt])
    · exact hassign hca hdb (fun _ => by lia) (.inl ⟨rfl, rfl⟩) (by simp [bind, hua, hub, hlt])
  · subst hc
    exact hassign hca hdb (fun h => absurd h hd) (.inl ⟨rfl, rfl⟩) (by simp [bind, hua, hub, hd])
  · subst hd
    exact hassign hdb hca (fun h => absurd h hc) (.inr ⟨rfl, rfl⟩) (by simp [bind, hua, hub, hc])
  · exact .inr (by simp [bind, hua, hub, hc, hd])

namespace SoundFrom

variable {k : Address} {h h' : Heap}

/-- Appended cells keep a heap sound when they are in order themselves. -/
theorem extend (hs : h.SoundFrom k)
    (hold : ∀ {a : Address} {c : Cell}, h.cells[a]? = some c → h'.cells[a]? = some c)
    (hstr : ∀ {a t : Address}, h.cells.size ≤ a → h'.cells[a]? = some (.str t) →
      k ≤ t ∧ ∃ f n, h'.cells[t]? = some (.functor f n))
    (href : ∀ {a t : Address}, h.cells.size ≤ a → h'.cells[a]? = some (.ref t) →
      k ≤ t ∧ t ≤ a ∧ ∃ c, h'.cells[t]? = some c ∧ c.IsTerm) : h'.SoundFrom k := by
  have hback : ∀ {a : Address} {c : Cell}, h'.cells[a]? = some c → a < h.cells.size →
      h.cells[a]? = some c := by
    intro a c hc ha
    have hd := Array.getElem?_eq_getElem ha
    rw [hold hd] at hc
    rw [hd, hc]
  constructor
  · intro a t hk hc
    by_cases ha : a < h.cells.size
    · obtain ⟨hkt, f, n, hf⟩ := hs.str_functor hk (hback hc ha)
      exact ⟨hkt, f, n, hold hf⟩
    · exact hstr (Nat.le_of_not_lt ha) hc
  · intro a t hk hc
    by_cases ha : a < h.cells.size
    · obtain ⟨hkt, d, hd, hdt⟩ := hs.ref_term hk (hback hc ha)
      exact ⟨hkt, d, hold hd, hdt⟩
    · obtain ⟨hkt, -, hd⟩ := href (Nat.le_of_not_lt ha) hc
      exact ⟨hkt, hd⟩
  · intro a t hk hc
    by_cases ha : a < h.cells.size
    · rcases hs.ref_order hk (hback hc ha) with hle | ⟨s, hstr⟩
      · exact .inl hle
      · exact .inr ⟨s, hold hstr⟩
    · exact .inl (href (Nat.le_of_not_lt ha) hc).2.1

theorem append_variable (hs : h.SoundFrom k) (hk : k ≤ h.cells.size) :
    (h.append (.ref h.cells.size)).SoundFrom k := by
  refine hs.extend (fun hc => append_cell_of_some hc _) ?_ ?_
  · intro a t ha hc
    rw [append_cell] at hc
    by_cases heq : a = h.cells.size
    · simp [heq] at hc
    · rw [if_neg heq, Array.getElem?_eq_none ha] at hc
      cases hc
  · intro a t ha hc
    rw [append_cell] at hc
    by_cases heq : a = h.cells.size
    · simp only [heq, if_true, Option.some.injEq, Cell.ref.injEq] at hc
      subst hc
      exact ⟨hk, Nat.le_of_eq heq.symm, _, append_cell_top h _, trivial⟩
    · rw [if_neg heq, Array.getElem?_eq_none ha] at hc
      cases hc

theorem append_copy (hs : h.SoundFrom k) {a : Address} (hk : k ≤ a) {c : Cell}
    (hc : h.cells[a]? = some c) : (h.append c).SoundFrom k := by
  have htop : ∀ {b : Address} {d : Cell}, h.cells.size ≤ b →
      (h.append c).cells[b]? = some d → b = h.cells.size ∧ c = d := by
    intro b d hb hd
    rw [append_cell] at hd
    by_cases heq : b = h.cells.size
    · exact ⟨heq, by simpa [heq] using hd⟩
    · rw [if_neg heq, Array.getElem?_eq_none hb] at hd
      cases hd
  refine hs.extend (fun hd => append_cell_of_some hd c) ?_ ?_
  · intro b t hb hd
    obtain ⟨rfl, rfl⟩ := htop hb hd
    obtain ⟨hkt, f, n, hf⟩ := hs.str_functor hk hc
    exact ⟨hkt, f, n, append_cell_of_some hf _⟩
  · intro b t hb hd
    obtain ⟨rfl, rfl⟩ := htop hb hd
    obtain ⟨hkt, d, hd, hdt⟩ := hs.ref_term hk hc
    exact ⟨hkt, Nat.le_of_lt (lt_size_of_getElem? hd), d, append_cell_of_some hd _, hdt⟩

theorem appendStructure (hs : h.SoundFrom k) (hk : k ≤ h.cells.size) (f : FunctorId) (n : Arity) :
    (h.appendStructure f n).SoundFrom k := by
  refine hs.extend (fun hd => appendStructure_cell_of_some hd f n) ?_ ?_
  · intro a t ha hc
    rw [appendStructure_cell] at hc
    by_cases h1 : a = h.cells.size + 1
    · simp [h1] at hc
    · by_cases h0 : a = h.cells.size
      · have ht : t = h.cells.size + 1 := by simpa [h0] using hc.symm
        exact ⟨by lia, f, n, by rw [ht, appendStructure_cell_functor]⟩
      · rw [if_neg h1, if_neg h0, Array.getElem?_eq_none ha] at hc
        cases hc
  · intro a t ha hc
    rw [appendStructure_cell] at hc
    by_cases h1 : a = h.cells.size + 1
    · simp [h1] at hc
    · by_cases h0 : a = h.cells.size
      · simp [h0] at hc
      · rw [if_neg h1, if_neg h0, Array.getElem?_eq_none ha] at hc
        cases hc

/-- Binding keeps a heap sound when a reference that is not younger, or a structure, is bound to. -/
theorem point (hs : h.SoundFrom k) {x v : Address} {c : Cell} (hx : h.cells[x]? = some (.ref x))
    (hk : k ≤ v) (hv : h.cells[v]? = some c) (ht : c.IsTerm)
    (ho : v ≤ x ∨ ∃ s, c = .str s) : (h.point x v).SoundFrom k := by
  have hterm : ∀ {a : Address} {d : Cell}, h.cells[a]? = some d → d.IsTerm →
      ∃ e, (h.point x v).cells[a]? = some e ∧ e.IsTerm :=
    fun hd hdt => (grows_point hx v).term hd hdt
  constructor
  · intro a t hka hc
    rw [point_cell hx] at hc
    by_cases ha : a = x
    · simp [ha] at hc
    · rw [if_neg ha] at hc
      obtain ⟨hkt, f, n, hf⟩ := hs.str_functor hka hc
      exact ⟨hkt, f, n, (grows_point hx v).functor hf⟩
  · intro a t hka hc
    rw [point_cell hx] at hc
    by_cases ha : a = x
    · simp only [ha, if_true, Option.some.injEq, Cell.ref.injEq] at hc
      subst hc
      exact ⟨hk, hterm hv ht⟩
    · rw [if_neg ha] at hc
      obtain ⟨hkt, d, hd, hdt⟩ := hs.ref_term hka hc
      exact ⟨hkt, hterm hd hdt⟩
  · intro a t hka hc
    rw [point_cell hx] at hc
    by_cases ha : a = x
    · simp only [ha, if_true, Option.some.injEq, Cell.ref.injEq] at hc
      subst hc ha
      rcases ho with hle | ⟨s, rfl⟩
      · exact .inl hle
      · exact .inr ⟨s, (grows_point hx v).str hv⟩
    · rw [if_neg ha] at hc
      rcases hs.ref_order hka hc with hle | ⟨s, hstr⟩
      · exact .inl hle
      · exact .inr ⟨s, (grows_point hx v).str hstr⟩

end SoundFrom

end TermMachine.Heap
