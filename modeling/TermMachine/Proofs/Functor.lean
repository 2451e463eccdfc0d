import TermMachine.Functor

/-! # Growing functor tables

Interning only appends: an id keeps its functor, and no functor has two ids.
-/
namespace TermMachine.Functor.Table

/-- Every id of `table` stands for the same functor in `later`. -/
def Extends (table later : Table) : Prop :=
  ∀ ⦃id : FunctorId⦄ ⦃f : Functor⦄, table.lookup id = some f → later.lookup id = some f

theorem Extends.refl (table : Table) : table.Extends table := fun _ _ h => h

theorem Extends.trans {a b c : Table} (hab : a.Extends b) (hbc : b.Extends c) : a.Extends c :=
  fun _ _ h => hbc (hab h)

theorem lookup_inj {table : Table} {i j : FunctorId} {f : Functor}
    (hi : table.lookup i = some f) (hj : table.lookup j = some f) : i = j := by
  have hi' := (table.index_iff f i).2 hi
  have hj' := (table.index_iff f j).2 hj
  exact Option.some.inj (hi'.symm.trans hj')

theorem entries_nodup (table : Table) : table.entries.toList.Nodup := by
  refine List.pairwise_iff_getElem.2 fun i j hi hj hij heq => ?_
  have hlook : ∀ {k : FunctorId} (hk : k < table.entries.toList.length),
      table.lookup k = some table.entries.toList[k] := by
    intro k hk
    rw [lookup, ← Array.getElem?_toList, List.getElem?_eq_getElem hk]
  have hij' := lookup_inj (hlook hi) (heq ▸ hlook hj)
  lia

theorem mem_entries {table : Table} {f : Functor} :
    f ∈ table.entries.toList ↔ ∃ i, table.lookup i = some f := by
  rw [Array.mem_toList_iff, Array.mem_iff_getElem?]
  rfl

theorem extends_intern (table : Table) (f : Functor) : table.Extends (table.intern f).2 := by
  intro id g hg
  by_cases h : ∃ i, table.lookup i = some f
  · obtain ⟨i, hi⟩ := h
    rw [intern_of_lookup hi]
    exact hg
  · have hnew := (intern_of_new (not_exists.1 h)).2
    have hlt : id < table.entries.size := (Array.getElem?_eq_some_iff.1 hg).1
    rw [lookup, hnew]
    split
    · rw [Array.getElem?_push_lt hlt, ← Array.getElem?_eq_getElem hlt]
      exact hg
    · exact hg

theorem lookup_intern (table : Table) (f : Functor) {id : FunctorId}
    (h : (table.intern f).1 = some id) : (table.intern f).2.lookup id = some f := by
  by_cases hold : ∃ i, table.lookup i = some f
  · obtain ⟨i, hi⟩ := hold
    rw [intern_of_lookup hi] at h ⊢
    cases h
    exact hi
  · obtain ⟨hid, hnew⟩ := intern_of_new (not_exists.1 hold)
    by_cases hc : table.size < table.capacity
    · rw [h, if_pos hc] at hid
      cases hid
      rw [lookup, hnew, if_pos hc]
      simp [size]
    · rw [h, if_neg hc] at hid
      cases hid

/-- What interning adds is the functor itself. -/
theorem lookup_of_lookup_intern {table : Table} {f g : Functor} {id : FunctorId}
    (h : (table.intern f).2.lookup id = some g) : table.lookup id = some g ∨ g = f := by
  by_cases hold : ∃ i, table.lookup i = some f
  · obtain ⟨i, hi⟩ := hold
    rw [intern_of_lookup hi] at h
    exact .inl h
  · rw [lookup, (intern_of_new (not_exists.1 hold)).2] at h
    by_cases hc : table.size < table.capacity
    · rw [if_pos hc, Array.getElem?_push] at h
      by_cases hid : id = table.entries.size
      · rw [if_pos hid, Option.some.injEq] at h
        exact .inr h.symm
      · rw [if_neg hid] at h
        exact .inl h
    · rw [if_neg hc] at h
      exact .inl h

theorem intern_capacity (table : Table) (f : Functor) :
    (table.intern f).2.capacity = table.capacity := by
  obtain ⟨entries, index, capacity, hindex⟩ := table
  simp only [intern]
  split
  · rfl
  · split
    · rfl
    · rfl

structure Bounded (capacity : Nat) (table : Table) : Prop where
  capacity_eq : table.capacity = capacity
  size_le : table.size ≤ capacity

theorem bounded_empty (capacity : Nat) : (empty capacity).Bounded (min capacity tableLimit) := by
  constructor
  · rfl
  · simp [size, empty]

theorem Bounded.clear {capacity : Nat} {table : Table} (h : table.Bounded capacity) :
    table.clear.Bounded capacity := by
  constructor
  · exact h.capacity_eq
  · simp [size, Table.clear]

theorem Bounded.intern {capacity : Nat} {table : Table} (h : table.Bounded capacity)
    (f : Functor) : (table.intern f).2.Bounded capacity := by
  constructor
  · rw [intern_capacity, h.capacity_eq]
  · by_cases hold : ∃ i, table.lookup i = some f
    · obtain ⟨i, hi⟩ := hold
      rw [intern_of_lookup hi]
      exact h.size_le
    · rw [size, (intern_of_new (not_exists.1 hold)).2]
      by_cases hc : table.size < table.capacity
      · rw [if_pos hc, Array.size_push, ← h.capacity_eq]
        exact hc
      · rw [if_neg hc]
        exact h.size_le

end TermMachine.Functor.Table
