import Std.Data.TreeMap
import TermMachine.Index

/-! # Functors and their table

A functor is a name with an arity. The table numbers functors in the order in which they are first
asked for; the number is the functor's id until the table is cleared. The index is the inverse of
the list of entries, so an id and a functor determine each other.
-/
namespace TermMachine

structure Functor where
  name : String
  arity : Arity
deriving DecidableEq

namespace Functor

def order (f g : Functor) : Ordering :=
  (compare f.name g.name).then (compare f.arity g.arity)

instance : Std.TransCmp order :=
  inferInstanceAs (Std.TransCmp (compareLex (compareOn Functor.name) (compareOn Functor.arity)))

instance : Std.LawfulEqCmp order where
  eq_of_compare {f g} h := by
    obtain ⟨hn, ha⟩ := Ordering.then_eq_eq.1 h
    cases f
    cases g
    simp_all

def text (f : Functor) : String := f.name ++ "/" ++ f.arity.text

def tableLimit : Nat := 65536

structure Table where
  entries : Array Functor
  index : Std.TreeMap Functor FunctorId order
  capacity : Nat
  index_iff : ∀ (f : Functor) (i : FunctorId), index[f]? = some i ↔ entries[i]? = some f

namespace Table

def empty (capacity : Nat) : Table where
  entries := #[]
  index := ∅
  capacity := min capacity tableLimit
  index_iff := by simp

theorem index_iff_push {entries : Array Functor} {index : Std.TreeMap Functor FunctorId order}
    (h : ∀ (f : Functor) (i : FunctorId), index[f]? = some i ↔ entries[i]? = some f)
    {new : Functor} (hnew : index[new]? = none) (f : Functor) (i : FunctorId) :
    (index.insert new entries.size)[f]? = some i ↔ (entries.push new)[i]? = some f := by
  have hfresh : ∀ j : Nat, entries[j]? ≠ some new := fun j hj => by simp [(h new j).2 hj] at hnew
  rw [Std.TreeMap.getElem?_insert, Array.getElem?_push]
  simp only [Std.LawfulEqCmp.compare_eq_iff_eq]
  by_cases hf : new = f
  · subst hf
    by_cases hi : i = entries.size
    · simp [hi]
    · simp [hi, hfresh i, Ne.symm hi]
  · by_cases hi : i = entries.size
    · subst hi
      simp [hf, h f]
    · simp [hf, hi, h f]

def size (table : Table) : Nat := table.entries.size

def lookup (table : Table) (id : FunctorId) : Option Functor := table.entries[id]?

def nameOf (table : Table) (id : FunctorId) : String :=
  match table.lookup id with
  | some f => f.text
  | none => "<unknown functor " ++ id.text ++ ">"

def toList (table : Table) : List (FunctorId × Functor) :=
  table.entries.toList.zipIdx.map Prod.swap

def clear (table : Table) : Table where
  entries := #[]
  index := ∅
  capacity := table.capacity
  index_iff := by simp

/-- The id of a functor, which takes the next free one when it is new; `none` when it is new and
the table is full. -/
def intern (table : Table) (f : Functor) : Option FunctorId × Table :=
  match table with
  | ⟨entries, index, capacity, hi⟩ =>
    match hf : index[f]? with
    | some id => (some id, ⟨entries, index, capacity, hi⟩)
    | none =>
      if entries.size < capacity then
        (some entries.size, ⟨entries.push f, index.insert f entries.size, capacity,
          index_iff_push hi hf⟩)
      else (none, ⟨entries, index, capacity, hi⟩)

theorem intern_of_lookup {table : Table} {f : Functor} {id : FunctorId}
    (h : table.lookup id = some f) : table.intern f = (some id, table) := by
  obtain ⟨entries, index, capacity, hi⟩ := table
  have hf := (hi f id).2 h
  simp only [intern]
  split
  · simp_all
  · simp_all

/-- A new functor is appended and gets the next id, unless the table is full. -/
theorem intern_of_new {table : Table} {f : Functor} (h : ∀ id, table.lookup id ≠ some f) :
    (table.intern f).1 = (if table.size < table.capacity then some table.size else none) ∧
    (table.intern f).2.entries =
      (if table.size < table.capacity then table.entries.push f else table.entries) := by
  obtain ⟨entries, index, capacity, hi⟩ := table
  simp only [intern]
  split
  · rename_i j hj
    exact absurd ((hi f j).1 hj) (h j)
  · by_cases hc : entries.size < capacity
    · simp [size, hc]
    · simp [size, hc]

end Table
end Functor
end TermMachine
