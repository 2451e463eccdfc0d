import Mathlib.Data.List.Induction
import Mathlib.Data.List.Nodup
import TermMachine.Proofs.Functor

/-! # The numbering of functors

A table is asked for functors and cleared, in any order and whatever it answers. Its entries are the
first functors that it has been asked for since it was last cleared, each once and as many as it has
room for, and their ids are their positions. So an id is given to one functor only, and a functor
that has an id keeps it until the next clear.
-/
namespace TermMachine.Functor.Table

inductive Operation where
  | intern (f : Functor)
  | clear

def after (table : Table) : Operation → Table
  | .intern f => (table.intern f).2
  | .clear => table.clear

def afterAll (table : Table) (operations : List Operation) : Table := operations.foldl after table

/-- What has been asked for since the last clear, with one more operation. -/
def askedAfter (fs : List Functor) : Operation → List Functor
  | .intern f => fs ++ [f]
  | .clear => []

def asked (operations : List Operation) : List Functor := operations.foldl askedAfter []

/-- How a table with room for `limit` functors answers when it is asked for one. -/
structure Answers (limit : Nat) (table : Table) (f : Functor) : Prop where
  known : ∀ {id}, table.lookup id = some f → table.intern f = (some id, table)
  new : f ∉ table.entries.toList → table.size < limit →
    (table.intern f).1 = some table.size ∧ (table.intern f).2.entries = table.entries.push f
  given : f ∈ table.entries.toList ∨ table.size < limit →
    ∃ id, (table.intern f).1 = some id ∧ (table.intern f).2.lookup id = some f
  refused_iff : (table.intern f).1 = none ↔ f ∉ table.entries.toList ∧ table.size = limit
  refused : (table.intern f).1 = none → (table.intern f).2 = table

variable {table : Table} {limit : Nat} {f g : Functor} {id : FunctorId}

theorem lookup_isSome : (table.lookup id).isSome = true ↔ id < table.size := by
  simp [lookup, size]

theorem map_fst_toList (table : Table) : table.toList.map Prod.fst = List.range table.size := by
  simp [toList, size, List.range_eq_range', Function.comp_def]

theorem map_snd_toList (table : Table) : table.toList.map Prod.snd = table.entries.toList := by
  simp [toList, Function.comp_def]

/-- A table grows by entries behind those that it has. -/
theorem Extends.entries_isPrefix {later : Table} (h : table.Extends later) :
    table.entries.toList <+: later.entries.toList := by
  refine List.prefix_iff_getElem?.2 fun i hi => ?_
  rw [Array.length_toList] at hi
  rw [Array.getElem?_toList, Array.getElem_toList]
  exact h (Array.getElem?_eq_getElem hi)

/-- A table that refuses a functor is left alone. -/
theorem intern_refused (h : (table.intern f).1 = none) : (table.intern f).2 = table := by
  obtain ⟨entries, index, capacity, hi⟩ := table
  simp only [intern] at h ⊢
  split at h
  · cases h
  · rename_i hf
    split at h
    · cases h
    · rename_i hfull
      rw [if_neg hfull]

/-- A table answers with the id that a functor has, or with the next one, or it is full. -/
theorem Bounded.intern_cases (h : table.Bounded limit) (f : Functor) :
    (∃ id, table.lookup id = some f ∧ table.intern f = (some id, table)) ∨
    (f ∉ table.entries.toList ∧ table.size < limit ∧
      ∃ later, table.intern f = (some table.size, later) ∧ later.entries = table.entries.push f) ∨
    f ∉ table.entries.toList ∧ table.size = limit ∧ table.intern f = (none, table) := by
  by_cases hold : f ∈ table.entries.toList
  · obtain ⟨id, hid⟩ := mem_entries.1 hold
    exact .inl ⟨id, hid, intern_of_lookup hid⟩
  · obtain ⟨hid, hentries⟩ := intern_of_new fun id hid => hold (mem_entries.2 ⟨id, hid⟩)
    rw [h.capacity_eq] at hid hentries
    by_cases hroom : table.size < limit
    · rw [if_pos hroom] at hid hentries
      exact .inr (.inl ⟨hold, hroom, _, Prod.ext hid rfl, hentries⟩)
    · rw [if_neg hroom] at hid
      have hfull := Nat.le_antisymm h.size_le (Nat.le_of_not_lt hroom)
      exact .inr (.inr ⟨hold, hfull, Prod.ext hid (intern_refused hid)⟩)

theorem Bounded.answers (h : table.Bounded limit) (f : Functor) : table.Answers limit f := by
  rcases h.intern_cases f with ⟨id, hid, heq⟩ | ⟨hnew, hroom, later, heq, hentries⟩ |
    ⟨hnew, hfull, heq⟩
  · have hmem := mem_entries.2 ⟨id, hid⟩
    constructor
    case known => exact intern_of_lookup
    case new => exact fun hnot => absurd hmem hnot
    case given => exact fun _ => ⟨id, by rw [heq], by rwa [heq]⟩
    case refused_iff => simp [heq, hmem]
    case refused => exact intern_refused
  · constructor
    case known => exact intern_of_lookup
    case new => exact fun _ _ => by rw [heq]; exact ⟨rfl, hentries⟩
    case given => exact fun _ => ⟨table.size, by rw [heq], lookup_intern table f (by rw [heq])⟩
    case refused_iff => simp [heq, Nat.ne_of_lt hroom]
    case refused => exact intern_refused
  · constructor
    case known => exact intern_of_lookup
    case new => exact fun _ hroom => absurd hfull (Nat.ne_of_lt hroom)
    case given => exact fun hor => (hor.elim hnew fun hroom => Nat.ne_of_lt hroom hfull).elim
    case refused_iff => simp [heq, hnew, hfull]
    case refused => exact intern_refused

/-- The entries behind one more functor: it is appended when it is new and there is room. -/
theorem Bounded.entries_intern (h : table.Bounded limit) (f : Functor) :
    (table.intern f).2.entries.toList =
      if f ∈ table.entries.toList ∨ table.entries.toList.length = limit then table.entries.toList
      else table.entries.toList ++ [f] := by
  have hlength : table.entries.toList.length = table.size := Array.length_toList
  rcases h.intern_cases f with ⟨id, hid, heq⟩ | ⟨hnew, hroom, later, heq, hentries⟩ |
    ⟨hnew, hfull, heq⟩
  · rw [if_pos (.inl (mem_entries.2 ⟨id, hid⟩)), heq]
  · rw [if_neg, heq, hentries, Array.toList_push]
    rintro (hmem | hfull)
    · exact hnew hmem
    · exact Nat.ne_of_lt hroom (hlength.symm.trans hfull)
  · rw [if_pos (.inr (hlength.trans hfull)), heq]

theorem Bounded.afterAll (h : table.Bounded limit) (operations : List Operation) :
    (table.afterAll operations).Bounded limit := by
  induction operations generalizing table with
  | nil => exact h
  | cons operation operations ih =>
    cases operation with
    | intern f => exact ih (h.intern f)
    | clear => exact ih h.clear

theorem extends_afterAll {later : List Operation} (hlater : .clear ∉ later) :
    table.Extends (table.afterAll later) := by
  induction later generalizing table with
  | nil => exact .refl table
  | cons operation later ih =>
    cases operation with
    | intern f => exact (extends_intern table f).trans (ih (List.not_mem_of_not_mem_cons hlater))
    | clear => exact absurd List.mem_cons_self hlater

/-- The first `limit` of some functors, each once, with one more asked for. -/
theorem take_eraseDups_concat (limit : Nat) (fs : List Functor) (f : Functor) :
    (fs ++ [f]).eraseDups.take limit =
      if f ∈ fs.eraseDups.take limit ∨ (fs.eraseDups.take limit).length = limit then
        fs.eraseDups.take limit
      else fs.eraseDups.take limit ++ [f] := by
  rw [List.eraseDups_append]
  by_cases hlong : limit ≤ fs.eraseDups.length
  · rw [if_pos (.inr (List.length_take_of_le hlong)), List.take_append_of_le_length hlong]
  · have hshort : fs.eraseDups.length ≤ limit := Nat.le_of_not_le hlong
    have hlength : fs.eraseDups.length ≠ limit := fun heq => hlong (Nat.le_of_eq heq.symm)
    rw [List.take_of_length_le hshort]
    by_cases hf : f ∈ fs
    · have hold : [f].removeAll fs = [] := by simp [List.removeAll, hf]
      rw [if_pos (.inl (List.mem_eraseDups.2 hf)), hold, List.eraseDups_nil, List.append_nil,
        List.take_of_length_le hshort]
    · have hnew : ([f].removeAll fs).eraseDups = [f] := by
        simp [List.removeAll, hf, List.eraseDups_cons]
      rw [if_neg (by simp [hf, hlength]), hnew, List.take_of_length_le]
      rw [List.length_append, List.length_singleton]
      omega

/-- The entries are the first functors asked for, each once, as many as there is room for. -/
theorem entries_afterAll (capacity : Nat) (operations : List Operation) :
    ((empty capacity).afterAll operations).entries.toList =
      (asked operations).eraseDups.take (min capacity tableLimit) := by
  induction operations using List.reverseRecOn with
  | nil => simp [afterAll, asked, empty]
  | append_singleton operations operation ih =>
    have hbounded := (bounded_empty capacity).afterAll operations
    rw [afterAll, List.foldl_concat, ← afterAll, asked, List.foldl_concat, ← asked]
    cases operation with
    | intern f => rw [after, hbounded.entries_intern, ih, askedAfter, take_eraseDups_concat]
    | clear => simp [after, clear, askedAfter]

theorem lookup_afterAll_intern (hid : (table.intern f).1 = some id) {later : List Operation}
    (hlater : .clear ∉ later) : ((table.intern f).2.afterAll later).lookup id = some f :=
  extends_afterAll hlater (lookup_intern table f hid)

/-- Whatever has been asked of a table, its ids count its entries, which are the functors asked for
since the last clear, each once and in order, as many as it has room for. A functor that has an id,
or for which there is room, is given its id, and keeps it until the next clear; so until then two
functors are given the same id only if they are the same. -/
theorem afterAll_numbers (capacity : Nat) (operations : List Operation) :
    let table := (empty capacity).afterAll operations
    let limit := min capacity tableLimit
    table.capacity = limit ∧ table.size ≤ limit ∧
      (∀ id, (table.lookup id).isSome = true ↔ id < table.size) ∧
      table.toList.map Prod.fst = List.range table.size ∧
      table.toList.map Prod.snd = (asked operations).eraseDups.take limit ∧
      (table.toList.map Prod.snd).Nodup ∧
      ∀ f, table.Answers limit f ∧
        ∀ id, (table.intern f).1 = some id → ∀ later, .clear ∉ later →
          ((table.intern f).2.afterAll later).lookup id = some f ∧
          ∀ g j, (((table.intern f).2.afterAll later).intern g).1 = some j →
            (id = j ↔ f = g) := by
  intro table limit
  have hbounded : table.Bounded limit := (bounded_empty capacity).afterAll operations
  refine ⟨hbounded.capacity_eq, hbounded.size_le, fun id => lookup_isSome, map_fst_toList table,
    ?_, ?_, fun f => ⟨hbounded.answers f, fun id hid later hlater => ?_⟩⟩
  · rw [map_snd_toList]
    exact entries_afterAll capacity operations
  · rw [map_snd_toList]
    exact entries_nodup table
  · have hf := lookup_afterAll_intern hid hlater
    refine ⟨hf, fun g j hj => ?_⟩
    have hg := lookup_intern _ g hj
    have hf' := extends_intern _ g hf
    constructor
    · rintro rfl
      rw [hf', Option.some.injEq] at hg
      exact hg
    · rintro rfl
      exact lookup_inj hf' hg

/-- A table that was cleared and is full again. It refuses the functor that it had first, and still
knows those that it has. -/
theorem afterAll_numbers_full :
    let table := (empty 2).afterAll
      [.intern ⟨"p", 1⟩, .clear, .intern ⟨"q", 0⟩, .intern ⟨"r", 2⟩, .intern ⟨"p", 1⟩]
    let later : List Operation := [.intern ⟨"p", 1⟩, .intern ⟨"q", 0⟩]
    (table.intern ⟨"p", 1⟩).1 = none ∧ (table.intern ⟨"p", 1⟩).2 = table ∧
      (table.intern ⟨"r", 2⟩).1 = some 1 ∧ .clear ∉ later ∧
      ((table.intern ⟨"r", 2⟩).2.afterAll later).lookup 1 = some ⟨"r", 2⟩ ∧
      ∀ g j, (((table.intern ⟨"r", 2⟩).2.afterAll later).intern g).1 = some j →
        (1 = j ↔ ⟨"r", 2⟩ = g) := by
  intro table later
  have hnumbers := (afterAll_numbers 2
    [.intern ⟨"p", 1⟩, .clear, .intern ⟨"q", 0⟩, .intern ⟨"r", 2⟩, .intern ⟨"p", 1⟩]).2.2.2.2.2.2
  have hnone : (table.intern ⟨"p", 1⟩).1 = none := by decide +kernel
  have hsome : (table.intern ⟨"r", 2⟩).1 = some 1 := by decide +kernel
  have hlater : .clear ∉ later := by simp [later]
  exact ⟨hnone, (hnumbers _).1.refused hnone, hsome, hlater, (hnumbers _).2 1 hsome later hlater⟩

end TermMachine.Functor.Table
