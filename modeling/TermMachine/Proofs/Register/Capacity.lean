import TermMachine.Proofs.Register.Renumbering
import TermMachine.Proofs.Term.Functors

/-! # Which terms are given registers

Registers are given out one by one, and functors are interned one by one, until one of the limits is
met. What has been given out and what is still to be placed add up to the whole term at every step,
so a limit is met only if the whole term exceeds it.
-/
namespace TermMachine

namespace Functor

def shape (f : Functor) : String × Nat := (f.name, f.arity.val)

theorem shape_injective : Function.Injective shape := by
  intro f g h
  obtain ⟨hname, harity⟩ := Prod.mk.inj h
  cases f
  cases g
  exact congrArg₂ Functor.mk hname (Fin.ext harity)

namespace Table

variable {table later : Table} {f : Functor} {S : Finset (String × Nat)}

def shapes (table : Table) : Finset (String × Nat) := (table.entries.toList.map shape).toFinset

theorem mem_shapes {s : String × Nat} :
    s ∈ table.shapes ↔ ∃ i f, table.lookup i = some f ∧ f.shape = s := by
  simp only [shapes, List.mem_toFinset, List.mem_map, mem_entries]
  constructor
  · rintro ⟨f, ⟨i, hi⟩, rfl⟩
    exact ⟨i, f, hi, rfl⟩
  · rintro ⟨i, f, hi, rfl⟩
    exact ⟨f, ⟨i, hi⟩, rfl⟩

theorem shape_mem_shapes : f.shape ∈ table.shapes ↔ ∃ i, table.lookup i = some f := by
  rw [mem_shapes]
  constructor
  · rintro ⟨i, g, hi, hg⟩
    exact ⟨i, shape_injective hg ▸ hi⟩
  · rintro ⟨i, hi⟩
    exact ⟨i, f, hi, rfl⟩

theorem card_shapes (table : Table) : table.shapes.card = table.size := by
  rw [shapes, List.toFinset_card_of_nodup ((entries_nodup table).map shape_injective),
    List.length_map, Array.length_toList, size]

theorem Extends.shapes_subset (h : table.Extends later) : table.shapes ⊆ later.shapes := by
  intro s hs
  obtain ⟨i, f, hi, rfl⟩ := mem_shapes.1 hs
  exact mem_shapes.2 ⟨i, f, h hi, rfl⟩

/-- A functor has no id only if it is new and the table is full. -/
theorem intern_eq_none (h : (table.intern f).1 = none) :
    table.capacity ≤ table.size ∧ f.shape ∉ table.shapes := by
  rw [shape_mem_shapes]
  by_cases hold : ∃ i, table.lookup i = some f
  · obtain ⟨i, hi⟩ := hold
    rw [intern_of_lookup hi] at h
    cases h
  · rw [(intern_of_new (not_exists.1 hold)).1] at h
    refine ⟨?_, hold⟩
    by_contra hlt
    rw [if_pos (Nat.not_le.1 hlt)] at h
    cases h

structure Grown (table : Table) (S : Finset (String × Nat)) (later : Table) : Prop where
  extend : table.Extends later
  within : later.shapes ⊆ table.shapes ∪ S
  capacity_eq : later.capacity = table.capacity
  size_le : later.size ≤ max table.size table.capacity

theorem Grown.refl (table : Table) (S : Finset (String × Nat)) : table.Grown S table where
  extend := .refl table
  within := Finset.subset_union_left
  capacity_eq := rfl
  size_le := Nat.le_max_left _ _

theorem Grown.intern (h : table.Grown S later) (hf : f.shape ∈ S) :
    table.Grown S (later.intern f).2 where
  extend := h.extend.trans (later.extends_intern f)
  within := by
    intro s hs
    obtain ⟨i, g, hi, rfl⟩ := mem_shapes.1 hs
    rcases lookup_of_lookup_intern hi with hold | rfl
    · exact h.within (mem_shapes.2 ⟨i, g, hold, rfl⟩)
    · exact Finset.mem_union_right _ hf
  capacity_eq := by rw [intern_capacity, h.capacity_eq]
  size_le := by
    by_cases hold : ∃ i, later.lookup i = some f
    · obtain ⟨i, hi⟩ := hold
      rw [intern_of_lookup hi]
      exact h.size_le
    · have hle := h.size_le
      have hcap := h.capacity_eq
      rw [size, (intern_of_new (not_exists.1 hold)).2]
      by_cases hc : later.size < later.capacity
      · rw [if_pos hc, Array.size_push]
        unfold size at hc
        omega
      · rw [if_neg hc]
        exact hle

/-- A full table without one of the functors: there was no room for all of them. -/
theorem Grown.lt_card (h : table.Grown S later) (hf : f.shape ∈ S)
    (hnone : (later.intern f).1 = none) :
    table.capacity - table.size < (S \ table.shapes).card := by
  obtain ⟨hfull, hnew⟩ := intern_eq_none hnone
  have hsub : insert f.shape later.shapes ⊆ S ∪ table.shapes := by
    rw [Finset.union_comm]
    exact Finset.insert_subset (Finset.mem_union_right _ hf) h.within
  have hcard := Finset.card_le_card hsub
  rw [Finset.card_insert_of_notMem hnew, ← Finset.card_sdiff_add_card, card_shapes,
    card_shapes] at hcard
  have hcap := h.capacity_eq
  have hold := Finset.card_le_card h.extend.shapes_subset
  rw [card_shapes, card_shapes] at hold
  omega

theorem Grown.card_le (h : table.Grown S later) (hall : S ⊆ later.shapes) :
    (S \ table.shapes).card ≤ table.capacity - table.size := by
  have hcard := Finset.card_le_card (Finset.union_subset hall h.extend.shapes_subset)
  rw [← Finset.card_sdiff_add_card, card_shapes, card_shapes] at hcard
  have hle := h.size_le
  omega

end Table
end Functor

namespace Term

def variableName : Term → Option String
  | .var name => some name
  | _ => none

theorem variableName_eq_some {t : Term} {name : String} :
    t.variableName = some name ↔ t = .var name := by
  cases t with
  | atom a => simp [variableName]
  | var a => simp [variableName]
  | app a args => simp [variableName]

theorem length_head (t : Term) : t.head.length + t.variableName.toList.length = 1 := by
  cases t with
  | atom name => rfl
  | var name => rfl
  | app name args => rfl

end Term

structure Accounts (t : Term) (nodes pending : List Term) : Prop where
  functors : (nodes.flatMap Term.head ++ pending.flatMap Term.functors).Perm t.functors
  vars : ∀ name, name ∈ t.vars ↔ .var name ∈ nodes ∨ name ∈ pending.flatMap Term.vars
  nodup : (nodes.filterMap Term.variableName).Nodup

namespace Accounts

variable {t u : Term} {nodes pending : List Term} {name : String}

theorem start (t : Term) : Accounts t [] [t] where
  functors := by simp
  vars := by simp
  nodup := .nil

/-- A term is placed at a new node, and its arguments are to be placed then. -/
theorem add (h : Accounts t nodes (u :: pending)) (hnew : ∀ name, u = .var name → u ∉ nodes) :
    Accounts t (nodes ++ [u]) (pending ++ u.args) where
  functors := by
    refine List.Perm.trans ?_ h.functors
    rw [List.flatMap_append, List.flatMap_append, List.flatMap_singleton, List.flatMap_cons,
      u.functors_eq, Term.functorsAll_eq_flatMap, List.append_assoc, List.append_assoc]
    exact (List.perm_append_comm.append_left _).append_left _
  vars name := by
    rw [h.vars, List.flatMap_cons, List.flatMap_append, List.mem_append, List.mem_append,
      List.mem_append, List.mem_singleton, Term.mem_vars_iff (t := u), eq_comm (a := u)]
    tauto
  nodup := by
    rw [List.filterMap_append, List.nodup_append]
    refine ⟨h.nodup, ?_, ?_⟩
    · cases u with
      | atom a => exact .nil
      | var a => exact List.nodup_singleton a
      | app a args => exact .nil
    · intro a ha b hb heq
      obtain ⟨w, hw, hwa⟩ := List.mem_filterMap.1 ha
      obtain ⟨u', hu', hub⟩ := List.mem_filterMap.1 hb
      rw [Term.variableName_eq_some] at hwa hub
      rw [List.mem_singleton] at hu'
      subst hu' heq
      exact hnew a hub (hub ▸ hwa ▸ hw)

/-- A variable that has a node is done with. -/
theorem skip (h : Accounts t nodes (.var name :: pending)) (hold : .var name ∈ nodes) :
    Accounts t nodes pending where
  functors := h.functors
  vars a := by
    rw [h.vars, List.flatMap_cons, Term.vars, List.mem_append, List.mem_singleton]
    constructor
    · rintro (hmem | rfl | hmem)
      · exact .inl hmem
      · exact .inl hold
      · exact .inr hmem
    · rintro (hmem | hmem)
      · exact .inl hmem
      · exact .inr (.inr hmem)
  nodup := h.nodup

theorem length_eq (nodes : List Term) : nodes.length =
    (nodes.filterMap Term.variableName).length + (nodes.flatMap Term.head).length := by
  induction nodes with
  | nil => rfl
  | cons u nodes ih =>
    have hu := u.length_head
    rw [List.filterMap_cons, List.flatMap_cons, List.length_append, List.length_cons, ih]
    cases hv : u.variableName with
    | none =>
      rw [hv, Option.toList_none, List.length_nil] at hu
      dsimp only
      omega
    | some a =>
      rw [hv, Option.toList_some, List.length_singleton] at hu
      dsimp only
      rw [List.length_cons]
      omega

theorem head_subset (h : Accounts t nodes pending) (hu : u ∈ nodes) : u.head ⊆ t.functors :=
  fun _ hs => h.functors.subset (List.mem_append_left _ (List.mem_flatMap.2 ⟨u, hu, hs⟩))

/-- There are no more nodes than the term takes registers. -/
theorem length_le (h : Accounts t nodes pending) : nodes.length ≤ t.registers := by
  have hvars : (nodes.filterMap Term.variableName).length ≤ t.vars.toFinset.card := by
    rw [← List.toFinset_card_of_nodup h.nodup]
    refine Finset.card_le_card fun a ha => ?_
    obtain ⟨u, hu, hua⟩ := List.mem_filterMap.1 (List.mem_toFinset.1 ha)
    rw [Term.variableName_eq_some] at hua
    exact List.mem_toFinset.2 ((h.vars a).2 (.inl (hua ▸ hu)))
  have hfunctors := h.functors.length_eq
  rw [List.length_append] at hfunctors
  rw [length_eq, Term.registers]
  omega

theorem length_eq_registers (h : Accounts t nodes []) : nodes.length = t.registers := by
  have hvars : (nodes.filterMap Term.variableName).toFinset = t.vars.toFinset := by
    ext a
    rw [List.mem_toFinset, List.mem_toFinset, List.mem_filterMap, h.vars]
    simp [Term.variableName_eq_some]
  have hfunctors := h.functors.length_eq
  rw [List.flatMap_nil, List.append_nil] at hfunctors
  rw [length_eq, Term.registers, ← hvars, List.toFinset_card_of_nodup h.nodup, hfunctors]

end Accounts

namespace Placement

variable {capacity : Nat} {p p' : Placement} {t u : Term} {ts pending : List Term} {x : Register}
  {xs : List Register} {e : CompileError}

theorem place_error (h : p.place capacity t = .error e) : e = .outOfRegisters capacity ∧
    min capacity registerLimit ≤ p.nodes.size ∧ ∀ name, t = .var name → p.vars[name]? = none := by
  have hadd : p.add capacity t = .error e ∧ ∀ name, t = .var name → p.vars[name]? = none := by
    rcases t.eq_var_or_isApp with ⟨name, rfl⟩ | happ
    · rw [place] at h
      cases hv : p.vars[name]? with
      | some y => simp [hv] at h
      | none =>
        rcases hadd : p.add capacity (.var name) with e' | ⟨y, q⟩
        · simp only [hv, hadd, Except.error.injEq] at h
          refine ⟨by rw [h], fun a ha => ?_⟩
          rw [← Term.var.inj ha]
          exact hv
        · simp [hv, hadd] at h
    · cases t with
      | var name => exact happ.elim
      | atom name => exact ⟨h, nofun⟩
      | app name args => exact ⟨h, nofun⟩
  obtain ⟨hadd, hnone⟩ := hadd
  unfold add at hadd
  by_cases hfull : p.isFull capacity
  · rw [if_pos hfull, Except.error.injEq] at hadd
    exact ⟨hadd.symm, isFull_iff.1 hfull, hnone⟩
  · simp [hfull] at hadd

def waiting (p : Placement) (k : Nat) : List Term := (p.nodes.toList.drop k).flatMap Term.args

theorem waiting_push {k : Nat} (hk : k ≤ p.nodes.size) (h : p'.nodes = p.nodes.push u) :
    p'.waiting k = p.waiting k ++ u.args := by
  rw [waiting, h, Array.toList_push, List.drop_append_of_le_length (by simpa using hk),
    List.flatMap_append, List.flatMap_singleton, waiting]

theorem waiting_eq {k : Nat} (hu : p.nodes[k]? = some u) :
    p.waiting k = u.args ++ p.waiting (k + 1) := by
  obtain ⟨hlt, hget⟩ := Array.getElem?_eq_some_iff.1 hu
  have hlen : k < p.nodes.toList.length := by simpa using hlt
  rw [waiting, waiting, ← List.getElem_cons_drop hlen, List.flatMap_cons, Array.getElem_toList,
    hget]

/-- How far an allocation has come when the first `k` rows have been read and the terms `ts` are to
be placed next: `ys` are the registers read so far, and their first appearances go up by one. -/
structure Progress (capacity : Nat) (t : Term) (k : Nat) (ts : List Term) (p : Placement)
    (ys : List Register) : Prop where
  valid : p.Valid capacity
  limit : p.nodes.size ≤ min capacity registerLimit
  read_le : k ≤ p.nodes.size
  accounts : Accounts t p.nodes.toList (ts ++ p.waiting k)
  numbered : ys.eraseDups = List.range p.nodes.size

namespace Progress

variable {k : Nat} {ys : List Register}

theorem start (capacity : Nat) (t : Term) : Progress capacity t 0 [t] empty [] where
  valid := ⟨by simp [empty], by simp [empty]⟩
  limit := Nat.zero_le _
  read_le := Nat.zero_le _
  accounts := .start t
  numbered := rfl

theorem mem_iff (h : Progress capacity t k ts p ys) : x ∈ ys ↔ x < p.nodes.size := by
  rw [← List.mem_eraseDups, h.numbered, List.mem_range]

theorem place (h : Progress capacity t k (u :: ts) p ys)
    (hplace : p.place capacity u = .ok (x, p')) : Progress capacity t k ts p' (ys ++ [x]) := by
  have hvalid := place_valid h.valid hplace
  rcases place_cases hplace with ⟨name, rfl, hname, rfl⟩ | ⟨hlt, rfl, hnodes, hvars⟩
  · have hx := h.valid.vars_iff.1 hname
    refine ⟨hvalid, h.limit, h.read_le, ?_, ?_⟩
    · exact h.accounts.skip (Array.mem_toList_iff.2 (Array.mem_of_getElem? hx))
    · have hmem := h.mem_iff.2 (Array.getElem?_eq_some_iff.1 hx).1
      rw [List.eraseDups_append, h.numbered]
      simp [List.removeAll, hmem]
  · have hfresh : p.nodes.size ∉ ys := fun hmem => Nat.lt_irrefl _ (h.mem_iff.1 hmem)
    have hnew : ∀ name, u = .var name → u ∉ p.nodes.toList := by
      rintro name rfl hmem
      obtain ⟨y, hy⟩ := Array.mem_iff_getElem?.1 (Array.mem_toList_iff.1 hmem)
      rcases hvars with ⟨happ, -⟩ | ⟨a, ha, hnone, -⟩
      · exact happ
      · rw [← Term.var.inj ha, h.valid.vars_iff.2 hy] at hnone
        cases hnone
    refine ⟨hvalid, ?_, ?_, ?_, ?_⟩
    · rw [hnodes, Array.size_push]
      omega
    · rw [hnodes, Array.size_push]
      exact Nat.le_succ_of_le h.read_le
    · rw [waiting_push h.read_le hnodes, hnodes, Array.toList_push, ← List.append_assoc]
      exact h.accounts.add hnew
    · rw [List.eraseDups_append, h.numbered, hnodes, Array.size_push, List.range_succ]
      simp [List.removeAll, hfresh, List.eraseDups_cons]

/-- There is no register left for a term that does not fit. -/
theorem place_error (h : Progress capacity t k (u :: ts) p ys)
    (hplace : p.place capacity u = .error e) :
    e = .outOfRegisters capacity ∧ min capacity registerLimit < t.registers := by
  obtain ⟨rfl, hfull, hnone⟩ := Placement.place_error hplace
  have hnew : ∀ name, u = .var name → u ∉ p.nodes.toList := by
    rintro name rfl hmem
    obtain ⟨y, hy⟩ := Array.mem_iff_getElem?.1 (Array.mem_toList_iff.1 hmem)
    have hold := hnone name rfl
    rw [h.valid.vars_iff.2 hy] at hold
    cases hold
  have hle := (h.accounts.add hnew).length_le
  rw [List.length_append, Array.length_toList, List.length_singleton] at hle
  exact ⟨rfl, by omega⟩

theorem placeAll (h : Progress capacity t k ts p ys) :
    (∀ {xs q}, p.placeAll capacity ts = .ok (xs, q) → Progress capacity t k [] q (ys ++ xs)) ∧
      ∀ {e}, p.placeAll capacity ts = .error e →
        e = .outOfRegisters capacity ∧ min capacity registerLimit < t.registers := by
  induction ts generalizing p ys with
  | nil =>
    refine ⟨fun {xs q} heq => ?_, fun heq => ?_⟩
    · simp only [Placement.placeAll, Except.ok.injEq, Prod.mk.injEq] at heq
      obtain ⟨rfl, rfl⟩ := heq
      simpa using h
    · cases heq
  | cons u ts ih =>
    rw [Placement.placeAll]
    rcases hone : p.place capacity u with e | ⟨x, p₁⟩
    · refine ⟨fun heq => ?_, fun heq => ?_⟩
      · cases heq
      · rw [← Except.error.inj heq]
        exact h.place_error hone
    · obtain ⟨hok, herror⟩ := ih (h.place hone)
      dsimp only
      rcases hall : p₁.placeAll capacity ts with e | ⟨xs, q⟩
      · refine ⟨fun heq => ?_, fun heq => ?_⟩
        · cases heq
        · rw [← Except.error.inj heq]
          exact herror hall
      · refine ⟨fun heq => ?_, fun heq => ?_⟩
        · simp only [Except.ok.injEq, Prod.mk.injEq] at heq
          obtain ⟨rfl, rfl⟩ := heq
          simpa using hok hall
        · cases heq

theorem next (h : Progress capacity t k [] p ys) (hu : p.nodes[k]? = some u) :
    Progress capacity t (k + 1) u.args p ys where
  valid := h.valid
  limit := h.limit
  read_le := (Array.getElem?_eq_some_iff.1 hu).1
  accounts := by
    rw [← waiting_eq hu]
    exact h.accounts
  numbered := h.numbered

end Progress

variable {table table' : Functor.Table} {rows : Array Row}

theorem appRow_functors (capacity : Nat) (p : Placement) (table : Functor.Table) (name : String)
    {args : List Term} (hlen : args.length < 256) :
    (p.appRow capacity table name args).2 = (table.intern ⟨name, ⟨args.length, hlen⟩⟩).2 := by
  unfold appRow
  rw [dif_pos hlen]
  rcases table.intern ⟨name, ⟨args.length, hlen⟩⟩ with ⟨_ | f, later⟩
  · rfl
  · dsimp only
    cases p.placeAll capacity args with
    | error e => rfl
    | ok r => rfl

/-- The row of a structure fails for one of three reasons. -/
theorem appRow_error_cases {name : String} {args : List Term}
    (h : p.appRow capacity table name args = (.error e, table')) :
    (e = .arityTooLarge name args.length ∧ 255 < args.length) ∨
    (∃ hlen : args.length < 256, e = .outOfFunctors table.capacity ∧
      (table.intern ⟨name, ⟨args.length, hlen⟩⟩).1 = none) ∨
    p.placeAll capacity args = .error e := by
  unfold appRow at h
  by_cases hlen : args.length < 256
  · rw [dif_pos hlen] at h
    have hcap := table.intern_capacity ⟨name, ⟨args.length, hlen⟩⟩
    rcases hf : table.intern ⟨name, ⟨args.length, hlen⟩⟩ with ⟨_ | f, later⟩
    · simp only [hf, Prod.mk.injEq, Except.error.injEq] at h
      rw [hf] at hcap
      exact .inr (.inl ⟨hlen, by rw [← h.1, hcap], by rw [hf]⟩)
    · rcases hall : p.placeAll capacity args with e' | ⟨xs, q⟩
      · simp only [hf, hall, Prod.mk.injEq, Except.error.injEq] at h
        exact .inr (.inr (by rw [h.1]))
      · simp [hf, hall] at h
  · rw [dif_neg hlen] at h
    simp only [Prod.mk.injEq, Except.error.injEq] at h
    exact .inl ⟨h.1.symm, by omega⟩

end Placement

def Term.newFunctors (t : Term) (table : Functor.Table) : Finset (String × Nat) :=
  t.functors.toFinset \ table.shapes

/-- An allocation is refused because of a limit that the whole term exceeds. -/
inductive CompileError.Refuses (t : Term) (table : Functor.Table) (capacity : Nat) :
    CompileError → Prop
  | registers : min capacity registerLimit < t.registers →
      Refuses t table capacity (.outOfRegisters capacity)
  | arity {name : String} {n : Nat} : (name, n) ∈ t.functors → 255 < n →
      Refuses t table capacity (.arityTooLarge name n)
  | functors : table.capacity - table.size < (t.newFunctors table).card →
      Refuses t table capacity (.outOfFunctors table.capacity)

structure Placement.Allocates (capacity : Nat) (t : Term) (table : Functor.Table) (p : Placement)
    (rows : Array Row) (later : Functor.Table) : Prop where
  filled : p.Filled capacity t later rows
  progress : p.Progress capacity t rows.size [] (RegisterMap.root :: RegisterMap.arguments rows)
  grown : table.Grown t.functors.toFinset later

namespace Placement.Allocates

variable {capacity : Nat} {p q : Placement} {t u : Term} {table later last : Functor.Table}
  {rows : Array Row} {r : Row} {e : CompileError}

theorem functor_mem (h : p.Allocates capacity t table rows later)
    (hu : p.nodes[rows.size]? = some u) (happ : u.IsApp) : (u.name, u.args.length) ∈ t.functors := by
  have hmem := Array.mem_toList_iff.2 (Array.mem_of_getElem? hu)
  refine h.progress.accounts.head_subset hmem ?_
  rw [Term.head_of_isApp happ]
  exact List.mem_singleton_self _

theorem next (h : p.Allocates capacity t table rows later) (hu : p.nodes[rows.size]? = some u)
    (hrow : p.row capacity later u = (.ok (r, q), last)) :
    q.Allocates capacity t table (rows.push r) last where
  filled := h.filled.next hu hrow
  progress := by
    obtain ⟨hok, -⟩ := (h.progress.next hu).placeAll
    rw [arguments_push, ← List.cons_append, Array.size_push]
    refine hok ?_
    rcases u.eq_var_or_isApp with ⟨name, rfl⟩ | happ
    · simp only [row, Prod.mk.injEq, Except.ok.injEq] at hrow
      obtain ⟨⟨rfl, rfl⟩, -⟩ := hrow
      rfl
    · rw [row_of_isApp happ] at hrow
      obtain ⟨-, f, xs, -, hall, rfl⟩ := appRow_ok_cases hrow
      exact hall
  grown := by
    rcases u.eq_var_or_isApp with ⟨name, rfl⟩ | happ
    · simp only [row, Prod.mk.injEq] at hrow
      exact hrow.2 ▸ h.grown
    · rw [row_of_isApp happ] at hrow
      obtain ⟨hlen, -⟩ := appRow_ok_cases hrow
      have hlast := appRow_functors capacity p later u.name hlen
      rw [hrow] at hlast
      obtain rfl : last = _ := hlast
      exact h.grown.intern (List.mem_toFinset.2 (h.functor_mem hu happ))

theorem refuses (h : p.Allocates capacity t table rows later) (hu : p.nodes[rows.size]? = some u)
    (hrow : p.row capacity later u = (.error e, last)) : e.Refuses t table capacity := by
  rcases u.eq_var_or_isApp with ⟨name, rfl⟩ | happ
  · simp [row] at hrow
  · have hmem := h.functor_mem hu happ
    rw [row_of_isApp happ] at hrow
    rcases appRow_error_cases hrow with ⟨rfl, hlen⟩ | ⟨hlen, rfl, hnone⟩ | hall
    · exact .arity hmem hlen
    · rw [h.grown.capacity_eq]
      have hshape : Functor.shape ⟨u.name, ⟨u.args.length, hlen⟩⟩ ∈ t.functors.toFinset :=
        List.mem_toFinset.2 hmem
      exact .functors (h.grown.lt_card hshape hnone)
    · obtain ⟨rfl, hlt⟩ := (h.progress.next hu).placeAll.2 hall
      exact .registers hlt

end Placement.Allocates

namespace RegisterMap

variable {capacity : Nat} {t : Term} {table later : Functor.Table} {map : RegisterMap}
  {nodes : Array Term}

/-- Read from the first row to the last, the registers first appear in the order of their numbers.
-/
def Numbered (map : RegisterMap) : Prop :=
  (root :: arguments map.rows).eraseDups = List.range map.rows.size

/-- What an allocation does: it fails at a limit that the term exceeds, or it fills the rows. -/
theorem allocate_cases (t : Term) (table : Functor.Table) (capacity : Nat) :
    (∀ {e}, (allocate t table capacity).1 = .error e → e.Refuses t table capacity) ∧
      ∀ {map later}, allocate t table capacity = (.ok map, later) → ∃ nodes,
        map.Represents later t nodes ∧ Accounts t nodes.toList [] ∧ map.Numbered ∧
          map.rows.size ≤ min capacity registerLimit ∧ table.Grown t.functors.toFinset later := by
  have hrun := allocate_run t table capacity
    (I := fun p rows later => p.Allocates capacity t table rows later)
    (E := fun e => e.Refuses t table capacity) (fun h => h.filled.valid)
    (fun h hu hrow => h.next hu hrow) (fun h hu hrow => h.refuses hu hrow) ?_ ?_
  · refine ⟨hrun.1, fun {map later} heq => ?_⟩
    obtain ⟨p, h, hend⟩ := hrun.2 heq
    have hsize := Nat.le_antisymm h.filled.size_le hend
    have hwait : p.waiting map.rows.size = [] := by
      rw [Placement.waiting, List.drop_of_length_le (by simpa using hend), List.flatMap_nil]
    refine ⟨p.nodes, h.filled.represents hend, ?_, ?_, ?_, h.grown⟩
    · have haccounts := h.progress.accounts
      rw [hwait] at haccounts
      exact haccounts
    · rw [Numbered, hsize]
      exact h.progress.numbered
    · rw [hsize]
      exact h.progress.limit
  · intro x p hplace
    obtain ⟨-, hfilled⟩ := Placement.place_first table hplace
    have hprogress := (Placement.Progress.start capacity t).place hplace
    rcases Placement.place_cases hplace with ⟨name, -, hname, -⟩ | ⟨-, rfl, -, -⟩
    · simp [Placement.empty] at hname
    · exact ⟨hfilled, hprogress, .refl table _⟩
  · intro e hplace
    obtain ⟨rfl, hlt⟩ := (Placement.Progress.start capacity t).place_error hplace
    exact .registers hlt

end RegisterMap
end TermMachine
