import Mathlib.Data.List.Perm.Subperm
import TermMachine.Proofs.Register.Allocation

/-! # Allocation on another table

What ids the functors of a term are given depends on what is in the table already, and nothing else
about its register map does. A table that holds some of the functors of another, with room for the
rest, gives the same map up to the ids.
-/
namespace TermMachine

namespace Functor.Table

variable {table later whole : Table} {f : Functor}

structure Covered (table whole : Table) : Prop where
  within : ∀ {i : FunctorId} {f : Functor}, table.lookup i = some f → ∃ j, whole.lookup j = some f
  room : whole.size ≤ table.capacity

theorem covered_empty {capacity : Nat} (h : whole.Bounded (min capacity tableLimit)) :
    (empty capacity).Covered whole := by
  constructor
  · intro i f hf
    simp [lookup, empty] at hf
  · exact h.size_le

/-- A covered table that lacks one of the functors is not full. -/
theorem Covered.size_lt (h : table.Covered whole) {j : FunctorId} (hf : whole.lookup j = some f)
    (hnew : ∀ i, table.lookup i ≠ some f) : table.size < whole.size := by
  have hnodup : (f :: table.entries.toList).Nodup :=
    List.nodup_cons.2 ⟨fun hmem => (mem_entries.1 hmem).elim hnew, entries_nodup table⟩
  have hsub : f :: table.entries.toList ⊆ whole.entries.toList := by
    intro g hg
    rcases List.mem_cons.1 hg with rfl | hg
    · exact mem_entries.2 ⟨j, hf⟩
    · obtain ⟨i, hi⟩ := mem_entries.1 hg
      exact mem_entries.2 (h.within hi)
  exact (hnodup.subperm hsub).length_le

/-- The functors of the other table can be interned. -/
theorem Covered.intern (h : table.Covered whole) {j : FunctorId} (hf : whole.lookup j = some f) :
    (∃ i, (table.intern f).1 = some i) ∧ (table.intern f).2.Covered whole := by
  constructor
  · by_cases hold : ∃ i, table.lookup i = some f
    · obtain ⟨i, hi⟩ := hold
      exact ⟨i, by rw [intern_of_lookup hi]⟩
    · have hnew := not_exists.1 hold
      have hroom := Nat.lt_of_lt_of_le (h.size_lt hf hnew) h.room
      exact ⟨table.size, by rw [(intern_of_new hnew).1, if_pos hroom]⟩
  · constructor
    · intro i g hg
      rcases lookup_of_lookup_intern hg with hold | rfl
      · exact h.within hold
      · exact ⟨j, hf⟩
    · rw [intern_capacity]
      exact h.room

def Carries (ρ : FunctorId → FunctorId) (table whole : Table) : Prop :=
  ∀ ⦃i : FunctorId⦄ ⦃f : Functor⦄, table.lookup i = some f → whole.lookup (ρ i) = some f

theorem Carries.of_extends {ρ : FunctorId → FunctorId} (h : Carries ρ later whole)
    (hext : table.Extends later) : Carries ρ table whole := fun _ _ hf => h (hext hf)

/-- The id in the other table. An id that is not in use is moved behind all that are. -/
def renumber (table whole : Table) (i : FunctorId) : FunctorId :=
  match table.lookup i with
  | some f => (whole.index[f]?).getD 0
  | none => i + whole.size

theorem carries_renumber (h : table.Covered whole) :
    Carries (renumber table whole) table whole := by
  intro i f hf
  obtain ⟨j, hj⟩ := h.within hf
  rw [renumber, hf]
  dsimp only
  rw [(whole.index_iff f j).2 hj]
  exact hj

theorem renumber_injective (h : table.Covered whole) :
    Function.Injective (renumber table whole) := by
  have hlt : ∀ {i f}, table.lookup i = some f → renumber table whole i < whole.size :=
    fun hf => (Array.getElem?_eq_some_iff.1 (carries_renumber h hf)).1
  have hge : ∀ {i}, table.lookup i = none → renumber table whole i = i + whole.size := by
    intro i hi
    rw [renumber, hi]
  intro i j hij
  cases hi : table.lookup i with
  | some f =>
    have hfi := carries_renumber h hi
    cases hj : table.lookup j with
    | some g =>
      have hgj := carries_renumber h hj
      rw [← hij, hfi, Option.some.injEq] at hgj
      exact lookup_inj hi (hgj ▸ hj)
    | none =>
      have hlti := hlt hi
      rw [hij, hge hj] at hlti
      lia
  | none =>
    cases hj : table.lookup j with
    | some g =>
      have hltj := hlt hj
      rw [← hij, hge hi] at hltj
      lia
    | none =>
      rw [hge hi, hge hj] at hij
      lia

/-- A compilation that has answered `a` with functors of `whole` gives the same answer on a covered
table, up to the ids, and the table is covered still. -/
def Repeats {ε α : Type} (rename : (FunctorId → FunctorId) → α → α) (table whole : Table) (a : α)
    (out : Except ε α × Table) : Prop :=
  ∃ a₀ later, out = (.ok a₀, later) ∧ table.Extends later ∧ later.Covered whole ∧
    ∀ ρ, Carries ρ later whole → a = rename ρ a₀

end Functor.Table

open Functor.Table

def Row.rename (ρ : FunctorId → FunctorId) : Row → Row
  | .var name => .var name
  | .app f n xs => .app (ρ f) n xs

def RegisterMap.rename (ρ : FunctorId → FunctorId) (map : RegisterMap) : RegisterMap :=
  ⟨map.rows.map (Row.rename ρ)⟩

variable {table table₀ later whole : Functor.Table} {capacity : Nat} {p q : Placement} {row : Row}

namespace Placement

theorem appRow_repeats {name : String} {args : List Term}
    (h : p.appRow capacity table name args = (.ok (row, q), later)) (hlater : later.Extends whole)
    (hcov : table₀.Covered whole) :
    Repeats (fun ρ r => (r.1.rename ρ, r.2)) table₀ whole (row, q)
      (p.appRow capacity table₀ name args) := by
  obtain ⟨hlen, f, xs, hf, hall, rfl⟩ := appRow_ok_cases h
  obtain ⟨⟨i, hi⟩, hcov'⟩ := hcov.intern (hlater hf)
  have hlook := lookup_intern table₀ _ hi
  have hext := table₀.extends_intern ⟨name, ⟨args.length, hlen⟩⟩
  rcases hin : table₀.intern ⟨name, ⟨args.length, hlen⟩⟩ with ⟨_ | i', table₁⟩
  · simp [hin] at hi
  · simp only [hin, Option.some.injEq] at hi hlook hext hcov'
    subst hi
    refine ⟨(.app i' ⟨args.length, hlen⟩ xs, q), table₁, ?_, hext, hcov', fun ρ hρ => ?_⟩
    · simp [appRow, hlen, hin, hall]
    · have hid : f = ρ i' := lookup_inj (hlater hf) (hρ hlook)
      simp only [Row.rename, hid]

theorem row_repeats {u : Term} (h : p.row capacity table u = (.ok (row, q), later))
    (hlater : later.Extends whole) (hcov : table₀.Covered whole) :
    Repeats (fun ρ r => (r.1.rename ρ, r.2)) table₀ whole (row, q) (p.row capacity table₀ u) := by
  rcases u.eq_var_or_isApp with ⟨name, rfl⟩ | happ
  · simp only [Placement.row, Prod.mk.injEq, Except.ok.injEq] at h
    obtain ⟨⟨rfl, rfl⟩, -⟩ := h
    exact ⟨(.var name, p), table₀, rfl, .refl _, hcov, fun ρ _ => rfl⟩
  · rw [row_of_isApp happ] at h ⊢
    exact appRow_repeats h hlater hcov

theorem close_repeats {rows rows₀ : Array Row} {map : RegisterMap} (h : p.close rows = .ok map)
    (hcov : table₀.Covered whole)
    (hrows : ∀ ρ, Carries ρ table₀ whole → rows = rows₀.map (Row.rename ρ)) :
    Repeats RegisterMap.rename table₀ whole map (p.close rows₀, table₀) := by
  obtain ⟨hend, rfl⟩ := close_eq_ok h
  rw [hrows _ (carries_renumber hcov), Array.size_map] at hend
  exact ⟨⟨rows₀⟩, table₀, by rw [close_of_le hend], .refl _, hcov,
    fun ρ hρ => by rw [RegisterMap.rename, hrows ρ hρ]⟩

theorem fill_repeats {fuel : Nat} {rows rows₀ : Array Row} {map : RegisterMap}
    (h : p.fill capacity fuel rows table = (.ok map, later)) (hlater : later.Extends whole)
    (hcov : table₀.Covered whole)
    (hrows : ∀ ρ, Carries ρ table₀ whole → rows = rows₀.map (Row.rename ρ)) :
    Repeats RegisterMap.rename table₀ whole map (p.fill capacity fuel rows₀ table₀) := by
  -- the rows are as many, so both runs look at the same subterm
  have hsize : rows.size = rows₀.size := by
    have hmap := hrows _ (carries_renumber hcov)
    rw [hmap, Array.size_map]
  induction fuel generalizing p rows rows₀ table table₀ with
  | zero => exact close_repeats (congrArg Prod.fst h) hcov hrows
  | succ fuel ih =>
    cases hu : p.nodes[rows.size]? with
    | none =>
      have hu₀ := hu
      rw [hsize] at hu₀
      simp only [fill, hu] at h
      simp only [fill, hu₀]
      exact close_repeats (congrArg Prod.fst h) hcov hrows
    | some u =>
      have hu₀ := hu
      rw [hsize] at hu₀
      rw [fill_succ hu] at h
      rw [fill_succ hu₀]
      rcases hrow : p.row capacity table u with ⟨_ | ⟨row, q⟩, table₁⟩
      · rw [hrow] at h
        cases h
      · simp only [hrow] at h
        have hext₁ := fill_extends capacity fuel q (rows.push row) table₁
        rw [h] at hext₁
        obtain ⟨⟨row₀, q₀⟩, table₂, hrow₀, hext₂, hcov₂, hcarry⟩ :=
          row_repeats hrow (hext₁.trans hlater) hcov
        have hsame : ∀ ρ, Carries ρ table₂ whole → row = row₀.rename ρ ∧ q = q₀ :=
          fun ρ hρ => Prod.mk.inj (hcarry ρ hρ)
        obtain rfl := (hsame _ (carries_renumber hcov₂)).2
        simp only [hrow₀]
        obtain ⟨map₀, table₃, hfill, hext₃, hcov₃, hmap⟩ := ih h hcov₂ (fun ρ hρ => by
          rw [Array.map_push, hrows ρ (hρ.of_extends hext₂), (hsame ρ hρ).1])
          (by rw [Array.size_push, Array.size_push, hsize])
        exact ⟨map₀, table₃, hfill, hext₂.trans hext₃, hcov₃, hmap⟩

end Placement

theorem RegisterMap.allocate_repeats {t : Term} {map : RegisterMap}
    (h : allocate t table capacity = (.ok map, later)) (hlater : later.Extends whole)
    (hcov : table₀.Covered whole) :
    Repeats RegisterMap.rename table₀ whole map (allocate t table₀ capacity) := by
  unfold allocate at h ⊢
  cases hplace : Placement.empty.place capacity t with
  | error e => simp [hplace] at h
  | ok r =>
    simp only [hplace] at h ⊢
    exact Placement.fill_repeats h hlater hcov fun ρ _ => by rw [Array.map_empty]

end TermMachine
