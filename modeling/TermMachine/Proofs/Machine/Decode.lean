import TermMachine.Machine.Decode
import TermMachine.Proofs.Heap.Model
import TermMachine.Proofs.Index
import TermMachine.Proofs.Machine.Soundness

/-! # What is read back

On a well-built heap every term can be read. What is read follows the cells: an unbound reference
gives a variable with the name that is printed for it, a structure gives its name with what is read
for its arguments, and a structure inside itself is cut. Names that are printed tell unbound
references apart.
-/
namespace TermMachine

open Heap

namespace Machine

def printedName (names : Names) (a : Address) : String := names.getD a (generatedName a)

/-- Inside the structures at `ancestors`, a term is what is read at an address. -/
inductive Reads (names : Names) (table : Functor.Table) (h : Heap) :
    List Address → Address → Term → Prop
  | var {ancestors a b} : h.Resolves a b → h.cells[b]? = some (.ref b) →
      Reads names table h ancestors a (.var (printedName names b))
  | cut {ancestors a b t} : h.Resolves a b → h.cells[b]? = some (.str t) → t ∈ ancestors →
      Reads names table h ancestors a (.var (cutName t))
  | app {ancestors a b t f n name} (ts : Address → Term) : h.Resolves a b →
      h.cells[b]? = some (.str t) → t ∉ ancestors → h.cells[t]? = some (.functor f n) →
      table.lookup f = some ⟨name, n⟩ →
      (∀ c ∈ argumentAddresses t n.val, Reads names table h (t :: ancestors) c (ts c)) →
      Reads names table h ancestors a (Term.ofArgs name ((argumentAddresses t n.val).map ts))

theorem readAll_eq_ok {read : Address → Except Fault Term} {ts : Address → Term} {n : Nat}
    {a : Address} (h : ∀ c ∈ List.range' a n, read c = .ok (ts c)) :
    readAll read n a = .ok ((List.range' a n).map ts) := by
  induction n generalizing a with
  | zero => rfl
  | succ n ih =>
    rw [List.range'_succ] at h ⊢
    have ha : read a = .ok (ts a) := h a List.mem_cons_self
    have hrest := ih fun c hc => h c (List.mem_cons_of_mem a hc)
    simp only [readAll, ha, Address.offset, hrest, List.map_cons]

theorem exists_readAll {read : Address → Except Fault Term} {R : Address → Term → Prop}
    {t : Address} {n : Nat} (h : ∀ c ∈ argumentAddresses t n, ∃ T, read c = .ok T ∧ R c T) :
    ∃ ts : Address → Term, readAll read n (t.offset 1) = .ok ((argumentAddresses t n).map ts) ∧
      ∀ c ∈ argumentAddresses t n, R c (ts c) := by
  choose! ts hts using h
  refine ⟨ts, ?_, fun c hc => (hts c hc).2⟩
  rw [argumentAddresses_eq_range'] at hts ⊢
  exact readAll_eq_ok fun c hc => (hts c hc).1

section Read

variable {m : Machine} {k : Address} (hw : m.state.heap.WellBuilt m.functors k 0)
include hw

/-- The ancestors of a term are distinct functor cells, so the fuel is never used up. -/
theorem readWithin_reads (names : Names) {fuel : Nat} {ancestors : List Address} {a : Address}
    (hnodup : ancestors.Nodup) (hlt : ∀ t ∈ ancestors, t < m.state.heap.cells.size)
    (hfuel : m.state.heap.cells.size < ancestors.length + fuel)
    (ha : HasTerm k m.state.heap a) :
    ∃ T, m.readWithin names fuel ancestors a = .ok T ∧
      Reads names m.functors m.state.heap ancestors a T := by
  induction fuel generalizing ancestors a with
  | zero =>
    have hle := length_le_of_nodup hnodup hlt
    omega
  | succ fuel ih =>
    obtain ⟨b, hd, hr, hkb, c, hc, hterm⟩ := hw.deref_term ha
    obtain ⟨c', hc', hself⟩ := hr.cell
    obtain rfl : c = c' := Option.some.inj (hc.symm.trans hc')
    cases c with
    | functor f n => exact hterm.elim
    | ref t =>
      obtain rfl := hself t rfl
      exact ⟨_, by simp only [readWithin, hd, get_of_some hc, printedName], .var hr hc⟩
    | str t =>
      obtain ⟨hkt, f, n, name, hf, hl⟩ := hw.structure_cell hkb hc
      by_cases hmem : t ∈ ancestors
      · exact ⟨_, by simp only [readWithin, hd, get_of_some hc, if_pos hmem], .cut hr hc hmem⟩
      · have hargs : ∀ d ∈ argumentAddresses t n.val, ∃ T,
            m.readWithin names fuel (t :: ancestors) d = .ok T ∧
              Reads names m.functors m.state.heap (t :: ancestors) d T := by
          intro d hd
          exact ih (List.nodup_cons.2 ⟨hmem, hnodup⟩)
            (List.forall_mem_cons.2 ⟨lt_size_of_getElem? hf, hlt⟩)
            (by simp only [List.length_cons]; omega) (hw.hasTerm_of_mem hkt hf hd)
        obtain ⟨ts, hall, hts⟩ := exists_readAll hargs
        refine ⟨_, ?_, .app ts hr hc hmem hf hl hts⟩
        simp only [readWithin, hd, get_of_some hc, if_neg hmem, functorAt, get_of_some hf, hl, hall]
        by_cases hn : n = 0
        · subst hn
          rfl
        · have hne : n.val ≠ 0 := fun h => hn (Fin.ext h)
          obtain ⟨j, hj⟩ := Nat.exists_eq_succ_of_ne_zero hne
          rw [if_neg hn, argumentAddresses_eq_range', hj]
          rfl

/-- Every term can be read. -/
theorem exists_reads (names : Names) : ∃ read : Address → Term, ∀ a, HasTerm k m.state.heap a →
    m.readNamed names a = .ok (read a) ∧
      Reads names m.functors m.state.heap [] a (read a) := by
  have hall : ∀ a, ∃ T, HasTerm k m.state.heap a → m.readNamed names a = .ok T ∧
      Reads names m.functors m.state.heap [] a T := by
    intro a
    by_cases ha : HasTerm k m.state.heap a
    · have hfuel : m.state.heap.cells.size <
          ([] : List Address).length + (m.state.heap.cells.size + 1) := by simp
      obtain ⟨T, hT⟩ := readWithin_reads hw names List.nodup_nil (by simp) hfuel ha
      exact ⟨T, fun _ => hT⟩
    · exact ⟨default, fun h => absurd h ha⟩
  choose read hread using hall
  exact ⟨read, hread⟩

end Read

theorem readBindings_eq_ok {m : Machine} {names : Names} {read : Address → Term}
    {vars : List (String × Address)} (h : ∀ v ∈ vars, m.readNamed names v.2 = .ok (read v.2)) :
    m.readBindings names vars = .ok (vars.map fun v => (v.1, read v.2)) := by
  induction vars with
  | nil => rfl
  | cons v vars ih =>
    obtain ⟨name, a⟩ := v
    have ha : m.readNamed names a = .ok (read a) := h (name, a) List.mem_cons_self
    simp only [readBindings, ha, ih fun w hw => h w (List.mem_cons_of_mem _ hw), List.map_cons]

theorem Reads.canon_eq {names : Names} {table : Functor.Table} {h : Heap}
    {ancestors : List Address} {a : Address} {T : Term}
    (hT : Reads names table h ancestors a T) : T.canon = T := by
  induction hT with
  | var => rfl
  | cut => rfl
  | app ts _ _ _ _ _ _ ih =>
    rw [Term.canon_ofArgs, List.map_map]
    exact congrArg (Term.ofArgs _) (List.map_congr_left ih)

/-- The cells decide what is read. -/
theorem Reads.unique {names : Names} {table : Functor.Table} {h : Heap}
    {ancestors : List Address} {a : Address} {T T' : Term}
    (hT : Reads names table h ancestors a T) (hT' : Reads names table h ancestors a T') :
    T = T' := by
  induction hT generalizing T' with
  | var hr hc =>
    cases hT' with
    | var hr' => rw [hr.unique hr']
    | cut hr' hc' => cases hr.cell_unique hr' hc hc'
    | app _ hr' hc' => cases hr.cell_unique hr' hc hc'
  | cut hr hc hmem =>
    cases hT' with
    | var hr' hc' => cases hr.cell_unique hr' hc hc'
    | cut hr' hc' =>
      cases hr.cell_unique hr' hc hc'
      rfl
    | app _ hr' hc' hnot' =>
      cases hr.cell_unique hr' hc hc'
      exact absurd hmem hnot'
  | app ts hr hc hnot hf hl _ ih =>
    cases hT' with
    | var hr' hc' => cases hr.cell_unique hr' hc hc'
    | cut hr' hc' hmem' =>
      cases hr.cell_unique hr' hc hc'
      exact absurd hmem' hnot
    | app ts' hr' hc' _ hf' hl' hts' =>
      cases hr.cell_unique hr' hc hc'
      cases Option.some.inj (hf.symm.trans hf')
      cases Option.some.inj (hl.symm.trans hl')
      exact congrArg (Term.ofArgs _)
        (List.map_congr_left fun c hmem => ih c hmem (hts' c hmem))

section Names

variable {h : Heap} {table : Functor.Table} {k : Address} {vars : List (String × Address)}
  {names N : Names}

theorem namesFrom_ok (hw : h.WellBuilt table k 0) (hvars : ∀ v ∈ vars, HasTerm k h v.2)
    (names : Names) : ∃ N, namesFrom h vars names = .ok N := by
  induction vars generalizing names with
  | nil => exact ⟨names, rfl⟩
  | cons v vars ih =>
    obtain ⟨b, hd, -⟩ := hw.deref_term (hvars v List.mem_cons_self)
    simp only [namesFrom, hd]
    exact ih (fun w hw => hvars w (List.mem_cons_of_mem v hw)) _

/-- A name comes from a variable that leads to the address. -/
theorem namesFrom_mem (hN : namesFrom h vars names = .ok N) {b : Address} {name : String}
    (hb : N[b]? = some name) :
    names[b]? = some name ∨ ∃ x, (name, x) ∈ vars ∧ h.Resolves x b := by
  induction vars generalizing names with
  | nil =>
    cases hN
    exact .inl hb
  | cons v vars ih =>
    obtain ⟨a, x⟩ := v
    rw [namesFrom] at hN
    cases hd : h.deref x with
    | error e => simp [hd] at hN
    | ok y =>
      simp only [hd] at hN
      rcases ih hN with hold | ⟨z, hz, hr⟩
      · rw [Std.TreeMap.getElem?_insertIfNew] at hold
        split at hold
        next hy =>
          obtain rfl := Std.LawfulEqCmp.eq_of_compare hy.1
          cases hold
          exact .inr ⟨x, List.mem_cons_self, resolves_of_deref hd⟩
        next => exact .inl hold
      · exact .inr ⟨z, List.mem_cons_of_mem _ hz, hr⟩

/-- An unbound cell that a variable leads to has a name. -/
theorem namesFrom_ne_none (hN : namesFrom h vars names = .ok N) {b : Address}
    (hb : names[b]? ≠ none ∨ ∃ v ∈ vars, h.Resolves v.2 b) : N[b]? ≠ none := by
  induction vars generalizing names with
  | nil =>
    cases hN
    simpa using hb
  | cons v vars ih =>
    obtain ⟨a, x⟩ := v
    rw [namesFrom] at hN
    cases hd : h.deref x with
    | error e => simp [hd] at hN
    | ok y =>
      simp only [hd] at hN
      apply ih hN
      rcases hb with hold | ⟨w, hw, hr⟩
      · left
        rw [Std.TreeMap.getElem?_insertIfNew]
        split <;> simp_all
      · rcases List.mem_cons.1 hw with rfl | hw
        · left
          obtain rfl := (resolves_of_deref hd).unique hr
          rw [Std.TreeMap.getElem?_insertIfNew]
          split
          next => simp
          next hnot =>
            intro hnone
            apply hnot
            refine ⟨Std.ReflCmp.compare_self, ?_⟩
            rw [Std.TreeMap.mem_iff_isSome_getElem?, hnone]
            simp
        · exact .inr ⟨w, hw, hr⟩

theorem generatedName_injective : Function.Injective generatedName := by
  intro a b hab
  have hlist := congrArg String.toList hab
  simp only [generatedName, String.toList_append] at hlist
  exact hexText_injective (String.toList_injective (List.append_cancel_left hlist))

/-- Printed names tell unbound references apart when no variable has a name like a generated one. -/
theorem printedName_injective (hN : namesFrom h vars ∅ = .ok N)
    (huniq : ∀ {a : String} {x y : Address}, (a, x) ∈ vars → (a, y) ∈ vars → x = y)
    (hplain : ∀ v ∈ vars, ¬['_', 'G'] <+: v.1.toList) : Function.Injective (printedName N) := by
  have hnamed : ∀ {a : Address} {name : String}, N[a]? = some name →
      ∃ x, (name, x) ∈ vars ∧ h.Resolves x a := by
    intro a name ha
    rcases namesFrom_mem hN ha with hempty | hvar
    · simp at hempty
    · exact hvar
  have hapart : ∀ {a b : Address} {name : String}, N[a]? = some name → name ≠ generatedName b := by
    rintro a b name ha rfl
    obtain ⟨x, hx, -⟩ := hnamed ha
    refine hplain _ hx ?_
    simp [generatedName]
  intro a b hab
  rw [printedName, printedName, Std.TreeMap.getD_eq_getD_getElem?,
    Std.TreeMap.getD_eq_getD_getElem?] at hab
  cases ha : N[a]? with
  | none =>
    cases hb : N[b]? with
    | none =>
      rw [ha, hb] at hab
      exact generatedName_injective hab
    | some name =>
      rw [ha, hb] at hab
      exact absurd hab.symm (hapart hb)
  | some name =>
    cases hb : N[b]? with
    | none =>
      rw [ha, hb] at hab
      exact absurd hab (hapart ha)
    | some name' =>
      rw [ha, hb] at hab
      obtain rfl : name = name' := hab
      obtain ⟨x, hx, hxa⟩ := hnamed ha
      obtain ⟨y, hy, hyb⟩ := hnamed hb
      obtain rfl := huniq hx hy
      exact hxa.unique hyb

end Names

end Machine
end TermMachine
