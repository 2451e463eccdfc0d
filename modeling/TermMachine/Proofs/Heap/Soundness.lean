import TermMachine.Heap.Unify

/-! # Sound heaps

A heap is sound from an address on when its structure cells point at functor cells, its references
point at cells that are terms, and a reference to another cell points down or at a structure. The
last condition makes reference chains end: a chain climbs at most once, and then it is at its end.
-/
namespace TermMachine

def Cell.IsTerm : Cell → Prop
  | .functor _ _ => False
  | _ => True

namespace Heap

@[simp] theorem isTerm_ref (t : Address) : (Cell.ref t).IsTerm := trivial
@[simp] theorem isTerm_str (t : Address) : (Cell.str t).IsTerm := trivial
@[simp] theorem not_isTerm_functor (f : FunctorId) (n : Arity) : ¬(Cell.functor f n).IsTerm := id

def Fault.IsDisorder : Fault → Prop
  | .notAFunctor _ _ => True
  | .referenceCycle _ => True
  | _ => False

@[simp] theorem isDisorder_outOfMemory (c : Nat) : ¬(Fault.outOfMemory c).IsDisorder := id
@[simp] theorem isDisorder_addressOutOfRange (a top : Address) :
    ¬(Fault.addressOutOfRange a top).IsDisorder := id
@[simp] theorem isDisorder_unexpectedFunctor (a : Address) :
    ¬(Fault.unexpectedFunctor a).IsDisorder := id

theorem lt_size_of_getElem? {h : Heap} {a : Address} {c : Cell} (hc : h.cells[a]? = some c) :
    a < h.cells.size := (Array.getElem?_eq_some_iff.1 hc).1

theorem get_of_some {h : Heap} {a : Address} {c : Cell} (hc : h.cells[a]? = some c) :
    h.get a = .ok c := get_eq_ok_iff.2 hc

theorem get_eq_error {h : Heap} {a : Address} {e : Fault} (he : h.get a = .error e) :
    e = .addressOutOfRange a h.top ∧ h.cells[a]? = none := by
  unfold get at he
  cases hc : h.cells[a]? with
  | none =>
    rw [hc] at he
    cases he
    exact ⟨rfl, rfl⟩
  | some c => simp [hc] at he

structure SoundFrom (k : Address) (h : Heap) : Prop where
  str_functor : ∀ {a t : Address}, k ≤ a → h.cells[a]? = some (.str t) →
    k ≤ t ∧ ∃ f n, h.cells[t]? = some (.functor f n)
  ref_term : ∀ {a t : Address}, k ≤ a → h.cells[a]? = some (.ref t) →
    k ≤ t ∧ ∃ c, h.cells[t]? = some c ∧ c.IsTerm
  ref_order : ∀ {a t : Address}, k ≤ a → h.cells[a]? = some (.ref t) →
    t ≤ a ∨ ∃ s, h.cells[t]? = some (.str s)

/-- Following references from `a` ends at `b`. -/
inductive Resolves (h : Heap) : Address → Address → Prop
  | stop {a c} : h.cells[a]? = some c → (∀ t, c = .ref t → t = a) → Resolves h a a
  | follow {a t b} : h.cells[a]? = some (.ref t) → t ≠ a → Resolves h t b → Resolves h a b

theorem Resolves.unique {h : Heap} {a b c : Address} (hb : h.Resolves a b) (hc : h.Resolves a c) :
    b = c := by
  induction hb with
  | stop ha hs =>
    cases hc with
    | stop => rfl
    | follow hr hne =>
      rw [ha] at hr
      exact absurd (hs _ (Option.some.inj hr)) hne
  | follow ha hne _ ih =>
    cases hc with
    | stop hr hs =>
      rw [ha] at hr
      exact absurd (hs _ (Option.some.inj hr).symm) hne
    | follow hr _ hrest =>
      rw [ha] at hr
      cases hr
      exact ih hrest

theorem Resolves.cell {h : Heap} {a b : Address} (hr : h.Resolves a b) :
    ∃ c, h.cells[b]? = some c ∧ ∀ t, c = .ref t → t = b := by
  induction hr with
  | stop hc hs => exact ⟨_, hc, hs⟩
  | follow _ _ _ ih => exact ih

theorem Resolves.cell_unique {h : Heap} {a b b' : Address} {c c' : Cell} (hr : h.Resolves a b)
    (hr' : h.Resolves a b') (hc : h.cells[b]? = some c) (hc' : h.cells[b']? = some c') :
    c = c' := by
  rw [hr.unique hr', hc'] at hc
  exact (Option.some.inj hc).symm

theorem Resolves.end_self {h : Heap} {a b : Address} (hr : h.Resolves a b) : h.Resolves b b := by
  obtain ⟨c, hc, hs⟩ := hr.cell
  exact .stop hc hs

theorem resolves_of_derefWithin {h : Heap} {fuel : Nat} {a b : Address}
    (hd : h.derefWithin fuel a = .ok (some b)) : h.Resolves a b := by
  induction fuel generalizing a with
  | zero => simp [derefWithin] at hd
  | succ fuel ih =>
    unfold derefWithin at hd
    cases hg : h.get a with
    | error e => simp [hg] at hd
    | ok c =>
      have hc := get_eq_ok_iff.1 hg
      cases c with
      | ref t =>
        by_cases ht : t = a
        · simp only [hg, ht, if_true, Except.ok.injEq, Option.some.injEq] at hd
          subst hd
          exact .stop hc (by simp [ht])
        · simp only [hg, ht, if_false] at hd
          exact .follow hc ht (ih hd)
      | str t =>
        simp only [hg, Except.ok.injEq, Option.some.injEq] at hd
        subst hd
        exact .stop hc (by simp)
      | functor f n =>
        simp only [hg, Except.ok.injEq, Option.some.injEq] at hd
        subst hd
        exact .stop hc (by simp)

theorem resolves_of_deref {h : Heap} {a b : Address} (hd : h.deref a = .ok b) :
    h.Resolves a b := by
  unfold deref at hd
  cases hw : h.derefWithin (h.cells.size + 1) a with
  | error e => simp [hw] at hd
  | ok r =>
    cases r with
    | none => simp [hw] at hd
    | some c =>
      simp only [hw, Except.ok.injEq] at hd
      subst hd
      exact resolves_of_derefWithin hw

theorem derefWithin_str {h : Heap} {a s : Address} (hc : h.cells[a]? = some (.str s)) (fuel : Nat) :
    h.derefWithin (fuel + 1) a = .ok (some a) := by
  simp [derefWithin, get_of_some hc]

namespace SoundFrom

variable {k : Address} {h : Heap}

theorem derefWithin_ok (hs : h.SoundFrom k) {fuel : Nat} {a : Address} (hk : k ≤ a)
    (ha : a < h.cells.size) (hf : a + 2 ≤ fuel) :
    ∃ b, h.derefWithin fuel a = .ok (some b) := by
  induction fuel generalizing a with
  | zero => lia
  | succ fuel ih =>
    obtain ⟨c, hc⟩ : ∃ c, h.cells[a]? = some c := ⟨_, Array.getElem?_eq_getElem ha⟩
    cases c with
    | str s => exact ⟨a, derefWithin_str hc fuel⟩
    | functor f n => exact ⟨a, by simp [derefWithin, get_of_some hc]⟩
    | ref t =>
      by_cases ht : t = a
      · exact ⟨a, by simp [derefWithin, get_of_some hc, ht]⟩
      · have hstep : h.derefWithin (fuel + 1) a = h.derefWithin fuel t := by
          simp [derefWithin, get_of_some hc, ht]
        rw [hstep]
        rcases hs.ref_order hk hc with hle | ⟨s, hstr⟩
        · obtain ⟨hkt, d, hd, -⟩ := hs.ref_term hk hc
          exact ih hkt (lt_size_of_getElem? hd) (by lia)
        · obtain ⟨fuel, rfl⟩ : ∃ m, fuel = m + 1 := ⟨fuel - 1, by lia⟩
          exact ⟨t, derefWithin_str hstr fuel⟩

theorem deref_ok (hs : h.SoundFrom k) {a : Address} (hk : k ≤ a) (ha : a < h.cells.size) :
    ∃ b, h.deref a = .ok b ∧ h.Resolves a b := by
  obtain ⟨b, hb⟩ : ∃ b, h.derefWithin (h.cells.size + 1) a = .ok (some b) :=
    hs.derefWithin_ok hk ha (by lia)
  have hd : h.deref a = .ok b := by simp [deref, hb]
  exact ⟨b, hd, resolves_of_deref hd⟩

theorem deref_error (hs : h.SoundFrom k) {a : Address} (hk : k ≤ a) {e : Fault}
    (he : h.deref a = .error e) : e = .addressOutOfRange a h.top := by
  by_cases ha : a < h.cells.size
  · obtain ⟨b, hb, -⟩ := hs.deref_ok hk ha
    simp [hb] at he
  · have hg : h.get a = .error (.addressOutOfRange a h.top) := by
      simp [get, Array.getElem?_eq_none (Nat.le_of_not_lt ha)]
    simp only [deref, derefWithin, hg, Except.error.injEq] at he
    exact he.symm

theorem resolves_le (hs : h.SoundFrom k) {a b : Address} (hr : h.Resolves a b) (hk : k ≤ a) :
    k ≤ b := by
  induction hr with
  | stop => exact hk
  | follow hc _ _ ih => exact ih (hs.ref_term hk hc).1

theorem resolves_term (hs : h.SoundFrom k) {a b : Address} (hr : h.Resolves a b) (hk : k ≤ a)
    {c : Cell} (hc : h.cells[a]? = some c) (ht : c.IsTerm) :
    ∃ d, h.cells[b]? = some d ∧ d.IsTerm := by
  induction hr generalizing c with
  | stop => exact ⟨c, hc, ht⟩
  | follow ha _ _ ih =>
    obtain ⟨hk', d, hd, hdt⟩ := hs.ref_term hk ha
    exact ih hk' hd hdt

end SoundFrom
end Heap
end TermMachine
