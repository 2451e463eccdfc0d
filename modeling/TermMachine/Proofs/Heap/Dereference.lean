import Mathlib.Logic.Function.Iterate
import TermMachine.Proofs.Heap.AppendOnly
import TermMachine.Proofs.Heap.Termination

/-! # Where references lead

The chain from an address is followed one bound reference at a time. On a heap that operations have
left, whatever they were, a chain does not leave the heap: it reaches a cell that is no bound
reference, or it is bound in a circle and goes on for ever. `deref` finds the first such cell, and
gives up exactly when there is none.
-/
namespace TermMachine.Heap

def IsBound (h : Heap) (a : Address) : Prop := ∃ t, h.cells[a]? = some (.ref t) ∧ t ≠ a

def IsEnd (h : Heap) (a : Address) : Prop :=
  h.cells[a]? = some (.ref a) ∨ (∃ t, h.cells[a]? = some (.str t)) ∨
    ∃ f n, h.cells[a]? = some (.functor f n)

def next (h : Heap) (a : Address) : Address :=
  match h.cells[a]? with
  | some (.ref t) => t
  | _ => a

/-- Following references from `a` comes to `r`, and to no cell before that ends the chain. -/
def FirstEnd (h : Heap) (a r : Address) : Prop :=
  ∃ n, h.next^[n] a = r ∧ h.IsEnd r ∧ ∀ m < n, h.IsBound (h.next^[m] a)

variable {h : Heap} {a r t : Address} {capacity : Nat}

theorem next_of_ref (hc : h.cells[a]? = some (.ref t)) : h.next a = t := by rw [next, hc]

theorem IsBound.next (hb : h.IsBound a) : h.cells[a]? = some (.ref (h.next a)) ∧ h.next a ≠ a := by
  obtain ⟨t, hc, hne⟩ := hb
  rw [next_of_ref hc]
  exact ⟨hc, hne⟩

theorem isEnd_of_cell {c : Cell} (hc : h.cells[a]? = some c) (hs : ∀ t, c = .ref t → t = a) :
    h.IsEnd a := by
  cases c with
  | ref t => exact .inl (hs t rfl ▸ hc)
  | str t => exact .inr (.inl ⟨t, hc⟩)
  | functor f n => exact .inr (.inr ⟨f, n, hc⟩)

theorem IsEnd.resolves (he : h.IsEnd a) : h.Resolves a a := by
  rcases he with hc | ⟨t, hc⟩ | ⟨f, n, hc⟩
  · exact .stop hc fun t ht => (Cell.ref.inj ht).symm
  · exact .stop hc (by simp)
  · exact .stop hc (by simp)

theorem isEnd_of_not_isBound (ha : a < h.cells.size) (hb : ¬h.IsBound a) : h.IsEnd a := by
  have hc := Array.getElem?_eq_getElem ha
  refine isEnd_of_cell hc fun t ht => ?_
  by_contra hne
  exact hb ⟨t, ht ▸ hc, hne⟩

/-- Chains that end are followed to their first end. -/
theorem resolves_iff_firstEnd : h.Resolves a r ↔ h.FirstEnd a r := by
  constructor
  · intro hr
    induction hr with
    | stop hc hs => exact ⟨0, rfl, isEnd_of_cell hc hs, by simp⟩
    | @follow a t r hc hne _ ih =>
      obtain ⟨n, hn, hend, hbound⟩ := ih
      refine ⟨n + 1, ?_, hend, fun m hm => ?_⟩
      · rw [Function.iterate_succ_apply, next_of_ref hc, hn]
      · cases m with
        | zero => exact ⟨t, hc, hne⟩
        | succ m =>
          rw [Function.iterate_succ_apply, next_of_ref hc]
          exact hbound m (Nat.lt_of_succ_lt_succ hm)
  · rintro ⟨n, hn, hend, hbound⟩
    induction n generalizing a with
    | zero =>
      obtain rfl : a = r := hn
      exact hend.resolves
    | succ n ih =>
      have hfirst : h.IsBound a := hbound 0 (Nat.succ_pos n)
      obtain ⟨hc, hne⟩ := hfirst.next
      refine .follow hc hne (ih hn fun m hm => ?_)
      exact hbound (m + 1) (Nat.succ_lt_succ hm)

/-- On a chain without an end there is always one more reference to follow. -/
theorem derefWithin_of_endless (hb : ∀ n, h.IsBound (h.next^[n] a)) (fuel : Nat) :
    h.derefWithin fuel a = .ok none := by
  induction fuel generalizing a with
  | zero => rfl
  | succ fuel ih =>
    have hfirst : h.IsBound a := hb 0
    obtain ⟨hc, hne⟩ := hfirst.next
    rw [derefWithin, get_of_some hc]
    dsimp only
    rw [if_neg hne]
    exact ih fun n => hb (n + 1)

theorem isBound_iterate_next {S : Address → Prop}
    (hstep : ∀ a, S a → h.IsBound a ∧ S (h.next a)) (ha : S a) (n : Nat) :
    h.IsBound (h.next^[n] a) := by
  induction n generalizing a with
  | zero => exact (hstep a ha).1
  | succ n ih => exact ih (hstep a ha).2

/-- What a cell refers to is there, so a chain stays on the heap. -/
theorem LaidOut.next_lt (hl : h.LaidOut capacity) (ha : a < h.cells.size) :
    h.next a < h.cells.size := by
  have hc := Array.getElem?_eq_getElem ha
  cases hcell : h.cells[a] with
  | ref t =>
    rw [hcell] at hc
    obtain ⟨d, hd, -⟩ := hl.fits hc
    rw [next_of_ref hc]
    exact lt_size_of_getElem? hd
  | str t => simpa [next, hc, hcell] using ha
  | functor f n => simpa [next, hc, hcell] using ha

theorem LaidOut.iterate_next_lt (hl : h.LaidOut capacity) (ha : a < h.cells.size) (n : Nat) :
    h.next^[n] a < h.cells.size := by
  induction n generalizing a with
  | zero => exact ha
  | succ n ih => exact ih (hl.next_lt ha)

theorem LaidOut.exists_firstEnd (hl : h.LaidOut capacity) (ha : a < h.cells.size)
    (hb : ¬∀ n, h.IsBound (h.next^[n] a)) : ∃ r, h.FirstEnd a r := by
  classical
  have hex : ∃ n, ¬h.IsBound (h.next^[n] a) := not_forall.1 hb
  refine ⟨h.next^[Nat.find hex] a, Nat.find hex, rfl, ?_, fun m hm => ?_⟩
  · exact isEnd_of_not_isBound (hl.iterate_next_lt ha _) (Nat.find_spec hex)
  · exact not_not.1 (Nat.find_min hex hm)

/-- Whatever has been done to a heap, following references from one of its cells ends at the first
cell that is no bound reference, which is its own end. When there is no such cell the chain is
reported, by the address it was followed from; and no chain leaves the heap. -/
theorem deref_exact (capacity : Nat) (operations : List Operation) (a : Address)
    (ha : a < ((empty capacity).performAll operations).cells.size) :
    let h := (empty capacity).performAll operations
    (h.deref a = .error (.referenceCycle a) ↔ ∀ n, h.IsBound (h.next^[n] a)) ∧
      ((∃ n, ¬h.IsBound (h.next^[n] a)) →
        ∃ r, h.deref a = .ok r ∧ h.FirstEnd a r ∧ h.deref r = .ok r) ∧
      ∀ b top, h.deref a ≠ .error (.addressOutOfRange b top) := by
  intro h
  have hl : h.LaidOut capacity := performAll_laidOut capacity operations
  have hcycle : (∀ n, h.IsBound (h.next^[n] a)) → h.deref a = .error (.referenceCycle a) := by
    intro hb
    rw [deref, derefWithin_of_endless hb]
  have hends : (¬∀ n, h.IsBound (h.next^[n] a)) →
      ∃ r, h.deref a = .ok r ∧ h.FirstEnd a r ∧ h.deref r = .ok r := by
    intro hb
    obtain ⟨r, hr⟩ := hl.exists_firstEnd ha hb
    have hres := resolves_iff_firstEnd.2 hr
    exact ⟨r, deref_eq_ok_iff.2 hres, hr, deref_eq_ok_iff.2 hres.end_self⟩
  refine ⟨⟨fun herr => ?_, hcycle⟩, fun hex => hends (not_forall.2 hex), fun b top herr => ?_⟩
  · by_contra hb
    obtain ⟨r, hr, -⟩ := hends hb
    cases herr.symm.trans hr
  · by_cases hb : ∀ n, h.IsBound (h.next^[n] a)
    · cases (hcycle hb).symm.trans herr
    · obtain ⟨r, hr, -⟩ := hends hb
      cases hr.symm.trans herr

/-- Every cell of a heap is on the chain from its last one. -/
theorem deref_exact_whole_heap :
    let h := (empty 4).performAll [.newVariable, .newVariable, .newVariable, .newVariable,
      .bind 1 0, .bind 2 1, .bind 3 2]
    3 < h.cells.size ∧ h.cells = #[.ref 0, .ref 0, .ref 1, .ref 2] ∧
      (h.deref 3 = .error (.referenceCycle 3) ↔ ∀ n, h.IsBound (h.next^[n] 3)) ∧
      ((∃ n, ¬h.IsBound (h.next^[n] 3)) →
        ∃ r, h.deref 3 = .ok r ∧ h.FirstEnd 3 r ∧ h.deref r = .ok r) ∧
      ∀ b top, h.deref 3 ≠ .error (.addressOutOfRange b top) := by
  intro h
  have hlt : 3 < h.cells.size := by decide
  exact ⟨hlt, by decide, deref_exact 4 _ 3 hlt⟩

/-- Two references bound in a circle are reported by the one that was asked for. -/
example :
    let h := (empty 2).performAll [.newVariable, .newVariable, .bind 0 1, .bind 0 1]
    h.deref 0 = .error (.referenceCycle 0) ∧ h.deref 1 = .error (.referenceCycle 1) := by decide

end TermMachine.Heap
