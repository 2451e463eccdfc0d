import Mathlib.Data.Finset.Sym
import TermMachine.Proofs.Heap.Worklist

/-! # Following references and unifying end

A chain of references that ends passes no address twice, so it is no longer than the heap. Every
step of a unification uses up a pair, and new pairs appear only when two functor cells are taken
apart that have not been taken apart before. So the pairs that wait, with 255 more for each two
functor cells still to come, get fewer with each step.
-/
namespace TermMachine.Heap

inductive Chain (h : Heap) (b : Address) : Nat → Address → Prop
  | stop {c} : h.cells[b]? = some c → (∀ t, c = .ref t → t = b) → Chain h b 0 b
  | follow {n a t} : h.cells[a]? = some (.ref t) → t ≠ a → Chain h b n t → Chain h b (n + 1) a

theorem Resolves.exists_chain {h : Heap} {a b : Address} (hr : h.Resolves a b) :
    ∃ n, h.Chain b n a := by
  induction hr with
  | stop hc hs => exact ⟨0, .stop hc hs⟩
  | follow hc hne _ ih =>
    obtain ⟨n, hn⟩ := ih
    exact ⟨n + 1, .follow hc hne hn⟩

namespace Chain

variable {h : Heap} {a b : Address} {n m : Nat}

theorem length_unique (hn : h.Chain b n a) (hm : h.Chain b m a) : n = m := by
  induction hn generalizing m with
  | stop hc hs =>
    cases hm with
    | stop => rfl
    | follow hr hne =>
      rw [hc] at hr
      exact absurd (hs _ (Option.some.inj hr)) hne
  | follow hc hne _ ih =>
    cases hm with
    | stop hr hs =>
      rw [hc] at hr
      exact absurd (hs _ (Option.some.inj hr).symm) hne
    | follow hr _ hrest =>
      rw [hc] at hr
      cases hr
      rw [ih hrest]

/-- A chain passes an address at every distance from its end. -/
theorem exists_at (hn : h.Chain b n a) {i : Nat} (hi : i ≤ n) :
    ∃ c < h.cells.size, h.Chain b i c := by
  induction hn with
  | stop hc hs =>
    obtain rfl := Nat.le_zero.1 hi
    exact ⟨b, lt_size_of_getElem? hc, .stop hc hs⟩
  | @follow n a t hc hne hrest ih =>
    rcases Nat.le_succ_iff.1 hi with hle | rfl
    · exact ih hle
    · exact ⟨a, lt_size_of_getElem? hc, .follow hc hne hrest⟩

/-- These addresses are different, so there are no more of them than cells. -/
theorem lt_size (hn : h.Chain b n a) : n < h.cells.size := by
  choose! f hlt hf using fun i (hi : i ≤ n) => hn.exists_at hi
  have hmaps : ∀ i ∈ Finset.range (n + 1), f i ∈ Finset.range h.cells.size :=
    fun i hi => Finset.mem_range.2 (hlt i (Finset.mem_range_succ_iff.1 hi))
  have hinj : ∀ i ∈ Finset.range (n + 1), ∀ j ∈ Finset.range (n + 1), f i = f j → i = j := by
    intro i hi j hj hij
    have hfi := hf i (Finset.mem_range_succ_iff.1 hi)
    exact hfi.length_unique (hij ▸ hf j (Finset.mem_range_succ_iff.1 hj))
  have hcard := Finset.card_le_card_of_injOn f hmaps hinj
  rwa [Finset.card_range, Finset.card_range] at hcard

theorem derefWithin_eq (hn : h.Chain b n a) {fuel : Nat} (hfuel : n < fuel) :
    h.derefWithin fuel a = .ok (some b) := by
  induction hn generalizing fuel with
  | stop hc hs =>
    obtain ⟨fuel, rfl⟩ := Nat.exists_eq_succ_of_ne_zero (Nat.ne_zero_of_lt hfuel)
    rw [derefWithin, get_of_some hc]
    rename_i c
    cases c with
    | ref t => simp [hs t rfl]
    | str t => rfl
    | functor f n => rfl
  | follow hc hne _ ih =>
    obtain ⟨fuel, rfl⟩ := Nat.exists_eq_succ_of_ne_zero (Nat.ne_zero_of_lt hfuel)
    rw [derefWithin, get_of_some hc]
    dsimp only
    rw [if_neg hne]
    exact ih (Nat.lt_of_succ_lt_succ hfuel)

end Chain

/-- Following references finds the end of every chain that has one. -/
theorem deref_eq_ok_iff {h : Heap} {a b : Address} : h.deref a = .ok b ↔ h.Resolves a b := by
  constructor
  · exact resolves_of_deref
  · intro hr
    obtain ⟨n, hn⟩ := hr.exists_chain
    have hlt := hn.lt_size
    rw [deref, hn.derefWithin_eq (show n < h.cells.size + 1 by omega)]

def isFunctorAt (h : Heap) (a : Address) : Bool :=
  match h.cells[a]? with
  | some (.functor _ _) => true
  | _ => false

theorem isFunctorAt_iff {h : Heap} {a : Address} :
    h.isFunctorAt a ↔ ∃ f n, h.cells[a]? = some (.functor f n) := by
  unfold isFunctorAt
  rcases h.cells[a]? with _ | _ | _ | ⟨f, n⟩
  · simp
  · simp
  · simp
  · exact ⟨fun _ => ⟨f, n, rfl⟩, fun _ => rfl⟩

def functorCells (h : Heap) : Finset Address :=
  (Finset.range h.cells.size).filter fun a => h.isFunctorAt a

theorem mem_functorCells {h : Heap} {a : Address} :
    a ∈ h.functorCells ↔ ∃ f n, h.cells[a]? = some (.functor f n) := by
  simp only [functorCells, Finset.mem_filter, Finset.mem_range, isFunctorAt_iff,
    and_iff_right_iff_imp]
  rintro ⟨f, n, hc⟩
  exact lt_size_of_getElem? hc

theorem functorCells_card_le (h : Heap) : h.functorCells.card ≤ h.cells.size := by
  have hle := Finset.card_filter_le (Finset.range h.cells.size) fun a => h.isFunctorAt a
  rwa [Finset.card_range] at hle

theorem functorCells_point {h : Heap} {x : Address} (hx : h.cells[x]? = some (.ref x))
    (v : Address) : (h.point x v).functorCells = h.functorCells := by
  ext a
  simp only [mem_functorCells, point_cell hx]
  by_cases ha : a = x
  · simp [ha, hx]
  · simp [ha]

/-- The pairs of functor cells, smaller address first, that have not been taken apart. -/
def pairsLeft (h : Heap) (seen : Seen) : Finset (Address × Address) :=
  (h.functorCells ×ˢ h.functorCells).filter fun p => p.1 ≤ p.2 ∧ p ∉ seen

theorem pairsLeft_card_le (h : Heap) (seen : Seen) :
    (h.pairsLeft seen).card ≤ h.functorCells.card * (h.functorCells.card + 1) / 2 := by
  have hmaps : ∀ p ∈ h.pairsLeft seen, s(p.1, p.2) ∈ h.functorCells.sym2 := by
    intro p hp
    have hmem := Finset.mem_product.1 (Finset.mem_filter.1 hp).1
    exact Finset.mk_mem_sym2_iff.2 hmem
  have hinj : ∀ p ∈ h.pairsLeft seen, ∀ q ∈ h.pairsLeft seen, s(p.1, p.2) = s(q.1, q.2) →
      p = q := by
    intro p hp q hq hpq
    have hple := (Finset.mem_filter.1 hp).2.1
    have hqle := (Finset.mem_filter.1 hq).2.1
    rcases Sym2.eq_iff.1 hpq with ⟨h1, h2⟩ | ⟨h1, h2⟩
    · exact Prod.ext h1 h2
    · exact Prod.ext (by lia) (by lia)
  have hcard := Finset.card_le_card_of_injOn
    (fun p : Address × Address => s(p.1, p.2)) hmaps hinj
  rwa [Finset.card_sym2, Nat.choose_two_right, Nat.add_sub_cancel, Nat.mul_comm] at hcard

namespace Worklist

def measure (w : Worklist) : Nat := w.pending.length + 255 * (w.heap.pairsLeft w.seen).card

theorem unordered_le (s t : Address) : (unordered s t).1 ≤ (unordered s t).2 := by
  simp only [unordered]
  lia

theorem mem_insert_seen {seen : Seen} {p q : Address × Address} :
    q ∈ seen.insert p ↔ q = p ∨ q ∈ seen := by
  rw [Std.TreeSet.mem_insert, Std.LawfulEqCmp.compare_eq_iff_eq, eq_comm]

theorem length_stackArguments (s t : Address) (n : Nat) (p : List (Address × Address)) :
    (stackArguments s t n p).length = n + p.length := by
  induction n with
  | zero => simp [stackArguments]
  | succ n ih =>
    rw [stackArguments_succ, List.length_cons, ih]
    omega

theorem pairsLeft_insert_lt {h : Heap} {seen : Seen} {s t : Address} {f g : FunctorId}
    {n m : Arity} (hs : h.cells[s]? = some (.functor f n)) (ht : h.cells[t]? = some (.functor g m))
    (hnew : unordered s t ∉ seen) :
    (h.pairsLeft (seen.insert (unordered s t))).card < (h.pairsLeft seen).card := by
  apply Finset.card_lt_card
  refine Finset.ssubset_iff_of_subset ?_ |>.2 ⟨unordered s t, ?_, ?_⟩
  · intro q hq
    obtain ⟨hprod, hle, hnot⟩ := Finset.mem_filter.1 hq
    exact Finset.mem_filter.2 ⟨hprod, hle, fun hmem => hnot (mem_insert_seen.2 (.inr hmem))⟩
  · have hsmem := mem_functorCells.2 ⟨f, n, hs⟩
    have htmem := mem_functorCells.2 ⟨g, m, ht⟩
    refine Finset.mem_filter.2 ⟨Finset.mem_product.2 ?_, unordered_le s t, hnew⟩
    rcases Nat.le_total s t with hst | hst
    · simpa [unordered, Nat.min_eq_left hst, Nat.max_eq_right hst] using ⟨hsmem, htmem⟩
    · simpa [unordered, Nat.min_eq_right hst, Nat.max_eq_left hst] using ⟨htmem, hsmem⟩
  · intro hmem
    exact (Finset.mem_filter.1 hmem).2.2 (mem_insert_seen.2 (.inl rfl))

theorem Step.measure_lt {u w : Worklist} (hs : Step u w) : w.measure + 1 ≤ u.measure := by
  cases hs with
  | same => simp only [measure, List.length_cons]; omega
  | again => simp only [measure, List.length_cons]; omega
  | bind _ hx => simp only [measure, pairsLeft, functorCells_point hx, List.length_cons]; omega
  | @apart a b s t f n p seen h _ hnew hs ht =>
    have hlt := pairsLeft_insert_lt hs ht hnew
    have hn := n.isLt
    simp only [measure, length_stackArguments, List.length_cons]
    omega

theorem Steps.measure_le {n : Nat} {u w : Worklist} (hs : Steps n u w) :
    w.measure + n ≤ u.measure := by
  induction hs with
  | refl => exact Nat.le_refl _
  | step hstep _ ih =>
    have hlt := hstep.measure_lt
    omega

theorem Steps.le_of_single {n : Nat} {a b : Address} {h : Heap} {w : Worklist}
    (hs : Steps n ⟨[(a, b)], ∅, h⟩ w) :
    w.pending.length + n ≤ 1 + 255 * (h.functorCells.card * (h.functorCells.card + 1) / 2) := by
  have hle := hs.measure_le
  have hpairs := h.pairsLeft_card_le ∅
  simp only [measure, List.length_singleton] at hle
  omega

/-- While pairs are left, the fuel of a unification is not used up. -/
theorem Steps.lt_pairBound {n : Nat} {a b : Address} {h : Heap} {w : Worklist}
    (hs : Steps n ⟨[(a, b)], ∅, h⟩ w) (hne : w.pending ≠ []) : n < h.pairBound := by
  have hle := hs.le_of_single
  have hpos := List.length_pos_iff.2 hne
  have hcells := h.functorCells_card_le
  have hmono : h.functorCells.card * (h.functorCells.card + 1) / 2 ≤
      h.cells.size * (h.cells.size + 1) / 2 :=
    Nat.div_le_div_right (Nat.mul_le_mul hcells (Nat.succ_le_succ hcells))
  rw [pairBound]
  omega

end Worklist

theorem unifyWithin_pairBound (h : Heap) (a b : Address) :
    h.unifyWithin h.pairBound [(a, b)] ∅ = (some (h.unify a b).1, (h.unify a b).2) := by
  obtain ⟨n, w, hs, -, hres⟩ := Worklist.unifyWithin_steps h.pairBound [(a, b)] ∅ h
  rcases hu : h.unifyWithin h.pairBound [(a, b)] ∅ with ⟨_ | r, h'⟩
  · rw [hu] at hres
    rcases hres with ⟨r, hr, -⟩ | ⟨-, rfl, hne⟩
    · cases hr
    · exact absurd (hs.lt_pairBound hne) (Nat.lt_irrefl _)
  · simp [unify, hu]

theorem unify_answers (h : Heap) (a b : Address) :
    ∃ n w, Worklist.Steps n ⟨[(a, b)], ∅, h⟩ w ∧ (h.unify a b).2 = w.heap ∧
      Worklist.Answers w (h.unify a b).1 := by
  obtain ⟨n, w, hs, hheap, hans | ⟨-, rfl, hne⟩⟩ := h.unify_steps a b
  · exact ⟨n, w, hs, hheap, hans⟩
  · exact absurd (hs.lt_pairBound hne) (Nat.lt_irrefl _)

/-- An answer does not depend on the fuel that is left. -/
theorem unifyWithin_succ {fuel : Nat} {p : List (Address × Address)} {seen : Seen} {h : Heap}
    (hsome : (h.unifyWithin fuel p seen).1 ≠ none) :
    h.unifyWithin (fuel + 1) p seen = h.unifyWithin fuel p seen := by
  fun_induction unifyWithin fuel p seen h with
  | case1 => rfl
  | case2 => exact absurd rfl hsome
  | case3 fuel a b p seen h e hm => rw [unifyWithin, hm]
  | case4 fuel a b p seen h hm ih =>
    rw [unifyWithin, hm]
    exact ih hsome
  | case5 fuel a b p seen h c d hm h' hb ih =>
    rw [unifyWithin, hm]
    dsimp only
    rw [hb]
    exact ih hsome
  | case6 fuel a b p seen h c d hm r h' hne hb =>
    rw [unifyWithin, hm]
    dsimp only
    rw [hb]
    rcases r with e | _ | _
    · rfl
    · rfl
    · exact absurd rfl hne
  | case7 fuel a b p seen h s t hm hmem ih =>
    rw [unifyWithin, hm]
    dsimp only
    rw [if_pos hmem]
    exact ih hsome
  | case8 fuel a b p seen h s t hm hmem e hn =>
    rw [unifyWithin, hm]
    dsimp only
    rw [if_neg hmem, hn]
  | case9 fuel a b p seen h s t hm hmem hn =>
    rw [unifyWithin, hm]
    dsimp only
    rw [if_neg hmem, hn]
  | case10 fuel a b p seen h s t hm hmem n hn ih =>
    rw [unifyWithin, hm]
    dsimp only
    rw [if_neg hmem, hn]
    exact ih hsome

theorem unifyWithin_of_le {fuel fuel' : Nat} {p : List (Address × Address)} {seen : Seen} {h : Heap}
    (hsome : (h.unifyWithin fuel p seen).1 ≠ none) (hle : fuel ≤ fuel') :
    h.unifyWithin fuel' p seen = h.unifyWithin fuel p seen := by
  induction fuel', hle using Nat.le_induction with
  | base => rfl
  | succ fuel' _ ih => rw [unifyWithin_succ (ih ▸ hsome), ih]

/-- By the time it has taken this many pairs, a unification has answered. -/
theorem unifyWithin_ne_none (h : Heap) (a b : Address) :
    (h.unifyWithin (1 + 255 * (h.functorCells.card * (h.functorCells.card + 1) / 2))
      [(a, b)] ∅).1 ≠ none := by
  intro hnone
  obtain ⟨n, w, hs, -, ⟨r, hr, -⟩ | ⟨-, rfl, hne⟩⟩ := Worklist.unifyWithin_steps
    (1 + 255 * (h.functorCells.card * (h.functorCells.card + 1) / 2)) [(a, b)] ∅ h
  · rw [hnone] at hr
    cases hr
  · have hle := hs.le_of_single
    have hpos := List.length_pos_iff.2 hne
    omega

/-- On any heap at all, a unification takes a certain number of pairs from its stack: with fuel for
fewer it has no answer, and with fuel for more it has the same one. The number is bounded by that of
the functor cells. -/
theorem unify_pairs_le (h : Heap) (a b : Address) :
    ∃ pairs ≤ 1 + 255 * (h.functorCells.card * (h.functorCells.card + 1) / 2),
      (∀ fuel < pairs, (h.unifyWithin fuel [(a, b)] ∅).1 = none) ∧
      ∀ fuel, pairs ≤ fuel →
        h.unifyWithin fuel [(a, b)] ∅ = (some (h.unify a b).1, (h.unify a b).2) := by
  have hbound := h.unifyWithin_ne_none a b
  have hex : ∃ fuel, (h.unifyWithin fuel [(a, b)] ∅).1 ≠ none := ⟨_, hbound⟩
  refine ⟨Nat.find hex, Nat.find_min' hex hbound, fun fuel hlt => ?_, fun fuel hle => ?_⟩
  · exact not_not.1 (Nat.find_min hex hlt)
  · have hpairs : Nat.find hex ≤ h.pairBound := Nat.find_min' hex (by simp [unifyWithin_pairBound])
    rw [← unifyWithin_pairBound, unifyWithin_of_le (Nat.find_spec hex) hle,
      unifyWithin_of_le (Nat.find_spec hex) hpairs]

end TermMachine.Heap
