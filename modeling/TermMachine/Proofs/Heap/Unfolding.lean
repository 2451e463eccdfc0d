import TermMachine.Proofs.Heap.Model
import TermMachine.Proofs.Tree.Rational

/-! # The trees on a heap

A heap is a graph: an address leads through references to a structure with its arguments, or to an
unbound reference. Unfolding the graph gives every address a rational tree, and these trees are a
model of the heap.
-/
namespace TermMachine.Heap

variable {table : Functor.Table} {k : Address} {h : Heap}

def structureAt (table : Functor.Table) (h : Heap) (a : Address) : Option (String × List Address) :=
  match h.deref a with
  | .error _ => none
  | .ok b =>
    match h.cells[b]? with
    | some (.str t) =>
      match h.functorAt t with
      | .error _ => none
      | .ok (f, n) => (table.lookup f).map fun functor => (functor.name, argumentAddresses t n.val)
    | _ => none

/-- The tree at an address, where an unbound reference has no name and no arguments. -/
def tree (table : Functor.Table) (h : Heap) : Address → Tree :=
  Tree.unfold (fun a => ((h.structureAt table a).map Prod.fst).getD "")
    fun a => ((h.structureAt table a).map Prod.snd).getD []

theorem tree_congr {a b : Address} (hab : h.structureAt table a = h.structureAt table b) :
    h.tree table a = h.tree table b := by
  rw [tree, Tree.unfold_eq, Tree.unfold_eq _ _ b, hab]

theorem structureAt_ref (hs : h.SoundFrom k) {a b : Address} (hk : k ≤ a)
    (hc : h.cells[a]? = some (.ref b)) : h.structureAt table a = h.structureAt table b := by
  by_cases hb : b = a
  · rw [hb]
  · obtain ⟨hkb, d, hd, -⟩ := hs.ref_term hk hc
    obtain ⟨e, he, hre⟩ := hs.deref_ok hk (lt_size_of_getElem? hc)
    obtain ⟨e', he', hre'⟩ := hs.deref_ok hkb (lt_size_of_getElem? hd)
    obtain rfl := hre.unique (.follow hc hb hre')
    rw [structureAt, structureAt, he, he']

theorem structureAt_str (hs : h.SoundFrom k) {a t : Address} {f : FunctorId} {n : Arity}
    {name : String} (hk : k ≤ a) (hc : h.cells[a]? = some (.str t))
    (hf : h.cells[t]? = some (.functor f n)) (hl : table.lookup f = some ⟨name, n⟩) :
    h.structureAt table a = some (name, argumentAddresses t n.val) := by
  obtain ⟨e, he, hre⟩ := hs.deref_ok hk (lt_size_of_getElem? hc)
  obtain rfl := hre.unique (.stop hc (by simp))
  simp [structureAt, he, hc, functorAt, get_of_some hf, hl]

theorem models_tree (hw : h.WellBuilt table k 0) : h.Models table k (h.tree table) where
  ref hk hc := tree_congr (structureAt_ref hw.toSoundFrom hk hc)
  str hk hc hf hl := by
    have hat := structureAt_str hw.toSoundFrom hk hc hf hl
    rw [tree, Tree.unfold_eq, hat]
    rfl

theorem mem_of_structureAt (hw : h.WellBuilt table k 0) {a b : Address} {name : String}
    {args : List Address} (hk : k ≤ a) (hat : h.structureAt table a = some (name, args))
    (hb : b ∈ args) : k ≤ b ∧ b < h.cells.size := by
  unfold structureAt at hat
  cases hd : h.deref a with
  | error e => simp [hd] at hat
  | ok e =>
    have hr := resolves_of_deref hd
    obtain ⟨c, hc, -⟩ := hr.cell
    cases c with
    | ref t => simp [hd, hc] at hat
    | functor f n => simp [hd, hc] at hat
    | str t =>
      have hke := hw.resolves_le hr hk
      obtain ⟨hkt, f, n, gname, hf, hl⟩ := hw.structure_cell hke hc
      simp only [hd, hc, functorAt, get_of_some hf, hl, Option.map_some, Option.some.injEq,
        Prod.mk.injEq] at hat
      obtain ⟨-, rfl⟩ := hat
      have hterm := hw.hasTerm_of_mem hkt hf hb
      exact ⟨hterm.1, hterm.lt_size⟩

/-- A heap has finitely many addresses, so its trees are rational. -/
theorem tree_isRational (hw : h.WellBuilt table k 0) {a : Address} (hk : k ≤ a)
    (ha : a < h.cells.size) : (h.tree table a).IsRational := by
  have hfin : {b | k ≤ b ∧ b < h.cells.size}.Finite :=
    (Set.finite_lt_nat h.cells.size).subset fun b hb => hb.2
  refine Tree.isRational_unfold _ _ hfin (fun b hb c hc => ?_) ⟨hk, ha⟩
  cases hat : h.structureAt table b with
  | none => simp [hat] at hc
  | some r =>
    rw [hat] at hc
    exact mem_of_structureAt hw hb.1 hat hc

end TermMachine.Heap
