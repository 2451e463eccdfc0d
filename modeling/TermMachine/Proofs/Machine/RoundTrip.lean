import TermMachine.Proofs.Machine.Answer

/-! # Reading back what has been built

A term that has just been built leaves its variables free: they may have any values. So each leads to
an unbound cell of its own, which has its name, and what is read back is the term. A query that is
run by itself is such a term.
-/
namespace TermMachine

open Heap

namespace Fresh

variable {table : Functor.Table} {k : Address} {q : Term} {h : Heap} {c : Capture} {root : Address}

/-- A variable that may have any value is unbound. -/
theorem unbound (hf : Fresh table k q h c root) {a : String} {x : Address}
    (hx : (a, x) ∈ c.vars) : ∃ e, k ≤ e ∧ h.Resolves x e ∧ h.cells[e]? = some (.ref e) := by
  have hterm := hf.captured.var_term hx
  obtain ⟨e, -, hr, hke, d, hd, hdterm⟩ := hf.heap.deref_term hterm
  refine ⟨e, hke, hr, ?_⟩
  cases d with
  | functor f n => exact hdterm.elim
  | ref t =>
    obtain ⟨_, hd', hself⟩ := hr.cell
    rw [hd, Option.some.injEq] at hd'
    rw [hd, hself t hd'.symm]
  | str t =>
    exfalso
    obtain ⟨-, f, n, name, hfun, hl⟩ := hf.heap.structure_cell hke hd
    -- the structure would have any name
    have hname : ∀ other, name = other := by
      intro other
      obtain ⟨v, hv, hσ⟩ := hf.complete fun _ => (node other [] : CanonicalTerm)
      have hvalue : v x = v e := hv.resolves hf.heap.toSoundFrom hr hterm.1
      rw [hσ _ x hx, hv.str hke hd hfun hl] at hvalue
      exact (TreeDomain.node_inj hvalue).1.symm
    exact absurd ((hname "a").symm.trans (hname "b")) (by decide)

theorem apart (hf : Fresh table k q h c root) {a b : String} {x y e : Address}
    (hx : (a, x) ∈ c.vars) (hy : (b, y) ∈ c.vars) (hrx : h.Resolves x e) (hry : h.Resolves y e) :
    a = b := by
  obtain ⟨v, hv, hσ⟩ := hf.complete fun a => CanonicalTerm.ofTerm (.var a)
  have hsound := hf.heap.toSoundFrom
  have hxy : v x = v y :=
    (hv.resolves hsound hrx (hf.captured.var_term hx).1).trans
      (hv.resolves hsound hry (hf.captured.var_term hy).1).symm
  rw [hσ a x hx, hσ b y hy] at hxy
  exact Term.var.inj (congrArg Subtype.val hxy)

theorem printedName_eq (hf : Fresh table k q h c root) {N : Machine.Names}
    (hN : Machine.namesFrom h c.vars ∅ = .ok N) {a : String} {x e : Address}
    (hx : (a, x) ∈ c.vars) (hr : h.Resolves x e) : Machine.printedName N e = a := by
  rw [Machine.printedName, Std.TreeMap.getD_eq_getD_getElem?]
  cases hname : N[e]? with
  | none => exact absurd hname (Machine.namesFrom_ne_none hN (.inr ⟨_, hx, hr⟩))
  | some b =>
    rcases Machine.namesFrom_mem hN hname with hempty | ⟨y, hy, hry⟩
    · simp at hempty
    · exact hf.apart hy hx hry hr

section Read

variable {N : Machine.Names} {read : Address → Term} {ρ : String → String}
  (hf : Fresh table k q h c root)
  (hread : ∀ a, HasTerm k h a → Machine.Reads N table h [] a (read a))
  (hρ : ∀ {a : String} {x e : Address}, (a, x) ∈ c.vars → h.Resolves x e →
    Machine.printedName N e = ρ a)
include hf hread hρ

theorem read_var {a : String} {x : Address} (hx : (a, x) ∈ c.vars) : read x = .var (ρ a) := by
  obtain ⟨e, -, hr, he⟩ := hf.unbound hx
  rw [← hρ hx hr]
  exact (hread x (hf.captured.var_term hx)).unique (.var hr he)

/-- The term is read with the names that are printed for its variables. -/
theorem read_root : read root = q.canon.rename ρ := by
  have hcap := hf.captured
  obtain ⟨v, hv, -⟩ := hf.complete fun _ => (node "" [] : CanonicalTerm)
  have hself := Machine.models_read hf.heap hv hread fun a => CanonicalTerm.ofTerm (.var a)
  have hval : ∀ a, (read a).eval (fun a => CanonicalTerm.ofTerm (.var a)) = .ofTerm (read a) := by
    intro a
    rw [CanonicalTerm.eval_ofTerm, Term.subst_var]
  have hroot := hcap.sound hself (σ := fun a => .ofTerm (.var (ρ a)))
    fun a x hx => by rw [hval, hf.read_var hread hρ hx]
  rw [hval, CanonicalTerm.eval_ofTerm] at hroot
  rw [← Term.canon_rename, ← (hread root hcap.root_term).canon_eq]
  exact congrArg Subtype.val hroot

end Read

/-- What has been built is read back as it was written. -/
theorem readBack {m : Machine} (hf : Fresh m.functors k q m.state.heap m.capture root) :
    m.queryTerm = .ok (some q.canon) ∧
      m.bindings = .ok ((m.capture.vars.map Prod.fst).map fun a => (a, .var a)) := by
  obtain ⟨N, read, hback⟩ := hf.captured.readBack hf.heap
  have hname : ∀ {a : String} {x e : Address}, (a, x) ∈ m.capture.vars →
      m.state.heap.Resolves x e → Machine.printedName N e = id a :=
    fun hx hr => hf.printedName_eq hback.names hx hr
  constructor
  · rw [hback.queryTerm, hf.read_root hback.reads hname]
    exact congrArg (fun t => Except.ok (some t)) (Term.subst_var q.canon)
  · rw [hback.bindings, List.map_map]
    refine congrArg Except.ok (List.map_congr_left fun v hv => ?_)
    rw [hf.read_var hback.reads hname hv]
    rfl

end Fresh

namespace Machine

variable {table : Functor.Table} {registers : Nat} {t : Term} {query : Code} {h : Heap}
  {r : RegisterFile} {capacities : Capacities} {calls : List Call}

theorem runState_query (hq : Code.IsQuery table registers t query) (hr : r.count = registers)
    (hroom : h.cells.size + t.queryCells ≤ h.capacity) :
    ∃ s c root, runState query .empty h r = (.ok true, s, c) ∧
      Fresh table h.cells.size t s.heap c root ∧ (c.vars.map Prod.fst).Pairwise (· < ·) := by
  obtain ⟨map, nodes, hmap, hsize, rfl⟩ := hq
  subst hr
  have hends := Run.query_ends (h := h) (r := r.clear) (c := .outside .write) hmap hsize
  obtain ⟨⟨h₁, r₁, c₁⟩, hrun, hqueried, -⟩ := hends.exists_matched hroom
  obtain ⟨c, hcap, hfresh, hnames⟩ := hqueried.fresh hmap
  refine ⟨⟨h₁, r₁, .outside .read⟩, c, _, ?_, hfresh, hnames⟩
  unfold runState
  dsimp only
  rw [hrun]
  dsimp only at hcap ⊢
  rw [hcap]
  rfl

/-- A query that is run by itself, and what is captured of it. -/
theorem run_query_fresh (hq : CompiledQuery capacities calls t query) {m n : Machine}
    (hm : m = (create capacities).afterAll calls) (hn : n = (m.run query .empty).2)
    (hroom : m.state.heap.top + t.queryCells ≤ capacities.heap) :
    (m.run query .empty).1 = .ok true ∧
      (∃ root, Fresh n.functors m.state.heap.top t n.state.heap n.capture root) ∧
      (n.capture.vars.map Prod.fst).Pairwise (· < ·) := by
  have hcount := afterAll_count capacities calls
  have hcap := afterAll_heap_capacity capacities calls
  have hq' := hq.isQuery
  rw [← hm] at hcount hcap hq'
  obtain ⟨s, c, root, heq, hfresh, hnames⟩ := runState_query hq' hcount (hcap ▸ hroom)
  rw [run_eq, heq] at hn ⊢
  rw [hn]
  exact ⟨rfl, ⟨root, hfresh⟩, hnames⟩

/-- With room on the heap, a query that is run by itself is read back as it was written, empty
structures as atoms, and each of its variables stands for itself; the variables come by name. -/
theorem run_query_readBack (hq : CompiledQuery capacities calls t query)
    (hroom : ((create capacities).afterAll calls).state.heap.top + t.queryCells ≤
      capacities.heap) :
    (((create capacities).afterAll calls).run query .empty).1 = .ok true ∧
      (((create capacities).afterAll calls).run query .empty).2.queryTerm =
        .ok (some t.canon) ∧
      ∃ names : List String, names.Pairwise (· < ·) ∧ (∀ a, a ∈ names ↔ a ∈ t.vars) ∧
        (((create capacities).afterAll calls).run query .empty).2.bindings =
          .ok (names.map fun a => (a, .var a)) := by
  obtain ⟨htrue, ⟨root, hfresh⟩, hnames⟩ := run_query_fresh hq rfl rfl hroom
  obtain ⟨hterm, hbindings⟩ := hfresh.readBack
  refine ⟨htrue, hterm, _, hnames, fun a => ?_, hbindings⟩
  rw [hfresh.captured.var_mem]
  simp

/-- A query with a shared variable and an empty structure. -/
theorem run_query_readBack_shared :
    let t : Term := .app "f" [.app "g" [.var "Y"], .app "h" [], .var "X", .var "Y"]
    let query : Code := ⟨[.putStructure 1 1 1, .setVariable 4, .putStructure 2 0 2,
      .putStructure 0 4 0, .setValue 1, .setValue 2, .setVariable 3, .setValue 4],
      [("X", 3), ("Y", 4)]⟩
    let m := (create ⟨5, 8, 11, 3⟩).afterAll [.query t]
    CompiledQuery ⟨5, 8, 11, 3⟩ [.query t] t query ∧ m.state.heap.top + t.queryCells ≤ 11 ∧
      (m.run query .empty).1 = .ok true ∧
      (m.run query .empty).2.queryTerm = .ok (some t.canon) ∧
      ∃ names : List String, names.Pairwise (· < ·) ∧ (∀ a, a ∈ names ↔ a ∈ t.vars) ∧
        (m.run query .empty).2.bindings = .ok (names.map fun a => (a, .var a)) := by
  intro t query m
  have hq : CompiledQuery ⟨5, 8, 11, 3⟩ [.query t] t query :=
    ⟨[], [], rfl, by simp, by decide +kernel⟩
  have hroom : m.state.heap.top + t.queryCells ≤ 11 := by decide +kernel
  exact ⟨hq, hroom, run_query_readBack hq hroom⟩

end Machine
end TermMachine
