import TermMachine.Machine.Basic
import TermMachine.Proofs.Code.Compiled
import TermMachine.Proofs.Machine.Block

/-! # Running compiled code

A query and a program that have been compiled are run on a heap that may hold anything from before.
In every domain of trees the models of the cells added are the common solutions of the two terms, so
a run answers whether there are any. It never faults, unless the heap is full.
-/
namespace TermMachine

open Heap

namespace Run

variable {table : Functor.Table} {k : Address} {s : RunState} {map : RegisterMap}
  {nodes : Array Term}

def nodeValue {D : Type} [TreeDomain D] (nodes : Array Term) (σ : String → D) (x : Register) : D :=
  match nodes[x]? with
  | some t => t.eval σ
  | none => σ ""

theorem nodeValue_eq {D : Type} [TreeDomain D] {σ : String → D} {x : Register} {t : Term}
    (hx : nodes[x]? = some t) : nodeValue nodes σ x = t.eval σ := by
  simp [nodeValue, hx]

theorem fits_of_mem {t : Term} (h : map.Represents table t nodes) {count : Nat}
    (hcount : nodes.size ≤ count) :
    ∀ b ∈ Block.parentsFirst map RegisterMap.root t [], b.Fits table count := by
  intro b hb
  obtain ⟨-, -, u, hu⟩ := Block.mem_blocks h h.root hb
  exact hu.fits hcount

theorem holds_nodeValue {t : Term} (h : map.Represents table t nodes) {D : Type} [TreeDomain D]
    (σ : String → D) :
    ∀ b ∈ Block.parentsFirst map RegisterMap.root t [], b.Holds table (nodeValue nodes σ) := by
  intro b hb
  obtain ⟨-, -, u, hu⟩ := Block.mem_blocks h h.root hb
  exact Block.holds_of_eval (fun x t hx => nodeValue_eq hx) hu

structure Queried (table : Functor.Table) (k : Address) (q : Term) (nodes : Array Term)
    (t : RunState) : Prop where
  heap : t.heap.WellBuilt table k 0
  root : t.registers.load RegisterMap.root = .ok (t.address RegisterMap.root) ∧
    HasTerm k t.heap (t.address RegisterMap.root)
  var : ∀ {x : Register} {name : String}, nodes[x]? = some (.var name) →
    t.registers.load x = .ok (t.address x) ∧ HasTerm k t.heap (t.address x)
  sound : ∀ {D : Type} [TreeDomain D] {v : Address → D} {σ : String → D},
    t.heap.Models table k v → (∀ x name, nodes[x]? = some (.var name) → v (t.address x) = σ name) →
    v (t.address RegisterMap.root) = q.eval σ
  complete : ∀ {D : Type} [TreeDomain D] (σ : String → D), ∃ v : Address → D,
    t.heap.Models table k v ∧ ∀ x name, nodes[x]? = some (.var name) → v (t.address x) = σ name

theorem ready_start (table : Functor.Table) (left : Nat) (h : Heap) (r : RegisterFile) (c : Cursor) :
    Ready table h.cells.size ∅ left ⟨h, r, c⟩ :=
  ⟨wellBuilt_top table left h, Nat.le_refl _, by simp⟩

variable {h : Heap} {r : RegisterFile} {c : Cursor} {q p : Term}

/-- A query that is a bare variable. -/
theorem setVariable_queried (hmap : map.Represents table q nodes) (hcount : nodes.size ≤ r.count)
    {name : String} (hq : q = .var name) :
    Ends (fun t => Queried table h.cells.size q nodes t ∧ Grows h t.heap ∧
        t.registers.count = r.count ∧ t.heap.cells.size ≤ h.cells.size + 1)
      (fun _ => False) 1 h (Run.all [.setVariable RegisterMap.root] ⟨h, r, c⟩) := by
  have hroot := hmap.root
  rw [hq] at hroot
  have hlt : RegisterMap.root < r.count :=
    Nat.lt_of_lt_of_le (Array.getElem?_eq_some_iff.1 hroot).1 hcount
  have hset := setArgument_ends (ready_start table 1 h r c) hlt
  rw [if_neg (by simp)] at hset
  rw [all_singleton]
  refine hset.imp (fun t ⟨harg, hsize, _⟩ => ?_) (fun _ => id) (Nat.le_refl 1)
  have hload := harg.ready.load (Block.mem_meet.2 (.inl rfl))
  have hvar : ∀ {x : Register} {a : String}, nodes[x]? = some (.var a) →
      x = RegisterMap.root ∧ a = name := by
    intro x a hx
    have hmem := hmap.vars hx (a := a) (by simp [Term.vars])
    obtain rfl : a = name := by simpa [hq, Term.vars] using hmem
    exact ⟨hmap.var_unique hx hroot, rfl⟩
  refine ⟨⟨harg.ready.heap, hload, ?_, ?_, ?_⟩, harg.keeps.grows, harg.keeps.count,
    Nat.le_of_eq hsize⟩
  · intro x a hx
    obtain ⟨rfl, -⟩ := hvar hx
    exact hload
  · intro D _ v σ _ hσ
    rw [hq, hσ _ name hroot, Term.eval_var]
  · intro D _ σ
    obtain ⟨hv, hν⟩ := harg.complete (v := fun _ => σ name) (ν := fun _ => σ name)
      (models_top table h _) (by simp [Agree]) rfl
    refine ⟨_, hv, fun x a hx => ?_⟩
    obtain ⟨rfl, rfl⟩ := hvar hx
    exact hν _ (Block.mem_meet.2 (.inl rfl))

/-- The blocks of a term build it, in whatever order they are. -/
theorem Solved.queried (hmap : map.Represents table q nodes) (happ : q.IsApp) {bs : List Block}
    (hperm : bs.Perm (Block.parentsFirst map RegisterMap.root q [])) {t : RunState}
    (ht : Solved table s.heap.cells.size ∅ bs s t) :
    Queried table s.heap.cells.size q nodes t := by
  obtain ⟨b, hb, hreg, -⟩ := Block.exists_block hmap hmap.root happ
  have hmem : b ∈ bs := by
    rw [hperm.mem_iff, ← hreg, Block.parentsFirst_eq happ (hreg ▸ hb)]
    exact List.mem_cons_self
  have hvar : ∀ {x : Register} {a : String}, nodes[x]? = some (.var a) →
      x ∈ Block.afterAll ∅ bs := by
    intro x a hx
    have ha := hmap.vars hx (a := a) (by simp [Term.vars])
    obtain ⟨z, hz, rfl | ⟨d, hd, hzd⟩⟩ := hmap.exists_register hmap.root ha
    · rw [hmap.root, Option.some.injEq] at hz
      rw [hz] at happ
      exact happ.elim
    · rw [hmap.var_unique hx hz]
      exact (Block.mem_afterAll_of_block ∅ (hperm.mem_iff.2 hd)).2 z hzd
  have hroot := (Block.mem_afterAll_of_block ∅ hmem).1
  rw [hreg] at hroot
  refine ⟨ht.ready.heap, ht.ready.load hroot, fun hx => ht.ready.load (hvar hx), ?_, ?_⟩
  · intro D _ v σ hv hσ
    exact Block.eval_of_holds (ν := fun x => v (t.address x)) hmap hσ hmap.root
      fun d hd => ht.sound hv d (hperm.mem_iff.2 hd)
  · intro D _ σ
    obtain ⟨v, -, hv, hν⟩ := ht.complete (v := fun _ => σ "") (models_top table s.heap _)
      (by simp [Agree]) fun d hd => holds_nodeValue hmap σ d (hperm.mem_iff.1 hd)
    exact ⟨v, hv, fun x a hx => (hν x (hvar hx)).trans (nodeValue_eq hx)⟩

theorem not_refutes (hmap : map.Represents table q nodes) {bs : List Block}
    (hperm : bs.Perm (Block.parentsFirst map RegisterMap.root q [])) {t : RunState} :
    ¬Refutes table s.heap.cells.size ∅ bs s t := by
  rintro ⟨-, -, hnone⟩
  refine hnone (D := CanonicalTerm) (fun _ => .ofTerm (.atom "")) (models_top table s.heap _)
    ⟨nodeValue nodes fun _ => .ofTerm (.atom ""), by simp [Agree], fun d hd => ?_⟩
  exact holds_nodeValue hmap _ d (hperm.mem_iff.1 hd)

theorem cells_blocks (hmap : map.Represents table q nodes) {bs : List Block}
    (hperm : bs.Perm (Block.parentsFirst map RegisterMap.root q [])) :
    Block.cells bs = q.cells := by
  rw [Block.cells_perm hperm, Block.cells_parentsFirst hmap hmap.root]

/-- A query never fails to match. -/
theorem query_ends (hmap : map.Represents table q nodes) (hcount : nodes.size ≤ r.count) :
    Ends (fun t => Queried table h.cells.size q nodes t ∧ Grows h t.heap ∧
        t.registers.count = r.count ∧ t.heap.cells.size ≤ h.cells.size + q.queryCells)
      (fun _ => False) q.queryCells h (Run.all (Code.queryInstructions map q) ⟨h, r, c⟩) := by
  rcases q.eq_var_or_isApp with ⟨name, hq⟩ | happ
  · have hone := setVariable_queried (h := h) (c := c) hmap hcount hq
    subst hq
    exact hone
  have hperm := Block.perm hmap hmap.root
  have hends := blocks_ends (headsWork_query table _) (ready_start table 0 h r c)
    (fun b hb => fits_of_mem hmap hcount b (hperm.mem_iff.1 hb))
    (Block.schedule_childrenFirst hmap hmap.root)
  have hcells := cells_blocks hmap hperm
  rw [← Code.queryInstructions_eq map happ, hcells] at hends
  rw [Term.queryCells_of_isApp happ]
  refine hends.imp (fun t ht => ?_) (fun t => not_refutes (s := ⟨h, r, c⟩) hmap hperm)
    (Nat.le_refl _)
  have hqueried : Queried table h.cells.size q nodes t :=
    Solved.queried (s := ⟨h, r, c⟩) hmap happ hperm ht
  exact ⟨hqueried, ht.keeps.grows, ht.keeps.count, hcells ▸ ht.size_le⟩

structure Matched (table : Functor.Table) (k : Address) (p : Term) (s t : RunState) : Prop where
  heap : t.heap.WellBuilt table k 0
  grows : Grows s.heap t.heap
  sound : ∀ {D : Type} [TreeDomain D] {v : Address → D}, t.heap.Models table k v →
    ∃ τ, v (s.address RegisterMap.root) = p.eval τ
  complete : ∀ {D : Type} [TreeDomain D] {v : Address → D} {τ : String → D},
    s.heap.Models table k v → v (s.address RegisterMap.root) = p.eval τ →
    ∃ v' : Address → D, (∀ a < s.heap.cells.size, v' a = v a) ∧ t.heap.Models table k v'

theorem program_ends (hmap : map.Represents table p nodes)
    (hcount : nodes.size ≤ s.registers.count)
    (hs : Ready table k ((∅ : Std.TreeSet Register).insert RegisterMap.root) 0 s) :
    Ends (Matched table k p s) (fun t => Refuted table k s.heap t.heap fun _ _ v =>
        ∃ τ, v (s.address RegisterMap.root) = p.eval τ) p.cells s.heap
      (Run.all (Code.programInstructions map p) s) := by
  have hmet : RegisterMap.root ∈ (∅ : Std.TreeSet Register).insert RegisterMap.root :=
    Block.mem_insert.2 (.inl rfl)
  have hagree : ∀ {D : Type} [TreeDomain D] {v : Address → D} {τ : String → D},
      v (s.address RegisterMap.root) = p.eval τ →
      Agree ((∅ : Std.TreeSet Register).insert RegisterMap.root) s v (nodeValue nodes τ) := by
    intro D _ v τ heq x hx
    obtain rfl : x = RegisterMap.root := by simpa using Block.mem_insert.1 hx
    rw [heq, nodeValue_eq hmap.root]
  have hends := blocks_ends (headsWork_program table k) hs (fits_of_mem hmap hcount)
    (Block.schedule_parentsFirst hmap hmap.root hmet)
  rw [← Code.programInstructions_eq hmap, Block.cells_parentsFirst hmap hmap.root] at hends
  refine hends.imp (fun t ht => ⟨ht.ready.heap, ht.keeps.grows, ?_, ?_⟩) ?_ (Nat.le_refl _)
  · intro D _ v hv
    obtain ⟨τ, hτ⟩ := exists_values (fun a x => nodes[x]? = some (.var a))
      hmap.var_unique (v 0) fun x => v (t.address x)
    refine ⟨τ, ?_⟩
    rw [← ht.keeps.address hmet]
    exact Block.eval_of_holds (ν := fun x => v (t.address x)) hmap (fun x a hx => hτ a x hx)
      hmap.root (ht.sound hv)
  · intro D _ v τ hv heq
    obtain ⟨v', hold, hv', -⟩ := ht.complete hv (hagree heq) (holds_nodeValue hmap τ)
    exact ⟨v', hold, hv'⟩
  · rintro t ⟨hw, hg, hnone⟩
    refine ⟨hw, hg, fun v hv ⟨τ, heq⟩ => hnone v hv ⟨_, hagree heq, holds_nodeValue hmap τ⟩⟩

end Run

/-- A capture has the term of a query at `root`, and all its variables. -/
structure Captured (table : Functor.Table) (k : Address) (q : Term) (h : Heap) (c : Capture)
    (root : Address) : Prop where
  root_eq : c.root = some root
  root_term : HasTerm k h root
  var_term : ∀ {a : String} {x : Address}, (a, x) ∈ c.vars → HasTerm k h x
  var_mem : ∀ {a : String}, a ∈ q.vars ↔ ∃ x, (a, x) ∈ c.vars
  var_unique : ∀ {a : String} {x y : Address}, (a, x) ∈ c.vars → (a, y) ∈ c.vars → x = y
  sound : ∀ {D : Type} [TreeDomain D] {v : Address → D} {σ : String → D},
    h.Models table k v → (∀ a x, (a, x) ∈ c.vars → v x = σ a) → v root = q.eval σ

theorem Captured.grows {table : Functor.Table} {k : Address} {q : Term} {h h' : Heap} {c : Capture}
    {root : Address} (hc : Captured table k q h c root) (hg : Grows h h') :
    Captured table k q h' c root where
  root_eq := hc.root_eq
  root_term := hc.root_term.grows hg
  var_term hx := (hc.var_term hx).grows hg
  var_mem := hc.var_mem
  var_unique := hc.var_unique
  sound hv := hc.sound (.of_grows hg hv)

theorem Captured.exists_eval {table : Functor.Table} {k : Address} {q : Term} {h : Heap}
    {c : Capture} {root : Address} (hc : Captured table k q h c root) {D : Type} [TreeDomain D]
    {v : Address → D} (hv : h.Models table k v) :
    ∃ σ, (∀ a x, (a, x) ∈ c.vars → v x = σ a) ∧ v root = q.eval σ := by
  obtain ⟨σ, hσ⟩ := exists_values (fun a x => (a, x) ∈ c.vars) hc.var_unique (v root) v
  exact ⟨σ, hσ, hc.sound hv hσ⟩

theorem Capture.loadVariables_eq {r : RegisterFile} {vars : List (String × Register)}
    {f : Register → Address} (h : ∀ v ∈ vars, r.load v.2 = .ok (f v.2)) :
    loadVariables r vars = (.ok (), vars.map fun v => (v.1, f v.2)) := by
  induction vars with
  | nil => rfl
  | cons v vars ih =>
    obtain ⟨name, x⟩ := v
    have hx : r.load x = .ok (f x) := h (name, x) List.mem_cons_self
    simp only [loadVariables, hx, ih fun w hw => h w (List.mem_cons_of_mem _ hw), List.map_cons]

structure Fresh (table : Functor.Table) (k : Address) (q : Term) (h : Heap) (c : Capture)
    (root : Address) : Prop where
  heap : h.WellBuilt table k 0
  captured : Captured table k q h c root
  complete : ∀ {D : Type} [TreeDomain D] (σ : String → D), ∃ v : Address → D,
    h.Models table k v ∧ ∀ a x, (a, x) ∈ c.vars → v x = σ a

namespace Run

variable {table : Functor.Table} {k : Address} {map : RegisterMap} {nodes : Array Term} {q : Term}

theorem queryInstructions_ne_nil (h : map.Represents table q nodes) :
    (Code.queryInstructions map q).isEmpty = false := by
  rcases q.eq_var_or_isApp with ⟨name, rfl⟩ | happ
  · rfl
  · obtain ⟨b, hb, hreg, -⟩ := Block.exists_block h h.root happ
    have hmem : b ∈ Block.childrenFirst map RegisterMap.root q [] := by
      rw [(Block.perm h h.root).mem_iff, ← hreg, Block.parentsFirst_eq happ (hreg ▸ hb)]
      exact List.mem_cons_self
    rw [Code.queryInstructions_eq map happ]
    cases hbs : Block.childrenFirst map RegisterMap.root q [] with
    | nil =>
      rw [hbs] at hmem
      cases hmem
    | cons c cs => rfl

/-- The query's term and variables are captured, the variables by name. -/
theorem Queried.fresh {t : RunState} (ht : Queried table k q nodes t)
    (hmap : map.Represents table q nodes) :
    ∃ c, Capture.ofRegisters ⟨Code.queryInstructions map q, Code.sortedVariables map⟩ t.registers =
        (.ok (), c) ∧ Fresh table k q t.heap c (t.address RegisterMap.root) ∧
      (c.vars.map Prod.fst).Pairwise (· < ·) := by
  have hload : ∀ v ∈ Code.sortedVariables map, t.registers.load v.2 = .ok (t.address v.2) :=
    fun v hv => (ht.var (hmap.mem_sortedVariables.1 hv)).1
  have hmem : ∀ {a x}, (a, x) ∈ (Code.sortedVariables map).map (fun v => (v.1, t.address v.2)) ↔
      ∃ y, nodes[y]? = some (.var a) ∧ x = t.address y := by
    intro a x
    simp only [List.mem_map, Prod.exists, Prod.mk.injEq, hmap.mem_sortedVariables]
    constructor
    · rintro ⟨a, y, hy, rfl, rfl⟩
      exact ⟨y, hy, rfl⟩
    · rintro ⟨y, hy, rfl⟩
      exact ⟨a, y, hy, rfl, rfl⟩
  refine ⟨⟨some (t.address RegisterMap.root),
    (Code.sortedVariables map).map fun v => (v.1, t.address v.2)⟩, ?_, ⟨ht.heap, ?_, ?_⟩, ?_⟩
  · simp [Capture.ofRegisters, queryInstructions_ne_nil hmap, ht.root.1,
      Capture.loadVariables_eq hload]
  · refine ⟨rfl, ht.root.2, fun hx => ?_, ?_, fun hx hy => ?_, fun hv hσ => ht.sound hv ?_⟩
    · obtain ⟨y, hy, rfl⟩ := hmem.1 hx
      exact (ht.var hy).2
    · intro a
      constructor
      · intro ha
        obtain ⟨z, hz, -⟩ := hmap.exists_register hmap.root ha
        exact ⟨_, hmem.2 ⟨z, hz, rfl⟩⟩
      · rintro ⟨x, hx⟩
        obtain ⟨y, hy, -⟩ := hmem.1 hx
        exact hmap.vars hy (by simp [Term.vars])
    · obtain ⟨x', hx', rfl⟩ := hmem.1 hx
      obtain ⟨y', hy', rfl⟩ := hmem.1 hy
      rw [hmap.var_unique hx' hy']
    · exact fun y a hy => hσ a _ (hmem.2 ⟨y, hy, rfl⟩)
  · intro D _ σ
    obtain ⟨v, hv, hσ⟩ := ht.complete σ
    refine ⟨v, hv, fun a x hx => ?_⟩
    obtain ⟨y, hy, rfl⟩ := hmem.1 hx
    exact hσ y a hy
  · rw [List.map_map]
    exact Code.sortedVariables_pairwise map

end Run

/-- The heap of a run has the common solutions of its terms as its models. -/
structure Answered (table : Functor.Table) (k : Address) (q p : Term) (h : Heap) (c : Capture)
    (root : Address) : Prop where
  heap : h.WellBuilt table k 0
  captured : Captured table k q h c root
  sound : ∀ {D : Type} [TreeDomain D] {v : Address → D}, h.Models table k v →
    ∃ τ, v root = p.eval τ
  complete : ∀ {D : Type} [TreeDomain D] {σ τ : String → D}, q.eval σ = p.eval τ →
    ∃ v : Address → D, h.Models table k v ∧ ∀ a x, (a, x) ∈ c.vars → v x = σ a

namespace Machine

variable {table : Functor.Table} {registers : Nat} {q p : Term} {query program : Code} {h : Heap}
  {r : RegisterFile}

/-- How the run of a compiled query and program ends. -/
theorem runState_cases (hq : Code.IsQuery table registers q query)
    (hp : Code.IsProgram table registers p program) (hr : r.count = registers) :
    (∃ s c root, runState query program h r = (.ok true, s, c) ∧
      Answered table h.cells.size q p s.heap c root) ∨
    (∃ s c root, runState query program h r = (.ok false, s, c) ∧
      s.heap.WellBuilt table h.cells.size 0 ∧ Captured table h.cells.size q s.heap c root ∧
      ∀ {D : Type} [TreeDomain D] (σ τ : String → D), q.eval σ ≠ p.eval τ) ∨
    ∃ s c, runState query program h r = (.error (Run.full h), s, c) ∧
      h.capacity < h.cells.size + (q.queryCells + p.cells) := by
  obtain ⟨qmap, qnodes, hqmap, hqsize, rfl⟩ := hq
  obtain ⟨pmap, pnodes, hpmap, hpsize, rfl⟩ := hp
  subst hr
  have hquery := Run.query_ends (h := h) (r := r.clear) (c := .outside .write) hqmap hqsize
  unfold runState
  generalize Run.all (Code.queryInstructions qmap q) ⟨h, r.clear, .outside .write⟩ = out at hquery
  cases hquery with
  | mismatch hfalse => exact hfalse.elim
  | @noRoom t hlt => exact .inr (.inr ⟨t, .empty, rfl, by omega⟩)
  | @matched t ht =>
  obtain ⟨hqueried, hgrow, hcount, hsize⟩ := ht
  obtain ⟨h₁, r₁, c₁⟩ := t
  obtain ⟨c, hcap, hfresh, -⟩ := hqueried.fresh hqmap
  have hcaptured := hfresh.captured
  dsimp only at hgrow hcount hsize hcap hcaptured ⊢
  rw [hcap]
  dsimp only
  have hready : Run.Ready table h.cells.size
      ((∅ : Std.TreeSet Register).insert RegisterMap.root) 0 ⟨h₁, r₁, .outside .read⟩ := by
    refine ⟨hqueried.heap, hgrow.size_le, fun x hx => ?_⟩
    obtain rfl : x = RegisterMap.root := by simpa using Block.mem_insert.1 hx
    obtain ⟨hlt, hval⟩ := RegisterFile.load_eq_ok hqueried.root.1
    exact ⟨hlt, _, hval, hqueried.root.2⟩
  have hprogram := Run.program_ends hpmap (hcount.symm ▸ hpsize) hready
  generalize Run.all (Code.programInstructions pmap p) ⟨h₁, r₁, .outside .read⟩ = out at hprogram
  cases hprogram with
  | @matched t ht =>
    refine .inl ⟨t, c, _, rfl, ht.heap, hcaptured.grows ht.grows, ht.sound, fun {D} _ σ τ heq => ?_⟩
    obtain ⟨v, hv, hσ⟩ := hfresh.complete σ
    obtain ⟨v', hold, hv'⟩ := ht.complete hv ((hcaptured.sound hv hσ).trans heq)
    refine ⟨v', hv', fun a x hx => ?_⟩
    rw [hold x (hcaptured.var_term hx).lt_size, hσ a x hx]
  | @mismatch t ht =>
    obtain ⟨hw, hg, hnone⟩ := ht
    refine .inr (.inl ⟨t, c, _, rfl, hw, hcaptured.grows hg, fun {D} _ σ τ heq => ?_⟩)
    obtain ⟨v, hv, hσ⟩ := hfresh.complete σ
    exact hnone v hv ⟨τ, (hcaptured.sound hv hσ).trans heq⟩
  | @noRoom t hlt =>
    have hfull : Run.full h₁ = Run.full h := by rw [Run.full, Run.full, hgrow.capacity]
    refine .inr (.inr ⟨t, c, by dsimp only; rw [hfull], ?_⟩)
    have hcap := hgrow.capacity
    dsimp only at hlt
    omega

end Machine
end TermMachine
