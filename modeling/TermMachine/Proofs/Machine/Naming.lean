import TermMachine.Proofs.Machine.Answer
import TermMachine.Proofs.Term.Closure

/-! # Variables of an answer

A variable in the answer of a machine stands for the cell that its place in the answer leads to. It
has the name of a query variable that leads there, or a name made from the address of the cell, or
it marks a structure that is cut. One name stands for one cell, with one exception: a query may
spell a variable of its own like a name made from an address.
-/
namespace TermMachine

open Heap

inductive Heap.Leads (h : Heap) : Address → List Nat → Address → Prop
  | here {a b} : h.Resolves a b → Leads h a [] b
  | arg {a b t f n i path c} : h.Resolves a b → h.cells[b]? = some (.str t) →
      h.cells[t]? = some (.functor f n) → i < n.val → Leads h (t + (i + 1)) path c →
      Leads h a (i :: path) c

theorem Heap.Leads.unique {h : Heap} {a b c : Address} {path : List Nat} (hb : h.Leads a path b)
    (hc : h.Leads a path c) : b = c := by
  induction hb with
  | here hr =>
    cases hc with
    | here hr' => exact hr.unique hr'
  | arg hr hcell _ _ _ ih =>
    cases hc with
    | arg hr' hcell' _ _ hrest =>
      cases hr.cell_unique hr' hcell hcell'
      exact ih hrest

namespace Machine

inductive Answer (m : Machine) : Address → Term → Prop
  | query {a T} : m.capture.root = some a → m.queryTerm = .ok (some T) → Answer m a T
  | binding {name a bindings T} : (name, a) ∈ m.capture.vars → m.bindings = .ok bindings →
      (name, T) ∈ bindings → Answer m a T

def Shows (m : Machine) (x : String) (b : Address) : Prop :=
  ∃ a T path, m.Answer a T ∧ T.follow path = some (.var x) ∧ m.state.heap.Leads a path b

/-- The query's variable `x` is unbound and stands for the cell at `b`. -/
def Named (m : Machine) (x : String) (b : Address) : Prop :=
  m.state.heap.cells[b]? = some (.ref b) ∧
    ∃ a, (x, a) ∈ m.capture.vars ∧ m.state.heap.Resolves a b

/-- No variable of the query stands for the unbound cell at `b`, and `x` is made from `b`. -/
def Generated (m : Machine) (x : String) (b : Address) : Prop :=
  m.state.heap.cells[b]? = some (.ref b) ∧
    (∀ v ∈ m.capture.vars, ¬m.state.heap.Resolves v.2 b) ∧ x = generatedName b

/-- The name `x` marks a structure, given by its functor cell, that is cut at `b`. -/
def Cut (m : Machine) (x : String) (b : Address) : Prop :=
  ∃ t, m.state.heap.cells[b]? = some (.str t) ∧ x = cutName t

def SameVariable (m : Machine) (x : String) (b b' : Address) : Prop :=
  (b = b' ∧ m.state.heap.cells[b]? = some (.ref b)) ∨
    ∃ t, x = cutName t ∧ m.state.heap.cells[b]? = some (.str t) ∧
      m.state.heap.cells[b']? = some (.str t)

/-- In the answer one name stands for one variable. -/
def NamesIdentify (m : Machine) : Prop :=
  ∀ x b b', m.Shows x b → m.Shows x b' → m.SameVariable x b b'

theorem cutName_injective : Function.Injective cutName := by
  intro s t hst
  have hlist := congrArg String.toList hst
  simp only [cutName, String.toList_append] at hlist
  apply hexText_injective
  exact String.toList_injective (List.append_cancel_left hlist)

theorem generatedName_ne_cutName (a t : Address) : generatedName a ≠ cutName t := by
  intro heq
  have hlist := congrArg String.toList heq
  simp [generatedName, cutName] at hlist

theorem args_ofArgs (name : String) (ts : List Term) : (Term.ofArgs name ts).args = ts := by
  cases ts <;> rfl

/-- A variable that is read at a place is named by the cell that the place leads to. -/
theorem Reads.leads {names : Names} {table : Functor.Table} {h : Heap} {ancestors : List Address}
    {a : Address} {T : Term} {path : List Nat} {x : String}
    (hT : Reads names table h ancestors a T) (hx : T.follow path = some (.var x)) :
    ∃ b, h.Leads a path b ∧ (h.cells[b]? = some (.ref b) ∧ x = printedName names b ∨
      ∃ t, h.cells[b]? = some (.str t) ∧ x = cutName t) := by
  induction path generalizing ancestors a T with
  | nil =>
    have hvar : T = .var x := Option.some.inj hx
    cases hT with
    | var hr hc =>
      cases hvar
      exact ⟨_, .here hr, .inl ⟨hc, rfl⟩⟩
    | cut hr hc _ =>
      cases hvar
      exact ⟨_, .here hr, .inr ⟨_, hc, rfl⟩⟩
    | @app _ _ _ t f n name ts =>
      cases hargs : (argumentAddresses t n.val).map ts with
      | nil => simp [hargs, Term.ofArgs] at hvar
      | cons u us => simp [hargs, Term.ofArgs] at hvar
  | cons i path ih =>
    cases hT with
    | var => simp [Term.follow, Term.args] at hx
    | cut => simp [Term.follow, Term.args] at hx
    | @app _ _ b t f n name ts hr hc hnot hf hl hts =>
      rw [Term.follow, args_ofArgs, List.getElem?_map] at hx
      cases hi : (argumentAddresses t n.val)[i]? with
      | none => simp [hi] at hx
      | some c =>
        simp only [hi, Option.map_some] at hx
        obtain ⟨hlt, hget⟩ := List.getElem?_eq_some_iff.1 hi
        obtain rfl : t + (i + 1) = c := by simpa [argumentAddresses] using hget
        obtain ⟨d, hlead, hd⟩ := ih (hts _ (List.mem_of_getElem? hi)) hx
        have hin : i < n.val := by simpa [argumentAddresses] using hlt
        exact ⟨d, .arg hr hc hf hin hlead, hd⟩

section Answer

variable {m : Machine} {k root : Address} {q : Term} {N : Names} {read : Address → Term}
  {x : String} {a b b' : Address} {T : Term}

theorem Answer.reads (hcap : Captured m.functors k q m.state.heap m.capture root)
    (hback : ReadBack k m root N read) (hT : m.Answer a T) :
    Reads N m.functors m.state.heap [] a T := by
  cases hT with
  | query hroot hterm =>
    rw [hcap.root_eq, Option.some.injEq] at hroot
    rw [hback.queryTerm, Except.ok.injEq, Option.some.injEq] at hterm
    subst hroot hterm
    exact hback.reads _ hcap.root_term
  | binding hvar hbindings hmem =>
    rw [hback.bindings, Except.ok.injEq] at hbindings
    subst hbindings
    obtain ⟨⟨name, c⟩, hc, heq⟩ := List.mem_map.1 hmem
    cases heq
    obtain rfl := hcap.var_unique hc hvar
    exact hback.reads _ (hcap.var_term hvar)

/-- An unbound reference is printed as the first variable that stands for it, or by its address. -/
theorem named_or_generated (hN : namesFrom m.state.heap m.capture.vars ∅ = .ok N) {b : Address}
    (hb : m.state.heap.cells[b]? = some (.ref b)) :
    m.Named (printedName N b) b ∨ m.Generated (printedName N b) b := by
  rw [printedName, Std.TreeMap.getD_eq_getD_getElem?]
  cases hname : N[b]? with
  | none =>
    exact .inr ⟨hb, fun v hv hr => namesFrom_ne_none hN (.inr ⟨v, hv, hr⟩) hname, rfl⟩
  | some name =>
    rcases namesFrom_mem hN hname with hempty | hvar
    · simp at hempty
    · exact .inl ⟨hb, hvar⟩

/-- A variable of an answer has its name in one of three ways. -/
theorem Shows.cases (hcap : Captured m.functors k q m.state.heap m.capture root)
    (hback : ReadBack k m root N read) (hx : m.Shows x b) :
    m.Named x b ∨ m.Generated x b ∨ m.Cut x b := by
  obtain ⟨a, T, path, hT, hfollow, hleads⟩ := hx
  obtain ⟨c, hc, hkind⟩ := (hT.reads hcap hback).leads hfollow
  obtain rfl := hc.unique hleads
  rcases hkind with ⟨hcell, rfl⟩ | hcut
  · rcases named_or_generated hback.names hcell with hnamed | hgenerated
    · exact .inl hnamed
    · exact .inr (.inl hgenerated)
  · exact .inr (.inr hcut)

theorem Named.unique (hcap : Captured m.functors k q m.state.heap m.capture root)
    (hb : m.Named x b) (hb' : m.Named x b') : b = b' := by
  obtain ⟨-, a, ha, hr⟩ := hb
  obtain ⟨-, a', ha', hr'⟩ := hb'
  obtain rfl := hcap.var_unique ha ha'
  exact hr.unique hr'

/-- Two variables of one name are the same, or one of them is the query's own and its name is
spelled like the one made for the other. -/
theorem sameVariable_or_alike (hcap : Captured m.functors k q m.state.heap m.capture root)
    (hback : ReadBack k m root N read) (hb : m.Shows x b) (hb' : m.Shows x b') :
    m.SameVariable x b b' ∨ (m.Named x b ∧ (m.Generated x b' ∨ m.Cut x b')) ∨
      m.Named x b' ∧ (m.Generated x b ∨ m.Cut x b) := by
  rcases hb.cases hcap hback with hnamed | hmade
  · rcases hb'.cases hcap hback with hnamed' | hmade'
    · exact .inl (.inl ⟨hnamed.unique hcap hnamed', hnamed.1⟩)
    · exact .inr (.inl ⟨hnamed, hmade'⟩)
  · rcases hb'.cases hcap hback with hnamed' | hmade'
    · exact .inr (.inr ⟨hnamed', hmade⟩)
    · left
      rcases hmade with ⟨hcell, -, rfl⟩ | ⟨t, hcell, rfl⟩
      · rcases hmade' with ⟨-, -, heq⟩ | ⟨t, -, heq⟩
        · exact .inl ⟨generatedName_injective heq, hcell⟩
        · exact absurd heq (generatedName_ne_cutName b t)
      · rcases hmade' with ⟨-, -, heq⟩ | ⟨t', hcell', heq⟩
        · exact absurd heq.symm (generatedName_ne_cutName b' t)
        · obtain rfl := cutName_injective heq
          exact .inr ⟨t, rfl, hcell, hcell'⟩

end Answer

variable {capacities : Capacities} {calls : List Call} {q p : Term} {query program : Code}

/-- After a run that matches, every variable of the answer stands for one cell, and one name stands
for one variable unless it is the name of a query variable that is unbound and spelled like the name
made for the other. -/
theorem run_names_identify (hq : CompiledQuery capacities calls q query)
    (hp : CompiledProgram capacities calls p program)
    (hyes : (((create capacities).afterAll calls).run query program).1 = .ok true) {n : Machine}
    (hn : n = (((create capacities).afterAll calls).run query program).2) :
    (∃ T bindings, n.queryTerm = .ok (some T) ∧ n.bindings = .ok bindings) ∧
      (∀ a T path x, n.Answer a T → T.follow path = some (.var x) →
        ∃! b, n.state.heap.Leads a path b) ∧
      ∀ x b b', n.Shows x b → n.Shows x b' → n.SameVariable x b b' ∨
        x ∈ q.vars ∧ (n.Named x b ∧ (n.Generated x b' ∨ n.Cut x b') ∨
          n.Named x b' ∧ (n.Generated x b ∨ n.Cut x b)) := by
  generalize hm : (create capacities).afterAll calls = m at hyes hn
  rcases run_cases hq hp hm.symm hn with ⟨-, root, hans⟩ | ⟨hfalse, -⟩ | ⟨hfull, -⟩
  · have hfunctors : m.functors = n.functors := by rw [hn, run_eq]
    rw [hfunctors] at hans
    have hcap := hans.captured
    obtain ⟨N, read, hback⟩ := hcap.readBack hans.heap
    refine ⟨⟨_, _, hback.queryTerm, hback.bindings⟩, fun a T path x hT hx => ?_,
      fun x b b' hb hb' => ?_⟩
    · obtain ⟨b, hb, -⟩ := (hT.reads hcap hback).leads hx
      exact ⟨b, hb, fun c hc => hc.unique hb⟩
    · rcases sameVariable_or_alike hcap hback hb hb' with hsame | halike
      · exact .inl hsame
      · have hmem : x ∈ q.vars := by
          rcases halike with ⟨⟨-, a, ha, -⟩, -⟩ | ⟨⟨-, a, ha, -⟩, -⟩
          · exact hcap.var_mem.2 ⟨a, ha⟩
          · exact hcap.var_mem.2 ⟨a, ha⟩
        exact .inr ⟨hmem, halike⟩
  · simp [hyes] at hfalse
  · simp [hyes] at hfull

/-- A query that spells a variable like the name of a cell of the program. -/
theorem run_names_identify_spelled :
    let q : Term := .app "f" [.var "_G0006", .var "X"]
    let p : Term := .app "f" [.var "A", .app "g" [.var "B"]]
    let query : Code :=
      ⟨[.putStructure 0 2 0, .setVariable 1, .setVariable 2], [("X", 2), ("_G0006", 1)]⟩
    let program : Code := ⟨[.getStructure 0 2 0, .unifyVariable 1, .unifyVariable 2,
      .getStructure 1 1 2, .unifyVariable 3], [("A", 1), ("B", 3)]⟩
    let calls : List Call := [.query q, .program p]
    let n := (((create ⟨4, 20, 7, 2⟩).afterAll calls).run query program).2
    CompiledQuery ⟨4, 20, 7, 2⟩ calls q query ∧ CompiledProgram ⟨4, 20, 7, 2⟩ calls p program ∧
      (((create ⟨4, 20, 7, 2⟩).afterAll calls).run query program).1 = .ok true ∧
      (∃ T bindings, n.queryTerm = .ok (some T) ∧ n.bindings = .ok bindings) ∧
      (∀ a T path x, n.Answer a T → T.follow path = some (.var x) →
        ∃! b, n.state.heap.Leads a path b) ∧
      ∀ x b b', n.Shows x b → n.Shows x b' → n.SameVariable x b b' ∨
        x ∈ q.vars ∧ (n.Named x b ∧ (n.Generated x b' ∨ n.Cut x b') ∨
          n.Named x b' ∧ (n.Generated x b ∨ n.Cut x b)) := by
  intro q p query program calls n
  have hq : CompiledQuery ⟨4, 20, 7, 2⟩ calls q query :=
    ⟨[], [.program p], rfl, by simp, by decide +kernel⟩
  have hp : CompiledProgram ⟨4, 20, 7, 2⟩ calls p program :=
    ⟨[.query q], [], rfl, by simp, by decide +kernel⟩
  have hyes : (((create ⟨4, 20, 7, 2⟩).afterAll calls).run query program).1 = .ok true := by
    decide +kernel
  exact ⟨hq, hp, hyes, run_names_identify hq hp hyes rfl⟩

/-- A query that spells its variables like the names made for a variable of the program and for a
structure inside itself. -/
theorem run_names_collide :
    let q : Term :=
      .app "f" [.var "_G0009", .var "_S000B", .var "X", .var "Y", .var "Y"]
    let p : Term :=
      .app "f" [.var "A", .var "B", .app "g" [.var "C"], .app "h" [.var "D"], .var "D"]
    let query : Code := ⟨[.putStructure 0 5 0, .setVariable 1, .setVariable 2, .setVariable 3,
      .setVariable 4, .setValue 4], [("X", 3), ("Y", 4), ("_G0009", 1), ("_S000B", 2)]⟩
    let program : Code := ⟨[.getStructure 0 5 0, .unifyVariable 1, .unifyVariable 2,
      .unifyVariable 3, .unifyVariable 4, .unifyVariable 5, .getStructure 1 1 3, .unifyVariable 6,
      .getStructure 2 1 4, .unifyValue 5], [("A", 1), ("B", 2), ("C", 6), ("D", 5)]⟩
    let calls : List Call := [.query q, .program p]
    let n := (((create ⟨7, 20, 13, 3⟩).afterAll calls).run query program).2
    CompiledQuery ⟨7, 20, 13, 3⟩ calls q query ∧ CompiledProgram ⟨7, 20, 13, 3⟩ calls p program ∧
      (((create ⟨7, 20, 13, 3⟩).afterAll calls).run query program).1 = .ok true ∧
      (n.Shows "_G0009" 2 ∧ n.Shows "_G0009" 9) ∧ (n.Shows "_S000B" 3 ∧ n.Shows "_S000B" 10) ∧
      ¬n.NamesIdentify := by
  intro q p query program calls n
  have hq : CompiledQuery ⟨7, 20, 13, 3⟩ calls q query :=
    ⟨[], [.program p], rfl, by simp, by decide +kernel⟩
  have hp : CompiledProgram ⟨7, 20, 13, 3⟩ calls p program :=
    ⟨[.query q], [], rfl, by simp, by decide +kernel⟩
  have hyes : (((create ⟨7, 20, 13, 3⟩).afterAll calls).run query program).1 = .ok true := by
    decide +kernel
  have hanswer : n.Answer 0 (.app "f" [.var "_G0009", .var "_S000B", .app "g" [.var "_G0009"],
      .app "h" [.var "_S000B"], .app "h" [.var "_S000B"]]) :=
    .query (by decide +kernel) (by decide +kernel)
  -- the arguments of the whole term lie behind the functor cell at 1
  have harg : ∀ {i path b}, i < 5 → n.state.heap.Leads (1 + (i + 1)) path b →
      n.state.heap.Leads 0 (i :: path) b := by
    intro i path b hi hrest
    exact .arg (f := 0) (n := 5) (resolves_of_deref (b := 0) (by decide +kernel))
      (by decide +kernel) (by decide +kernel) hi hrest
  have hvar : ∀ {a b}, n.state.heap.deref a = .ok b → n.state.heap.Leads a [] b :=
    fun hd => .here (resolves_of_deref hd)
  have hG : n.Shows "_G0009" 2 :=
    ⟨0, _, [0], hanswer, rfl, harg (by decide) (hvar (by decide +kernel))⟩
  have hG' : n.Shows "_G0009" 9 := by
    refine ⟨0, _, [2, 0], hanswer, rfl, harg (by decide) ?_⟩
    exact .arg (t := 8) (f := 1) (n := 1) (resolves_of_deref (b := 7) (by decide +kernel))
      (by decide +kernel) (by decide +kernel) (by decide) (hvar (by decide +kernel))
  have hS : n.Shows "_S000B" 3 :=
    ⟨0, _, [1], hanswer, rfl, harg (by decide) (hvar (by decide +kernel))⟩
  have hS' : n.Shows "_S000B" 10 := by
    refine ⟨0, _, [3, 0], hanswer, rfl, harg (by decide) ?_⟩
    exact .arg (t := 11) (f := 2) (n := 1) (resolves_of_deref (b := 10) (by decide +kernel))
      (by decide +kernel) (by decide +kernel) (by decide) (hvar (by decide +kernel))
  refine ⟨hq, hp, hyes, ⟨hG, hG'⟩, ⟨hS, hS'⟩, fun hall => ?_⟩
  rcases hall _ _ _ hG hG' with ⟨heq, -⟩ | ⟨t, -, hcell, -⟩
  · exact absurd heq (by decide)
  · have hunbound : n.state.heap.cells[2]? = some (.ref 2) := by decide +kernel
    rw [hunbound] at hcell
    cases hcell

end Machine
end TermMachine
