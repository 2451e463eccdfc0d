import TermMachine.Proofs.Machine.Answer
import TermMachine.Proofs.Machine.Vocabulary
import TermMachine.Proofs.Source.Printing

/-! # Answers are sources

When a query and a program come from sources, every name in an answer is a word: the names of
structures are names of the two terms, and a variable has a name of the query or one made from an
address. So what is printed of an answer parses as the answer.
-/
namespace TermMachine

open Heap Source

theorem wordCharacter_digit {n : Nat} (hn : n < 16) : WordCharacter n.digitChar.toUpper := by
  have hall : ∀ i : Fin 16, isIdentifier i.val.digitChar.toUpper = true := by decide
  exact isIdentifier_iff.1 (hall ⟨n, hn⟩)

theorem wordCharacter_of_mem_hexText {n : Nat} {c : Char} (hc : c ∈ (hexText n).toList) :
    WordCharacter c := by
  rw [hexText, String.toList_ofList, List.leftpad, List.mem_append] at hc
  have hdigits := digits_induction (P := fun _ cs => ∀ c ∈ cs, WordCharacter c)
    (fun d hd => List.forall_mem_singleton.2 (wordCharacter_digit hd))
    (fun n d cs hd ih => List.forall_mem_append.2
      ⟨ih, List.forall_mem_singleton.2 (wordCharacter_digit hd)⟩) n
  rcases hc with hzero | hdigit
  · obtain ⟨-, rfl⟩ := List.mem_replicate.1 hzero
    exact isIdentifier_iff.1 rfl
  · exact hdigits c hdigit

theorem Source.IsWord.append_hexText {start : Char → Prop} {label : String}
    (h : IsWord start label) (n : Nat) : IsWord start (label ++ hexText n) := by
  obtain ⟨c, cs, heq, hc, hcs⟩ := h
  refine ⟨c, cs ++ (hexText n).toList, by simp [heq], hc, fun d hd => ?_⟩
  rcases List.mem_append.1 hd with hd | hd
  · exact hcs d hd
  · exact wordCharacter_of_mem_hexText hd

namespace Machine

theorem isWord_generatedName (a : Address) : IsWord VariableStart (generatedName a) := by
  have hlabel : IsWord VariableStart "_G" :=
    ⟨'_', ['G'], rfl, .inr rfl, by simp [← isIdentifier_iff, isIdentifier]⟩
  exact hlabel.append_hexText a

theorem isWord_cutName (t : Address) : IsWord VariableStart (cutName t) := by
  have hlabel : IsWord VariableStart "_S" :=
    ⟨'_', ['S'], rfl, .inr rfl, by simp [← isIdentifier_iff, isIdentifier]⟩
  exact hlabel.append_hexText t

section Reads

variable {h : Heap} {table : Functor.Table} {k a : Address} {ancestors : List Address} {T : Term}
  {vars : List (String × Address)} {N : Names}

theorem isWord_printedName (hN : namesFrom h vars ∅ = .ok N)
    (hvars : ∀ v ∈ vars, IsWord VariableStart v.1) (a : Address) :
    IsWord VariableStart (printedName N a) := by
  rw [printedName, Std.TreeMap.getD_eq_getD_getElem?]
  cases ha : N[a]? with
  | none => exact isWord_generatedName a
  | some name =>
    rcases namesFrom_mem hN ha with hempty | ⟨x, hx, -⟩
    · simp at hempty
    · exact hvars _ hx

/-- What is read from address `k` on is well spelled when the names of variables and the names of
the structures built there are words. -/
theorem Reads.wellSpelled (hT : Reads N table h ancestors a T) (hw : h.WellBuilt table k 0)
    (hk : k ≤ a) (hnames : ∀ b, IsWord VariableStart (printedName N b))
    (hfunctors : ∀ {t : Address} {f : FunctorId} {n : Arity} {functor : Functor}, k ≤ t →
      h.cells[t]? = some (.functor f n) → table.lookup f = some functor →
      IsWord NameStart functor.name) : WellSpelled T := by
  induction hT with
  | var => exact .var (hnames _)
  | cut => exact .var (isWord_cutName _)
  | app ts hr hc _ hf hl _ ih =>
    have hkt := (hw.str_functor (hw.resolves_le hr hk) hc).1
    refine .ofArgs (hfunctors hkt hf hl) fun u hu => ?_
    obtain ⟨c, hc, rfl⟩ := List.mem_map.1 hu
    exact ih c hc (hw.hasTerm_of_mem hkt hf hc).1

end Reads

end Machine

theorem Source.WellSpelled.functorNames {t : Term} (h : WellSpelled t) {name : String}
    (hname : name ∈ t.functorNames) : IsWord NameStart name := by
  induction h with
  | var => cases hname
  | atom hword =>
    obtain rfl := List.mem_singleton.1 hname
    exact hword
  | app hword _ ih =>
    rcases List.mem_cons.1 hname with rfl | hargs
    · exact hword
    · obtain ⟨u, hu, hmem⟩ := Term.mem_functorNamesAll.1 hargs
      exact ih u hu hmem

namespace Machine

variable {capacities : Capacities} {calls : List Call} {q p : Term} {query program : Code}

theorem run_wellSpelled (hsq : WellSpelled q) (hsp : WellSpelled p)
    (hq : CompiledQuery capacities calls q query)
    (hp : CompiledProgram capacities calls p program) {m n : Machine}
    (hm : m = (create capacities).afterAll calls) (hn : n = (m.run query program).2)
    {root : Address} {N : Names} {read : Address → Term}
    (hw : n.state.heap.WellBuilt n.functors m.state.heap.cells.size 0)
    (hcap : Captured n.functors m.state.heap.cells.size q n.state.heap n.capture root)
    (hback : ReadBack m.state.heap.cells.size n root N read) {a : Address}
    (ha : HasTerm m.state.heap.cells.size n.state.heap a) : WellSpelled (read a) := by
  have hvars : ∀ v ∈ n.capture.vars, IsWord VariableStart v.1 := fun v hv =>
    hsq.vars (hcap.var_mem.2 ⟨v.2, hv⟩)
  refine (hback.reads a ha).wellSpelled hw ha.1 (isWord_printedName hback.names hvars) ?_
  intro t f k functor hkt hf hl
  rcases run_functorName hq hp hm hn hkt hf hl with hquery | hprogram
  · exact hsq.functorNames hquery
  · exact hsp.functorNames hprogram

/-- After a run that answers yes or no, the query's term and the bindings of its variables can be
read back, and each parses from its printed form as itself. -/
theorem run_answer_parses {K : Combinators} (hK : K.Lawful) {source₁ source₂ : String}
    (hs₁ : parseWith K source₁ = .ok q) (hs₂ : parseWith K source₂ = .ok p)
    (hq : CompiledQuery capacities calls q query)
    (hp : CompiledProgram capacities calls p program) {answer : Bool}
    (hends : (((create capacities).afterAll calls).run query program).1 = .ok answer)
    {n : Machine} (hn : n = (((create capacities).afterAll calls).run query program).2) :
    ∃ T bindings, n.queryTerm = .ok (some T) ∧ n.bindings = .ok bindings ∧
      parseWith K T.text = .ok T ∧ ∀ v ∈ bindings, parseWith K v.2.text = .ok v.2 := by
  generalize hm : (create capacities).afterAll calls = m at hends hn
  obtain ⟨hw, root, hcap⟩ := run_captured hq hp hm.symm hn hends
  obtain ⟨N, read, hback⟩ := hcap.readBack hw
  have hspelled : ∀ {a}, HasTerm m.state.heap.cells.size n.state.heap a → WellSpelled (read a) :=
    run_wellSpelled (wellSpelled_of_parse hK hs₁) (wellSpelled_of_parse hK hs₂) hq hp hm.symm hn hw
      hcap hback
  refine ⟨_, _, hback.queryTerm, hback.bindings, (hspelled hcap.root_term).parse_text hK, ?_⟩
  intro v hv
  obtain ⟨w, hmem, rfl⟩ := List.mem_map.1 hv
  exact (hspelled (hcap.var_term hmem)).parse_text hK

/-- A cyclic answer, in which a structure is cut and a variable of the program has no name. -/
theorem run_answer_parses_cyclic :
    let q : Term := .app "f" [.var "X", .app "g" [.var "X"], .var "W"]
    let p : Term := .app "f" [.var "Y", .var "Y", .app "h" [.var "Z"]]
    let query : Code := ⟨[.putStructure 1 1 2, .setVariable 1, .putStructure 0 3 0, .setValue 1,
      .setValue 2, .setVariable 3], [("W", 3), ("X", 1)]⟩
    let program : Code := ⟨[.getStructure 0 3 0, .unifyVariable 1, .unifyValue 1, .unifyVariable 2,
      .getStructure 2 1 2, .unifyVariable 3], [("Y", 1), ("Z", 3)]⟩
    let calls : List Call := [.query q, .program p]
    let n := (((create ⟨7, 20, 20, 3⟩).afterAll calls).run query program).2
    Combinators.scanners.Lawful ∧
      parse "f(X, g(X), W)" = .ok q ∧ parse "f(Y, Y, h(Z))" = .ok p ∧
      CompiledQuery ⟨7, 20, 20, 3⟩ calls q query ∧ CompiledProgram ⟨7, 20, 20, 3⟩ calls p program ∧
      (((create ⟨7, 20, 20, 3⟩).afterAll calls).run query program).1 = .ok true ∧
      n.queryTerm = .ok (some (.app "f" [.app "g" [.var "_S0001"], .app "g" [.var "_S0001"],
        .app "h" [.var "_G000A"]])) ∧
      ∃ T bindings, n.queryTerm = .ok (some T) ∧ n.bindings = .ok bindings ∧
        parse T.text = .ok T ∧ ∀ v ∈ bindings, parse v.2.text = .ok v.2 := by
  intro q p query program calls n
  have hs₁ : parse "f(X, g(X), W)" = .ok q := by rfl
  have hs₂ : parse "f(Y, Y, h(Z))" = .ok p := by rfl
  have hq : CompiledQuery ⟨7, 20, 20, 3⟩ calls q query :=
    ⟨[], [.program p], rfl, by simp, by decide +kernel⟩
  have hp : CompiledProgram ⟨7, 20, 20, 3⟩ calls p program :=
    ⟨[.query q], [], rfl, by simp, by decide +kernel⟩
  have hyes : (((create ⟨7, 20, 20, 3⟩).afterAll calls).run query program).1 = .ok true := by
    decide +kernel
  exact ⟨Combinators.scanners_lawful, hs₁, hs₂, hq, hp, hyes, by decide +kernel,
    run_answer_parses Combinators.scanners_lawful hs₁ hs₂ hq hp hyes rfl⟩

end Machine
end TermMachine
