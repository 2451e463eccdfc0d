import TermMachine.Proofs.External.CommandLine
import TermMachine.Proofs.Session.Dialogue
import TermMachine.Proofs.Source.Trimming

/-! # One pair is a short session

The program answers one pair of terms from its command line, or pairs of lines until the input ends.
On the same pair the two say the same: the session takes away the blanks around a line, which the
reader skips anyway, and resets a machine that is new. They part where a term does not compile,
which ends the program but is an answer in a session.
-/
namespace TermMachine.Session

namespace Arguments

theorem parse?_eq_some_iff {args : List String} {a : Arguments} :
    parse? args = some a ↔ CommandLine.read declared args = .ok a := by
  rw [parse?]
  cases CommandLine.read declared args <;> simp [Except.toOption]

theorem parse?_append_pair {args : List String} {a : Arguments} {query program : String}
    (hparse : parse? args = some a) (hnone : a.terms = [])
    (h : CommandLine.AreTerms declared [query, program]) :
    parse? (args ++ [query, program]) = some ⟨[query, program], a.flags, a.sizes⟩ := by
  obtain ⟨terms, flags, sizes⟩ := a
  obtain rfl : terms = [] := hnone
  rw [parse?_eq_some_iff] at hparse ⊢
  exact CommandLine.add_append h hparse

structure SameOptions (a b : Arguments) : Prop where
  has : ∀ flag, a.has flag = b.has flag
  capacities : a.capacities = b.capacities

end Arguments

theorem ofChars_of_parse {text : String} {t : Term} (h : Source.parse text = .ok t) :
    CommandLine.Argument.ofChars Arguments.declared text.toList = .term := by
  obtain ⟨c, cs, htext, hc⟩ := Source.exists_head_of_parse Source.Combinators.scanners_lawful h
  rw [htext]
  unfold CommandLine.Argument.ofChars
  split
  · rename_i heq
    exact absurd (List.cons.inj heq).1 hc
  · rename_i heq
    exact absurd (List.cons.inj heq).1 hc
  · rename_i heq
    exact absurd (List.cons.inj heq).1 hc
  · rfl

/-- One of the terms does not compile; the message says which, and the cause why. -/
inductive FailsToCompile (capacities : Capacities) (q p : Term) : String → CompileError → Prop
  | query {cause : CompileError} : ((Machine.create capacities).compileQuery q).1 = .error cause →
      FailsToCompile capacities q p "Failed to compile query" cause
  | program {query : Code} {cause : CompileError} :
      ((Machine.create capacities).compileQuery q).1 = .ok query →
      (((Machine.create capacities).compileQuery q).2.compileProgram p).1 = .error cause →
      FailsToCompile capacities q p "Failed to compile program" cause

def compiled (capacities : Capacities) (q p : Term) : Machine :=
  (((Machine.create capacities).compileQuery q).2.compileProgram p).2

structure Compiles (capacities : Capacities) (q p : Term) (query program : Code) : Prop where
  query : ((Machine.create capacities).compileQuery q).1 = .ok query
  program : (((Machine.create capacities).compileQuery q).2.compileProgram p).1 = .ok program

inductive FailsToRun (capacities : Capacities) (q p : Term) : Fault → Prop
  | run {query program : Code} {fault : Fault} : Compiles capacities q p query program →
      ((compiled capacities q p).run query program).1 = .error fault →
      FailsToRun capacities q p fault
  | bindings {query program : Code} {fault : Fault} : Compiles capacities q p query program →
      ((compiled capacities q p).run query program).1 = .ok true →
      ((compiled capacities q p).run query program).2.bindings = .error fault →
      FailsToRun capacities q p fault

section Pair

variable {capacities : Capacities} {q p : Term} {message : String} {cause : CompileError}
  {fault : Fault}

theorem reset_create (capacities : Capacities) :
    (Machine.create capacities).reset = Machine.create capacities :=
  Machine.reset_afterAll capacities []

theorem FailsToCompile.unifyPair (h : FailsToCompile capacities q p message cause)
    (settings : Settings) : ∃ e : PairError, e.message = message ∧ e.cause? = some cause ∧
      (unifyPair settings q p (Machine.create capacities)).1 = ("", some e) := by
  rw [Session.unifyPair, reset_create]
  cases h with
  | query hq =>
    refine ⟨.query cause, rfl, rfl, ?_⟩
    generalize (Machine.create capacities).compileQuery q = out at hq
    obtain ⟨result, m⟩ := out
    obtain rfl : result = .error cause := hq
    rfl
  | program hq hp =>
    refine ⟨.program cause, rfl, rfl, ?_⟩
    generalize (Machine.create capacities).compileQuery q = out at hq hp
    obtain ⟨result, m⟩ := out
    obtain rfl : result = .ok _ := hq
    dsimp only at hp ⊢
    generalize m.compileProgram p = out at hp
    obtain ⟨result, n⟩ := out
    obtain rfl : result = .error cause := hp
    rfl

/-- A pair whose terms compile ends as the run of its code. -/
theorem Compiles.unifyPair {query program : Code} (h : Compiles capacities q p query program)
    (settings : Settings) : unifyPair settings q p (Machine.create capacities) =
      runPair settings query program (compiled capacities q p) := by
  obtain ⟨hq, hp⟩ := h
  rw [Session.unifyPair, reset_create, compiled]
  generalize (Machine.create capacities).compileQuery q = out at hq hp ⊢
  obtain ⟨result, m⟩ := out
  obtain rfl : result = .ok query := hq
  dsimp only at hp ⊢
  generalize m.compileProgram p = out at hp ⊢
  obtain ⟨result, n⟩ := out
  obtain rfl : result = .ok program := hp
  rfl

theorem FailsToRun.unifyPair (h : FailsToRun capacities q p fault) (settings : Settings) :
    ∃ output, (unifyPair settings q p (Machine.create capacities)).1 =
      (output, some (.run fault)) := by
  cases h with
  | run hcompiles hrun =>
    rw [hcompiles.unifyPair, runPair]
    generalize (compiled capacities q p).run _ _ = out at hrun
    obtain ⟨result, n⟩ := out
    obtain rfl : result = .error fault := hrun
    exact ⟨_, rfl⟩
  | bindings hcompiles hrun hbindings =>
    rw [hcompiles.unifyPair, runPair]
    generalize (compiled capacities q p).run _ _ = out at hrun hbindings
    obtain ⟨result, n⟩ := out
    obtain rfl : result = .ok true := hrun
    dsimp only at hbindings ⊢
    rw [hbindings]
    exact ⟨_, rfl⟩

/-- A pair has an answer, or it fails in one of the two ways. -/
theorem unifyPair_cases (settings : Settings) (capacities : Capacities) (q p : Term) :
    (∃ output, (unifyPair settings q p (Machine.create capacities)).1 = (output, none)) ∨
    (∃ message cause, FailsToCompile capacities q p message cause) ∨
    ∃ fault, FailsToRun capacities q p fault := by
  cases hq : ((Machine.create capacities).compileQuery q).1 with
  | error cause => exact .inr (.inl ⟨_, cause, .query hq⟩)
  | ok query =>
  cases hp : (((Machine.create capacities).compileQuery q).2.compileProgram p).1 with
  | error cause => exact .inr (.inl ⟨_, cause, .program hq hp⟩)
  | ok program =>
  have hcompiles : Compiles capacities q p query program := ⟨hq, hp⟩
  rw [hcompiles.unifyPair, runPair]
  rcases hrun : (compiled capacities q p).run query program with ⟨fault | answer, n⟩
  · exact .inr (.inr ⟨fault, .run hcompiles (congrArg Prod.fst hrun)⟩)
  · cases answer with
    | false => exact .inl ⟨_, rfl⟩
    | true =>
      dsimp only
      cases hbindings : n.bindings with
      | error fault =>
        have hyes := congrArg Prod.fst hrun
        exact .inr (.inr ⟨fault, .bindings hcompiles hyes (by rw [hrun, hbindings])⟩)
      | ok bindings => exact .inl ⟨_, rfl⟩

end Pair

namespace Dialogue

variable {d : Dialogue} {text : String} {t : Term}

/-- A line that holds a term, with any blanks around it. -/
theorem line_of_parse (d : Dialogue) (h : Source.parse text = .ok t) :
    d.line text =
      match d.stage with
      | .query => ⟨"", "", .ok (d.await (.program t))⟩
      | .program query => d.answer query t := by
  have htrimmed : Source.parse (String.ofList (Source.trimBlanks text.toList)) = .ok t :=
    Source.parse_trimBlanks Source.Combinators.scanners_lawful h
  unfold line
  cases htrim : Source.trimBlanks text.toList with
  | nil =>
    rw [htrim] at htrimmed
    cases htrimmed
  | cons c cs =>
    rw [htrim] at htrimmed
    dsimp only [source]
    rw [htrimmed]
    cases d.stage with
    | query => rfl
    | program query => rfl

end Dialogue

def aloneOutcome : String × Option PairError → Outcome
  | (output, none) => ⟨0, output, "", none⟩
  | (output, some e) => ⟨1, output, "", some e.report⟩

def sessionOutcome : String × Option PairError → Outcome
  | (output, none) => ⟨0, "?- :- " ++ output ++ "?- \n", "", none⟩
  | (output, some e) =>
    match e.cause? with
    | some cause =>
      ⟨0, "?- :- " ++ (output ++ (e.message ++ ": " ++ cause.message ++ "\n")) ++ "?- \n", "", none⟩
    | none => ⟨1, "?- :- " ++ output, "", some e.report⟩

section Outcomes

variable {settings : Settings} {capacities : Capacities} {query program : String} {q p : Term}

theorem oneShot_of_parse (hq : Source.parse query = .ok q) (hp : Source.parse program = .ok p) :
    oneShot settings capacities query program =
      aloneOutcome (unifyPair settings q p (Machine.create capacities)).1 := by
  unfold oneShot
  simp only [hq, hp]
  rcases unifyPair settings q p (Machine.create capacities) with ⟨⟨output, _ | e⟩, m⟩
  · rfl
  · rfl

theorem dialogue_of_parse (hq : Source.parse query = .ok q) (hp : Source.parse program = .ok p) :
    Dialogue.outcome ⟨settings, Machine.create capacities, .query⟩ [query, program] =
      sessionOutcome (unifyPair settings q p (Machine.create capacities)).1 := by
  have hprompts : "?- :- " = "?- " ++ ":- " := rfl
  have hlast : "?- \n" = "?- " ++ "\n" := rfl
  rw [Dialogue.outcome_cons, Dialogue.line_of_parse _ hq]
  dsimp only [Dialogue.await]
  rw [Dialogue.outcome_cons, Dialogue.line_of_parse _ hp]
  dsimp only [Dialogue.answer]
  rcases unifyPair settings q p (Machine.create capacities) with ⟨⟨output, _ | e⟩, m⟩
  · simp only [Dialogue.outcome, Dialogue.prompt, Outcome.behind, sessionOutcome, hprompts, hlast,
      String.append_empty, String.append_assoc]
  · cases he : e.cause? with
    | none =>
      simp only [Dialogue.prompt, Outcome.behind, sessionOutcome, he, hprompts,
        String.append_empty, String.append_assoc]
    | some cause =>
      simp only [Dialogue.outcome, Dialogue.prompt, Outcome.behind, sessionOutcome, he, hprompts,
        hlast, String.append_empty, String.append_assoc]

theorem linesOf_line {text : List Char} (h : '\n' ∉ text) : linesOf (text ++ ['\n']) = [text] := by
  induction text with
  | nil => rfl
  | cons c text ih =>
    rw [List.mem_cons, not_or] at h
    rw [List.cons_append, linesOf, if_neg (Ne.symm h.1), ih h.2]

theorem inputLines_pair (hq : '\n' ∉ query.toList) (hp : '\n' ∉ program.toList) :
    inputLines (query ++ "\n" ++ program ++ "\n") = [query, program] := by
  have hinput : (query ++ "\n" ++ program ++ "\n").toList =
      query.toList ++ '\n' :: (program.toList ++ ['\n']) := by
    simp [String.toList_append]
  rw [inputLines, hinput, linesOf_append, linesOf_line hq, linesOf_line hp]
  simp [String.ofList_toList]

end Outcomes

section Modes

variable {args : List String} {a b : Arguments} {query program : String}

theorem Arguments.SameOptions.settings_eq (h : a.SameOptions b) : a.settings = b.settings := by
  rw [settings, settings, h.has, h.has]

theorem outcome_of_pair (h : Arguments.parse? args = some a) (hterms : a.terms = [query, program])
    (input : String) : outcome args input = oneShot a.settings a.capacities query program := by
  rw [outcome, task, Arguments.parse?_eq_some_iff.1 h]
  dsimp only
  rw [hterms]

theorem outcome_of_none (h : Arguments.parse? args = some a) (hterms : a.terms = [])
    (input : String) : outcome args input =
      Dialogue.outcome ⟨a.settings, Machine.create a.capacities, .query⟩ (inputLines input) := by
  rw [outcome, task, Arguments.parse?_eq_some_iff.1 h]
  dsimp only
  rw [hterms]
  rfl

/-- A pair on the command line and the same pair as the input of a session, with the same options.
An answer is printed alike, between the prompts of the session. A term that does not compile ends
the program, but the session prints the message and the cause on one line. A fault ends both with
the same error, and nothing else makes the program fail. The two terms may stand behind the
arguments of the session, or wherever a command line takes them. -/
theorem outcome_pair_agrees {options : List String} (hoptions : Arguments.parse? options = some a)
    (hnone : a.terms = []) {q p : Term} (hq : Source.parse query = .ok q)
    (hp : Source.parse program = .ok p) (hqline : '\n' ∉ query.toList)
    (hpline : '\n' ∉ program.toList) :
    (∃ b, Arguments.parse? (options ++ [query, program]) = some b ∧
      b.terms = [query, program] ∧ a.SameOptions b) ∧
    ∀ args b input, Arguments.parse? args = some b → b.terms = [query, program] →
      a.SameOptions b →
      let alone := outcome args input
      let session := outcome options (query ++ "\n" ++ program ++ "\n")
      (alone.code = 0 → alone = ⟨0, alone.output, "", none⟩ ∧
        session = ⟨0, "?- :- " ++ alone.output ++ "?- \n", "", none⟩) ∧
      (∀ message cause, FailsToCompile a.capacities q p message cause →
        alone = ⟨1, "", "", some (message ++ "\n\nCaused by:\n    " ++ cause.message ++ "\n")⟩ ∧
        session =
          ⟨0, "?- :- " ++ (message ++ ": " ++ cause.message ++ "\n") ++ "?- \n", "", none⟩) ∧
      (∀ fault, FailsToRun a.capacities q p fault →
        alone = ⟨1, alone.output, "", some (fault.message ++ "\n")⟩ ∧
        session = ⟨1, "?- :- " ++ alone.output, "", some (fault.message ++ "\n")⟩) ∧
      (alone.code ≠ 0 → (∃ message cause, FailsToCompile a.capacities q p message cause) ∨
        ∃ fault, FailsToRun a.capacities q p fault) := by
  refine ⟨⟨⟨[query, program], a.flags, a.sizes⟩, ?_, rfl, fun _ => rfl, rfl⟩, ?_⟩
  · refine Arguments.parse?_append_pair hoptions hnone fun text htext => ?_
    rcases List.mem_pair.1 htext with rfl | rfl
    · exact ofChars_of_parse hq
    · exact ofChars_of_parse hp
  · intro args b input hargs hterms hsame alone session
    have halone : alone = aloneOutcome (unifyPair a.settings q p (Machine.create a.capacities)).1 :=
      (outcome_of_pair hargs hterms input).trans
        (by rw [← hsame.settings_eq, ← hsame.capacities, oneShot_of_parse hq hp])
    have hsession :
        session = sessionOutcome (unifyPair a.settings q p (Machine.create a.capacities)).1 := by
      rw [← dialogue_of_parse hq hp, ← inputLines_pair hqline hpline]
      exact outcome_of_none hoptions hnone _
    clear_value alone session
    subst halone hsession
    refine ⟨fun hcode => ?_, fun message cause hfails => ?_, fun fault hfails => ?_,
      fun hcode => ?_⟩
    · generalize (unifyPair a.settings q p (Machine.create a.capacities)).1 = pair at hcode ⊢
      obtain ⟨output, _ | e⟩ := pair
      · exact ⟨rfl, rfl⟩
      · cases hcode
    · obtain ⟨e, rfl, hcause, hpair⟩ := hfails.unifyPair a.settings
      rw [hpair]
      simp only [aloneOutcome, sessionOutcome, PairError.report, hcause, Option.map_some,
        errorReport, String.empty_append]
      exact ⟨trivial, trivial⟩
    · obtain ⟨output, hpair⟩ := hfails.unifyPair a.settings
      rw [hpair]
      exact ⟨rfl, rfl⟩
    · rcases unifyPair_cases a.settings a.capacities q p with ⟨output, hpair⟩ | hfails
      · rw [hpair] at hcode
        exact absurd rfl hcode
      · exact hfails

/-- A pair with blanks around its terms, of which the program takes a register too many. -/
theorem outcome_pair_agrees_blanks :
    let options := ["-ld", "--registers=3", "--heap", "9"]
    let query := "\tf(X, X) "
    let program := " f(g(Y),Z)\r"
    let a : Arguments := ⟨[], [.dump, .listing], [(.heap, 9), (.registers, 3)]⟩
    let q : Term := .app "f" [.var "X", .var "X"]
    let p : Term := .app "f" [.app "g" [.var "Y"], .var "Z"]
    Arguments.parse? options = some a ∧ Source.parse query = .ok q ∧
      Source.parse program = .ok p ∧ '\n' ∉ query.toList ∧ '\n' ∉ program.toList ∧
      FailsToCompile a.capacities q p "Failed to compile program" (.outOfRegisters 3) ∧
      ∃ cause, cause = "term needs more than the 3 available registers" ∧
        outcome (options ++ [query, program]) "" =
          ⟨1, "", "", some ("Failed to compile program\n\nCaused by:\n    " ++ cause ++ "\n")⟩ ∧
        outcome options (query ++ "\n" ++ program ++ "\n") =
          ⟨0, "?- :- Failed to compile program: " ++ cause ++ "\n?- \n", "", none⟩ := by
  intro options query program a q p
  have hoptions : Arguments.parse? options = some a := by rfl
  have hq : Source.parse query = .ok q := by decide +kernel
  have hp : Source.parse program = .ok p := by decide +kernel
  have hqline : '\n' ∉ query.toList := by decide
  have hpline : '\n' ∉ program.toList := by decide
  have hcompiles : ((Machine.create a.capacities).compileQuery q).1 =
      .ok ⟨[.putStructure 0 2 0, .setVariable 1, .setValue 1], [("X", 1)]⟩ := by decide +kernel
  have hfails : FailsToCompile a.capacities q p "Failed to compile program" (.outOfRegisters 3) :=
    .program hcompiles (by decide +kernel)
  obtain ⟨⟨b, hb, hterms, hsame⟩, hmodes⟩ :=
    outcome_pair_agrees hoptions rfl hq hp hqline hpline
  obtain ⟨halone, hsession⟩ := (hmodes _ b "" hb hterms hsame).2.1 _ _ hfails
  exact ⟨hoptions, hq, hp, hqline, hpline, hfails, _, rfl, halone, hsession⟩

end Modes

end TermMachine.Session
