import TermMachine.Proofs.Machine.Reset
import TermMachine.Session.Basic

/-! # A session remembers nothing

The machine of a session is reset before each pair, so a dialogue goes on as if its machine were a
fresh one, whatever the lines behind it have been: blank, no terms, pairs that do not compile, and
pairs that do or do not unify. So the session on two inputs, of which the first ends where a query
is awaited, is the session on the first followed by the one on the second.
-/
namespace TermMachine.Session

variable {settings : Settings} {capacities : Capacities} {m : Machine}

theorem runPair_machine (settings : Settings) (query program : Code) (m : Machine) :
    (runPair settings query program m).2 = (m.run query program).2 := by
  unfold runPair
  rcases m.run query program with ⟨fault | b, n⟩
  · rfl
  · cases b with
    | false => rfl
    | true =>
      dsimp only
      cases n.bindings with
      | error fault => rfl
      | ok bindings => rfl

/-- A pair leaves a machine that has been used since it was reset. -/
theorem unifyPair_machine (settings : Settings) (q p : Term) (m : Machine) :
    ∃ calls, (unifyPair settings q p m).2 = m.reset.afterAll calls := by
  unfold unifyPair
  rcases hq : m.reset.compileQuery q with ⟨cause | query, m₁⟩
  · exact ⟨[.query q], (congrArg Prod.snd hq).symm⟩
  · dsimp only
    have hm₁ : m.reset.after (.query q) = m₁ := congrArg Prod.snd hq
    rcases hp : m₁.compileProgram p with ⟨cause | program, m₂⟩
    · refine ⟨[.query q, .program p], ?_⟩
      rw [Machine.afterAll, List.foldl_cons, hm₁]
      exact (congrArg Prod.snd hp).symm
    · refine ⟨[.query q, .program p, .run query program], ?_⟩
      have hm₂ : m₁.after (.program p) = m₂ := congrArg Prod.snd hp
      rw [Machine.afterAll, List.foldl_cons, hm₁, List.foldl_cons, hm₂]
      exact runPair_machine settings query program m₂

def Outcome.behind (o : Outcome) (output reports : String) : Outcome :=
  ⟨o.code, output ++ o.output, reports ++ o.reports, o.error⟩

theorem Outcome.behind_empty (o : Outcome) : o.behind "" "" = o := by
  simp only [behind, String.empty_append]

theorem Outcome.behind_behind (o : Outcome) (output reports output' reports' : String) :
    (o.behind output reports).behind output' reports' =
      o.behind (output' ++ output) (reports' ++ reports) := by
  simp only [behind, String.append_assoc]

namespace Dialogue

def cleared (d : Dialogue) : Dialogue := ⟨d.settings, d.machine.reset, d.stage⟩

structure Belongs (settings : Settings) (capacities : Capacities) (d : Dialogue) : Prop where
  settings_eq : d.settings = settings
  reset_eq : d.machine.reset = Machine.create capacities

variable {d e next : Dialogue} {text : String}

def clearedLine (d : Dialogue) (text : String) : Reply :=
  ⟨(d.line text).output, (d.line text).reports, (d.line text).next.map cleared⟩

theorem Belongs.cleared_eq (h : d.Belongs settings capacities) :
    d.cleared = ⟨settings, Machine.create capacities, d.stage⟩ := by
  rw [cleared, h.settings_eq, h.reset_eq]

/-- Resetting the machine before a line changes nothing but what its machine has done. -/
theorem clearedLine_cleared (d : Dialogue) (text : String) :
    d.cleared.clearedLine text = d.clearedLine text := by
  unfold clearedLine line
  cases Source.trimBlanks text.toList with
  | nil => rfl
  | cons c cs =>
    dsimp only [source]
    cases hstage : d.stage with
    | query =>
      simp only [cleared, hstage]
      cases Source.parse (String.ofList (c :: cs)) with
      | error e => rfl
      | ok t => rfl
    | program query =>
      simp only [cleared, hstage]
      cases Source.parse (String.ofList (c :: cs)) with
      | error e => rfl
      | ok t =>
        -- the pair resets the machine itself
        rfl

theorem prompt_congr (h : d.cleared = e.cleared) : d.prompt = e.prompt := by
  have hcleared : ∀ d : Dialogue, d.prompt = d.cleared.prompt := fun d => rfl
  rw [hcleared, h, ← hcleared]

theorem outcome_cons (d : Dialogue) (text : String) (lines : List String) :
    d.outcome (text :: lines) =
      match (d.line text).next with
      | .error e => ⟨1, d.prompt ++ (d.line text).output, (d.line text).reports, some e⟩
      | .ok next =>
        (next.outcome lines).behind (d.prompt ++ (d.line text).output) (d.line text).reports := by
  rw [outcome]
  rcases d.line text with ⟨output, reports, e | next⟩
  · rfl
  · rfl

/-- Dialogues that differ in what their machines have done since the last reset come to the same
end. -/
theorem outcome_congr (h : d.cleared = e.cleared) (lines : List String) :
    d.outcome lines = e.outcome lines := by
  induction lines generalizing d e with
  | nil =>
    rw [outcome, outcome, prompt_congr h]
  | cons text lines ih =>
    have hline : d.clearedLine text = e.clearedLine text := by
      rw [← clearedLine_cleared d, ← clearedLine_cleared e, h]
    obtain ⟨houtput, hreports, hnext⟩ := Reply.mk.inj hline
    rw [outcome_cons, outcome_cons, prompt_congr h, houtput, hreports]
    generalize (d.line text).next = next at hnext ⊢
    generalize (e.line text).next = next' at hnext ⊢
    cases next with
    | error fault =>
      cases next' with
      | error fault' =>
        obtain rfl := Except.error.inj hnext
        rfl
      | ok next' => cases hnext
    | ok next =>
      cases next' with
      | error fault' => cases hnext
      | ok next' =>
        dsimp only
        rw [ih (Except.ok.inj hnext)]

theorem answer_belongs (h : d.Belongs settings capacities) {query program : Term}
    (hnext : (d.answer query program).next = .ok next) : next.Belongs settings capacities := by
  obtain ⟨calls, hm⟩ := unifyPair_machine d.settings query program d.machine
  unfold answer at hnext
  generalize unifyPair d.settings query program d.machine = out at hm hnext
  obtain ⟨⟨output, error⟩, m⟩ := out
  replace hm : m.reset = Machine.create capacities := by
    rw [show m = d.machine.reset.afterAll calls from hm, h.reset_eq, Machine.reset_afterAll]
  cases error with
  | none =>
    cases hnext
    exact ⟨h.settings_eq, hm⟩
  | some e =>
    dsimp only at hnext
    cases hcause : e.cause? with
    | none => simp [hcause] at hnext
    | some cause =>
      simp only [hcause, Except.ok.injEq] at hnext
      subst hnext
      exact ⟨h.settings_eq, hm⟩

/-- Every line leaves a dialogue of the same session, or ends it. -/
theorem line_belongs (h : d.Belongs settings capacities) (hnext : (d.line text).next = .ok next) :
    next.Belongs settings capacities := by
  have hawait : ∀ stage, (d.await stage).Belongs settings capacities :=
    fun stage => ⟨h.settings_eq, h.reset_eq⟩
  unfold line at hnext
  cases htrim : Source.trimBlanks text.toList with
  | nil =>
    simp only [htrim, Except.ok.injEq] at hnext
    exact hnext ▸ h
  | cons c cs =>
    simp only [htrim, source] at hnext
    cases hstage : d.stage with
    | query =>
      cases hparse : Source.parse (String.ofList (c :: cs)) with
      | error e =>
        simp only [hstage, hparse, Except.ok.injEq] at hnext
        exact hnext ▸ hawait _
      | ok t =>
        simp only [hstage, hparse, Except.ok.injEq] at hnext
        exact hnext ▸ hawait _
    | program query =>
      cases hparse : Source.parse (String.ofList (c :: cs)) with
      | error e =>
        simp only [hstage, hparse, Except.ok.injEq] at hnext
        exact hnext ▸ hawait _
      | ok t =>
        simp only [hstage, hparse] at hnext
        exact answer_belongs h hnext

/-- The lines run out where a query is awaited. -/
def endsAtQuery : Dialogue → List String → Bool
  | d, [] =>
    match d.stage with
    | .query => true
    | .program _ => false
  | d, text :: rest =>
    match (d.line text).next with
    | .ok next => endsAtQuery next rest
    | .error _ => false

/-- Behind lines that run out where a query is awaited a session goes on as from its start. -/
theorem outcome_append (h : d.Belongs settings capacities) {lines : List String}
    (hend : d.endsAtQuery lines = true) : ∃ told reports, ∀ more, d.outcome (lines ++ more) =
      (outcome ⟨settings, Machine.create capacities, .query⟩ more).behind told reports := by
  induction lines generalizing d with
  | nil =>
    refine ⟨"", "", fun more => ?_⟩
    have hstage : d.stage = .query := by
      unfold endsAtQuery at hend
      cases hs : d.stage with
      | query => rfl
      | program query => simp [hs] at hend
    have hstart :
        d.cleared = (⟨settings, Machine.create capacities, .query⟩ : Dialogue).cleared := by
      rw [h.cleared_eq, hstage, cleared, ← Machine.reset_afterAll capacities []]
      rfl
    rw [List.nil_append, outcome_congr hstart, Outcome.behind_empty]
  | cons text lines ih =>
    rw [endsAtQuery] at hend
    cases hnext : (d.line text).next with
    | error fault => simp [hnext] at hend
    | ok next =>
      simp only [hnext] at hend
      obtain ⟨told, reports, hmore⟩ := ih (line_belongs h hnext) hend
      refine ⟨d.prompt ++ (d.line text).output ++ told, (d.line text).reports ++ reports,
        fun more => ?_⟩
      rw [List.cons_append, outcome_cons, hnext]
      dsimp only
      rw [hmore more, Outcome.behind_behind]

end Dialogue

theorem linesOf_ne_nil {text : List Char} (h : text ≠ []) : linesOf text ≠ [] := by
  cases text with
  | nil => exact absurd rfl h
  | cons c text =>
    rw [linesOf]
    split
    · exact List.cons_ne_nil _ _
    · split
      · exact List.cons_ne_nil _ _
      · exact List.cons_ne_nil _ _

/-- A newline ends a line, whatever follows it. -/
theorem linesOf_append (text more : List Char) :
    linesOf (text ++ '\n' :: more) = linesOf (text ++ ['\n']) ++ linesOf more := by
  induction text with
  | nil => simp [linesOf]
  | cons c text ih =>
    rw [List.cons_append, List.cons_append, linesOf, linesOf]
    by_cases hc : c = '\n'
    · rw [if_pos hc, if_pos hc, ih, List.cons_append]
    · rw [if_neg hc, if_neg hc, ih]
      cases hlines : linesOf (text ++ ['\n']) with
      | nil => exact absurd hlines (linesOf_ne_nil (by simp))
      | cons first rest => rfl

def inputLines (input : String) : List String := (linesOf input.toList).map String.ofList

theorem inputLines_append {input : String} (h : input = "" ∨ ∃ text, input = text ++ "\n")
    (more : String) : inputLines (input ++ more) = inputLines input ++ inputLines more := by
  rcases h with rfl | ⟨text, rfl⟩
  · rw [String.empty_append]
    rfl
  · simp only [inputLines, String.toList_append, List.append_assoc, ← List.map_append]
    exact congrArg (List.map String.ofList) (linesOf_append text.toList more.toList)

theorem task_eq_dialogue {args : List String} {start : Dialogue} (h : task args = .dialogue start) :
    ∃ settings capacities, start = ⟨settings, Machine.create capacities, .query⟩ := by
  unfold task at h
  cases ha : CommandLine.read Arguments.declared args with
  | error refusal => cases refusal <;> simp [ha] at h
  | ok a =>
    simp only [ha] at h
    split at h
    · cases h
      exact ⟨_, _, rfl⟩
    · cases h
    · cases h

/-- The session on an input that ends with a newline, and where a query is awaited, ends in exit
code 0 and a last prompt. With more input behind it, the session goes on in the place of that prompt
as the session on the other input alone, to the same exit code and error. -/
theorem outcome_input_append {args : List String} {start : Dialogue}
    (hargs : task args = .dialogue start) {input : String}
    (hnewline : input = "" ∨ ∃ text, input = text ++ "\n")
    (hend : start.endsAtQuery (inputLines input) = true) (more : String) :
    (outcome args input).code = 0 ∧ ∃ told, (outcome args input).output = told ++ "?- \n" ∧
      outcome args (input ++ more) =
        ⟨(outcome args more).code, told ++ (outcome args more).output,
          (outcome args input).reports ++ (outcome args more).reports,
          (outcome args more).error⟩ := by
  obtain ⟨settings, capacities, rfl⟩ := task_eq_dialogue hargs
  have houtcome : ∀ input, outcome args input =
      Dialogue.outcome ⟨settings, Machine.create capacities, .query⟩ (inputLines input) := by
    intro input
    rw [outcome, hargs]
    rfl
  have hbelongs : Dialogue.Belongs settings capacities
      ⟨settings, Machine.create capacities, .query⟩ :=
    ⟨rfl, Machine.reset_afterAll capacities []⟩
  obtain ⟨told, reports, hmore⟩ := Dialogue.outcome_append hbelongs hend
  have halone := hmore []
  rw [List.append_nil] at halone
  simp only [houtcome, inputLines_append hnewline]
  rw [hmore, halone]
  refine ⟨rfl, told, rfl, ?_⟩
  simp only [Dialogue.outcome, Outcome.behind, String.append_empty]

/-- A session in little room: a blank line, a line that is no query and one that is no program, pairs
that do not compile, and pairs that unify and that do not; and one whose second pair fills the
heap. -/
theorem outcome_input_append_small :
    let args := ["-ld", "--registers=3", "--heap", "5"]
    let input := "\n f(X\nf(X)\n a)\nf(X, Y, Z)\na\n\tf(X)\n\nf(a)\na\nb\n"
    let more := "X\nY\nf(X)\nf(g(Y))\nX\nY\n"
    let start : Dialogue := ⟨⟨true, true⟩, Machine.create ⟨3, 1024, 5, 1024⟩, .query⟩
    task args = .dialogue start ∧ (input = "" ∨ ∃ text, input = text ++ "\n") ∧
      start.endsAtQuery (inputLines input) = true ∧ (outcome args more).code = 1 ∧
      (outcome args input).code = 0 ∧ ∃ told, (outcome args input).output = told ++ "?- \n" ∧
        outcome args (input ++ more) =
          ⟨(outcome args more).code, told ++ (outcome args more).output,
            (outcome args input).reports ++ (outcome args more).reports,
            (outcome args more).error⟩ := by
  intro args input more start
  have hargs : task args = .dialogue start := by rfl
  have hnewline : input = "" ∨ ∃ text, input = text ++ "\n" :=
    .inr ⟨"\n f(X\nf(X)\n a)\nf(X, Y, Z)\na\n\tf(X)\n\nf(a)\na\nb", by decide⟩
  have hend : start.endsAtQuery (inputLines input) = true := by decide +kernel
  have hfault : (outcome args more).code = 1 := by decide +kernel
  exact ⟨hargs, hnewline, hend, hfault, outcome_input_append hargs hnewline hend more⟩

end TermMachine.Session
