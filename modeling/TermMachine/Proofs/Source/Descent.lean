import TermMachine.Proofs.Source.Automaton
import TermMachine.Proofs.Source.Parser

/-! # Descent and character by character

The parsers give up arguments and separators that fail, and go on behind what they had; a reader
never goes back. Both come to the same, because a parser that has given up something stands before a
parenthesis or a comma that nothing after it can take, and the failure it has met is further on. So
this failure is the one that is told, and the reader fails with it too.
-/
namespace TermMachine.Source

open Failure Reader

/-- A term has been read up to `rest`, the reader is in the given phase there, and what the parser
met is no more than what the phase expects besides the punctuation behind any term. -/
inductive TermEnds (met : Option Failure) (t : Term) (rest : Input) :
    Phase → List (Option Char) → Prop
  | term (hmet : ∀ f ∈ met, f.start < rest.position ∨ f = .unexpected rest []) :
      TermEnds met t rest (.afterTerm t) []
  | name {name : String} (ht : t = .atom name)
      (hrest : ∀ c ∈ rest.rest.head?, isBlank c = false ∧ c ≠ '(')
      (hmet : met = some (.unexpected rest [some '('])) :
      TermEnds met t rest (.afterName name) [some '(']

/-- What the parser of terms replies at `i`, against what the reader does there. It refuses, or it
ends with a term, or it has given up arguments, for a failure with which the reader stops. -/
inductive ReadsTerm (i : Input) : Reply Term → Prop
  | refused {f} (hstart : f.start = i.position)
      (hread : ∀ frames, readFrom ⟨frames, .start⟩ i = .error f) : ReadsTerm i (.error f)
  | ended {met t rest phase e} (hends : TermEnds met t rest phase e)
      (hlt : i.position < rest.position)
      (hread : ∀ frames, readFrom ⟨frames, .start⟩ i = readFrom ⟨frames, phase⟩ rest) :
      ReadsTerm i (.ok t rest met)
  | lost {t rest f} {cs : List Char} (hopen : rest.rest = '(' :: cs)
      (hlt : i.position < rest.position) (hstart : rest.position < f.start)
      (hread : ∀ frames, readFrom ⟨frames, .start⟩ i = .error f) :
      ReadsTerm i (.ok t rest (some f))

/-- What the parser of separated terms replies at `i`, against what the reader does there inside a
structure. It refuses, or it stands before the parenthesis that closes the structure, or the
failure to find this parenthesis comes to the failure with which the reader stops. -/
inductive ReadsTerms (i : Input) : Reply (List Term) → Prop
  | refused {f} (hstart : i.position ≤ f.start)
      (hread : ∀ name args outer, readFrom ⟨⟨name, args⟩ :: outer, .start⟩ i = .error f) :
      ReadsTerms i (.error f)
  | closed {ts rest met} {cs : List Char} (hclose : (rest.skip isBlank).rest = ')' :: cs)
      (hle : i.position ≤ rest.position)
      (hmet : ∀ f ∈ met, f.start < (rest.skip isBlank).position + 1)
      (hread : ∀ name args outer, readFrom ⟨⟨name, args⟩ :: outer, .start⟩ i =
        readFrom ⟨outer, .afterTerm (.app name (args.reverse ++ ts))⟩
          ⟨(rest.skip isBlank).position + 1, cs⟩) :
      ReadsTerms i (.ok ts rest met)
  | unclosed {ts rest met} (hclose : ∀ c ∈ (rest.skip isBlank).rest.head?, c ≠ ')')
      (hle : i.position ≤ rest.position)
      (hread : ∀ name args outer, readFrom ⟨⟨name, args⟩ :: outer, .start⟩ i =
        .error ((unexpected (rest.skip isBlank) [some ')']).behind met)) :
      ReadsTerms i (.ok ts rest met)

variable {met : Option Failure} {t : Term} {rest : Input} {phase : Phase}
  {e : List (Option Char)} {frames outer : List Frame} {name : String} {args : List Term}
  {cs : List Char}

namespace TermEnds

theorem start_le (h : TermEnds met t rest phase e) : ∀ f ∈ met, f.start ≤ rest.position := by
  cases h with
  | term hmet =>
    intro f hf
    rcases hmet f hf with hlt | rfl
    · exact Nat.le_of_lt hlt
    · exact Nat.le_refl _
  | name _ _ hmet =>
    subst hmet
    simp [unexpected]

/-- What is expected behind the blanks is told together with what the phase expects. -/
theorem later_skip (h : TermEnds met t rest phase e) (e' : List (Option Char)) :
    later met (some (.unexpected (rest.skip isBlank) e')) =
      some (.unexpected (rest.skip isBlank) (e ++ e')) := by
  cases h with
  | term hmet =>
    cases met with
    | none => rfl
    | some f =>
      rcases hmet f rfl with hlt | rfl
      · exact congrArg some (furthest_of_lt (Nat.lt_of_lt_of_le hlt (rest.position_skip_le isBlank)))
      · exact later_unexpected_skip isBlank rest e'
  | name _ hrest hmet =>
    rw [hmet, Input.skip_of_head fun c hc => (hrest c hc).1, later, unexpected_furthest]

theorem behind_skip (h : TermEnds met t rest phase e) (e' : List (Option Char)) :
    (unexpected (rest.skip isBlank) e').behind met =
      .unexpected (rest.skip isBlank) (e ++ e') := by
  cases h with
  | term hmet =>
    cases met with
    | none => rfl
    | some f =>
      rcases hmet f rfl with hlt | rfl
      · exact furthest_of_gt (Nat.lt_of_lt_of_le hlt (rest.position_skip_le isBlank))
      · exact behind_unexpected_skip isBlank rest e'
  | name _ hrest hmet =>
    rw [hmet, Input.skip_of_head fun c hc => (hrest c hc).1, behind, unexpected_furthest]
    exact unexpected_congr fun x => by simp only [List.mem_append, or_comm]

/-- A failure before the end of the term changes nothing. -/
theorem later_before (h : TermEnds met t rest phase e) {f : Failure}
    (hf : f.start < rest.position) : TermEnds (later met (some f)) t rest phase e := by
  cases h with
  | term hmet =>
    refine .term fun g hg => ?_
    cases met with
    | none =>
      obtain rfl := Option.some.inj hg
      exact .inl hf
    | some g' =>
      obtain rfl := Option.some.inj hg
      rcases hmet g' rfl with hlt | rfl
      · rw [start_furthest]
        omega
      · exact .inr (furthest_of_gt hf)
  | name ht hrest hmet =>
    subst hmet
    exact .name ht hrest (congrArg some (furthest_of_gt hf))

theorem finish_eq (h : TermEnds met t rest phase e) (frames : List Frame) :
    finish ⟨frames, phase⟩ = finish ⟨frames, .afterTerm t⟩ := by
  cases h with
  | term => rfl
  | name ht =>
    subst ht
    cases frames <;> rfl

theorem failure_eq (h : TermEnds met t rest phase e) (frames : List Frame) (i : Input) :
    failure ⟨frames, phase⟩ i =
      .unexpected i (e ++ if frames.isEmpty then [none] else [some ')', some ',']) := by
  cases h <;> rfl

theorem step_eq (h : TermEnds met t rest phase e) (frames : List Frame) :
    ∀ c ∈ (rest.skip isBlank).rest.head?,
      step ⟨frames, phase⟩ c = step ⟨frames, .afterTerm t⟩ c := by
  cases h with
  | term => exact fun _ _ => rfl
  | name ht hrest =>
    rw [Input.skip_of_head fun c hc => (hrest c hc).1]
    intro c hc
    simp [step, afterName, hrest c hc, ht]

theorem readFrom_skip (h : TermEnds met t rest phase e) (frames : List Frame) :
    readFrom ⟨frames, phase⟩ rest = readFrom ⟨frames, phase⟩ (rest.skip isBlank) := by
  cases h with
  | term => exact afterTerm_skip frames t rest
  | name => exact afterName_skip frames _ rest

/-- Behind the whole term the text ends. -/
theorem readFrom_nil (h : TermEnds met t rest phase e) : readFrom ⟨[], phase⟩ rest =
    if (rest.skip isBlank).rest.isEmpty then .ok t
    else .error (.unexpected (rest.skip isBlank) (e ++ [none])) := by
  rw [h.readFrom_skip]
  by_cases hempty : (rest.skip isBlank).rest.isEmpty = true
  · rw [if_pos hempty]
    have hfinish : finish ⟨[], phase⟩ = some t := h.finish_eq []
    simp [readFrom, List.isEmpty_iff.1 hempty, Reader.read, hfinish]
  · rw [if_neg hempty, readFrom_refused, h.failure_eq]
    · rfl
    · exact fun hnil => absurd (List.isEmpty_iff.2 hnil) hempty
    · intro c hc
      rw [h.step_eq _ c hc]
      simp [step, afterTerm, rest.head_skip isBlank c hc]

theorem readFrom_comma (h : TermEnds met t rest phase e)
    (hc : (rest.skip isBlank).rest = ',' :: cs) :
    readFrom ⟨⟨name, args⟩ :: outer, phase⟩ rest =
      readFrom ⟨⟨name, t :: args⟩ :: outer, .start⟩ ⟨(rest.skip isBlank).position + 1, cs⟩ := by
  rw [h.readFrom_skip]
  refine readFrom_cons hc ?_
  rw [h.step_eq _ _ (by simp [hc])]
  rfl

theorem readFrom_close (h : TermEnds met t rest phase e)
    (hc : (rest.skip isBlank).rest = ')' :: cs) :
    readFrom ⟨⟨name, args⟩ :: outer, phase⟩ rest =
      readFrom ⟨outer, .afterTerm (.app name (t :: args).reverse)⟩
        ⟨(rest.skip isBlank).position + 1, cs⟩ := by
  rw [h.readFrom_skip]
  refine readFrom_cons hc ?_
  rw [h.step_eq _ _ (by simp [hc])]
  rfl

theorem readFrom_other (h : TermEnds met t rest phase e)
    (hc : ∀ c ∈ (rest.skip isBlank).rest.head?, c ≠ ',' ∧ c ≠ ')') :
    readFrom ⟨⟨name, args⟩ :: outer, phase⟩ rest =
      .error (.unexpected (rest.skip isBlank) (e ++ [some ')', some ','])) := by
  rw [h.readFrom_skip, readFrom_refused, h.failure_eq]
  · rfl
  · exact fun _ => h.finish_eq _
  · intro c hmem
    rw [h.step_eq _ c hmem]
    simp [step, afterTerm, rest.head_skip isBlank c hmem, hc c hmem]

end TermEnds

theorem ReadsTerm.later_start {i : Input} (h : ReadsTerm i (.ok t rest met)) {f : Failure}
    (hf : f.start = i.position) : ReadsTerm i (.ok t rest (later met (some f))) := by
  cases h with
  | ended hends hlt hread => exact .ended (hends.later_before (by omega)) hlt hread
  | @lost _ _ g text hopen hlt hstart hread =>
    have hlater : later (some g) (some f) = some g := congrArg some (furthest_of_gt (by omega))
    rw [hlater]
    exact .lost hopen hlt hstart hread

variable {K : Combinators}

namespace Parser

variable (hK : K.Lawful) {i : Input} {c : Char}
include hK

theorem readsTerm_variable (hi : i.rest = c :: cs) (hblank : isBlank c = false)
    (hc : startsVariable c = true) : ReadsTerm i (K.run (term K) i) := by
  have hrun : K.run (variableTerm K) i = .ok (.var (String.ofList (c :: cs.takeWhile isIdentifier)))
      (Input.skip isIdentifier ⟨i.position + 1, cs⟩)
      (some (.unexpected (Input.skip isIdentifier ⟨i.position + 1, cs⟩) [])) := by
    simp [variableTerm, hK.labelled, hK.map, run_word hK hi hc, Reply.map]
  simp only [run_term hK, hK.orElse, hrun]
  refine .ended (.term ?_) ?_ fun frames => ?_
  · simp
  · exact Input.position_skip_le isIdentifier ⟨i.position + 1, cs⟩
  · have hstep : step ⟨frames, .start⟩ c = some ⟨frames, .inVariable [c]⟩ := by
      simp [step, hblank, hc]
    rw [readFrom_cons hi hstep, readsWord_variable.readFrom]
    rfl

/-- A text that starts neither a variable nor a name is refused by both alternatives, and told as no
variable. -/
theorem readsTerm_refused (hblank : ∀ c ∈ i.rest.head?, isBlank c = false)
    (hvariable : ∀ c ∈ i.rest.head?, startsVariable c = false)
    (hname : ∀ c ∈ i.rest.head?, startsName c = false) : ReadsTerm i (K.run (term K) i) := by
  have hrun : K.run (variableTerm K) i = .error ((unexpected i []).withLabel "variable") := by
    simp [variableTerm, hK.labelled, hK.map, run_word_refused hK hvariable, Reply.map]
  simp only [run_term hK, hK.orElse, hrun, run_structureTerm_refused hK hname,
    withLabel_furthest]
  refine .refused rfl fun frames => readFrom_refused (fun _ => by cases frames <;> rfl) ?_
  intro c hc
  simp [step, hblank c hc, hvariable c hc, hname c hc]

/-- Behind a parenthesis the arguments are read, or their failure is the reader's. -/
theorem arguments_cases {rest : Input} (hopen : rest.rest = '(' :: cs)
    (hterms : ReadsTerms (Input.skip isBlank ⟨rest.position + 1, cs⟩)
      (K.run (terms K (term K)) (Input.skip isBlank ⟨rest.position + 1, cs⟩))) :
    (∃ ts rest' met, K.run (arguments K (term K)) rest = .ok ts rest' met ∧
      rest.position < rest'.position ∧ (∀ f ∈ met, f.start < rest'.position) ∧
      ∀ frames name, readFrom ⟨frames, .afterName name⟩ rest =
        readFrom ⟨frames, .afterTerm (.app name ts)⟩ rest') ∨
    ∃ f, K.run (arguments K (term K)) rest = .error f ∧ rest.position < f.start ∧
      ∀ frames name, readFrom ⟨frames, .afterName name⟩ rest = .error f := by
  have hstart : ∀ frames name, readFrom ⟨frames, .afterName name⟩ rest =
      readFrom ⟨⟨name, []⟩ :: frames, .start⟩ (Input.skip isBlank ⟨rest.position + 1, cs⟩) := by
    intro frames name
    rw [readFrom_cons hopen rfl, start_skip]
  have hinner : rest.position < (Input.skip isBlank ⟨rest.position + 1, cs⟩).position :=
    Input.position_skip_le isBlank ⟨rest.position + 1, cs⟩
  simp only [run_arguments hK hopen, hstart]
  generalize Input.skip isBlank ⟨rest.position + 1, cs⟩ = inner at hterms hinner
  generalize K.run (terms K (term K)) inner = reply at hterms
  cases hterms with
  | @refused f hle hread =>
    exact .inr ⟨f, rfl, by omega, fun frames name => hread name [] frames⟩
  | @closed ts last met text hclose hle hmet hread =>
    have hlast := last.position_skip_le isBlank
    refine .inl ⟨ts, ⟨(last.skip isBlank).position + 1, text⟩, met, ?_, by simp only; omega, ?_, ?_⟩
    · simp [Reply.bind, Reply.ofTest, hclose, Reply.map]
    · exact hmet
    · exact fun frames name => hread name [] frames
  | @unclosed ts last met hclose hle hread =>
    have hlast := last.position_skip_le isBlank
    refine .inr ⟨(unexpected (last.skip isBlank) [some ')']).behind met, ?_, ?_, ?_⟩
    · have hrefused : ∀ c ∈ (last.skip isBlank).rest.head?, (c == ')') = false := by
        simpa using hclose
      exact Reply.ok_bind_error (by rw [Reply.ofTest_refused hrefused]; rfl)
    · have hge := start_behind_ge (unexpected (last.skip isBlank) [some ')']) met
      simp only [unexpected] at hge ⊢
      omega
    · exact fun frames name => hread name [] frames

/-- What a reader does behind a name is what the parser of structures replies. -/
theorem readsTerm_behind_name {rest : Input} {name : String} (hlt : i.position < rest.position)
    (hhead : ∀ c ∈ rest.rest.head?, isBlank c = false)
    (hread : ∀ frames, readFrom ⟨frames, .start⟩ i = readFrom ⟨frames, .afterName name⟩ rest)
    (hterms : ∀ j : Input, j.rest.length < rest.rest.length → j.skip isBlank = j →
      ReadsTerms j (K.run (terms K (term K)) j)) :
    ReadsTerm i (match K.run (arguments K (term K)) rest with
      | .ok ts rest' met =>
        .ok (.app name ts) rest' (Failure.later (some (.unexpected rest [])) met)
      | .error f =>
        .ok (.atom name) rest (Failure.later (some (.unexpected rest [])) (some f))) := by
  by_cases hopen : ∃ text, rest.rest = '(' :: text
  · obtain ⟨text, hopen⟩ := hopen
    have hshort := Input.length_skip_le isBlank ⟨rest.position + 1, text⟩
    have hinner := hterms (Input.skip isBlank ⟨rest.position + 1, text⟩)
      (by simp only [hopen, List.length_cons] at hshort ⊢; omega)
      (Input.skip_of_head (Input.head_skip isBlank _))
    rcases arguments_cases hK hopen hinner with
      ⟨ts, rest', met, hrun, hpos, hmet, hback⟩ | ⟨f, hrun, hpos, hback⟩
    · rw [hrun]
      have hearlier : ∀ f ∈ later (some (unexpected rest [])) met, f.start < rest'.position :=
        start_later_lt (by simpa [unexpected] using hpos) hmet
      exact .ended (.term fun f hf => .inl (hearlier f hf)) (by omega)
        fun frames => (hread frames).trans (hback frames name)
    · rw [hrun]
      simp only [later, furthest_of_lt (f := unexpected rest []) hpos]
      exact .lost hopen hlt hpos fun frames => (hread frames).trans (hback frames name)
  · have hother : ∀ c ∈ rest.rest.head?, c ≠ '(' := by
      rintro c hc rfl
      exact hopen (List.head?_eq_some_iff.1 hc)
    rw [run_arguments_refused hK hother]
    simp only [later, unexpected_furthest]
    exact .ended (.name rfl (fun c hc => ⟨hhead c hc, hother c hc⟩) rfl) hlt hread

/-- A name is read with its arguments, if they can be read, as the terms in them can. -/
theorem readsTerm_name (hi : i.rest = c :: cs) (hblank : isBlank c = false)
    (hvariable : startsVariable c = false) (hc : startsName c = true)
    (hterms : ∀ j : Input, j.rest.length < i.rest.length → j.skip isBlank = j →
      ReadsTerms j (K.run (terms K (term K)) j)) : ReadsTerm i (K.run (term K) i) := by
  have hrefused : K.run (variableTerm K) i = .error ((unexpected i []).withLabel "variable") := by
    have hhead : ∀ c ∈ i.rest.head?, startsVariable c = false := by simpa [hi] using hvariable
    simp [variableTerm, hK.labelled, hK.map, run_word_refused hK hhead, Reply.map]
  have hword := Input.position_skip_le isIdentifier ⟨i.position + 1, cs⟩
  have hspace := Input.position_skip_le isBlank (Input.skip isIdentifier ⟨i.position + 1, cs⟩)
  have hshort := Input.length_skip_le isIdentifier ⟨i.position + 1, cs⟩
  have hshort' := Input.length_skip_le isBlank (Input.skip isIdentifier ⟨i.position + 1, cs⟩)
  have hread : ∀ frames, readFrom ⟨frames, .start⟩ i =
      readFrom ⟨frames, .afterName (String.ofList (c :: cs.takeWhile isIdentifier))⟩
        ((Input.skip isIdentifier ⟨i.position + 1, cs⟩).skip isBlank) := by
    intro frames
    have hstep : step ⟨frames, .start⟩ c = some ⟨frames, .inName [c]⟩ := by
      simp [step, hblank, hvariable, hc]
    rw [readFrom_cons hi hstep, readsWord_name.readFrom, afterName_skip]
    rfl
  have hbehind := readsTerm_behind_name hK (Nat.lt_of_lt_of_le hword hspace)
    (Input.head_skip isBlank _) hread fun j hj => hterms j (by simp only [hi, List.length_cons] at hshort ⊢; omega)
  simp only [run_term hK, hK.orElse, hrefused, run_structureTerm hK hi hc]
  cases hrun : K.run (arguments K (term K)) _ with
  | ok ts rest met =>
    rw [hrun] at hbehind
    exact hbehind.later_start rfl
  | error f =>
    rw [hrun] at hbehind
    exact hbehind.later_start rfl

theorem readsTerm_step (hhead : i.skip isBlank = i)
    (hterms : ∀ j : Input, j.rest.length < i.rest.length → j.skip isBlank = j →
      ReadsTerms j (K.run (terms K (term K)) j)) : ReadsTerm i (K.run (term K) i) := by
  have hblank := Input.head_skip isBlank i
  rw [hhead] at hblank
  cases hi : i.rest with
  | nil => exact readsTerm_refused hK hblank (by simp [hi]) (by simp [hi])
  | cons c cs =>
    have hc : isBlank c = false := hblank c (by simp [hi])
    cases hvariable : startsVariable c with
    | true => exact readsTerm_variable hK hi hc hvariable
    | false =>
      cases hname : startsName c with
      | true => exact readsTerm_name hK hi hc hvariable hname hterms
      | false => exact readsTerm_refused hK hblank (by simpa [hi]) (by simpa [hi])

section Behind

variable (hends : TermEnds met t rest phase e) (hlt : i.position < rest.position)
  (hread : ∀ frames, readFrom ⟨frames, .start⟩ i = readFrom ⟨frames, phase⟩ rest)
include hends hlt hread

/-- Behind a comma the terms go on, or the comma is given back for a failure further on. -/
theorem readsTerms_comma (hcomma : (rest.skip isBlank).rest = ',' :: cs)
    (hinner : ReadsTerms (Input.skip isBlank ⟨(rest.skip isBlank).position + 1, cs⟩)
      (K.run (terms K (term K)) (Input.skip isBlank ⟨(rest.skip isBlank).position + 1, cs⟩))) :
    ReadsTerms i ((Reply.ok t rest met).bind fun t rest =>
      (K.run (moreTerms K (term K)) rest).map (List.cons t)) := by
  have hspace := rest.position_skip_le isBlank
  have hinside : (rest.skip isBlank).position <
      (Input.skip isBlank ⟨(rest.skip isBlank).position + 1, cs⟩).position :=
    Input.position_skip_le isBlank ⟨(rest.skip isBlank).position + 1, cs⟩
  have hback : ∀ name args outer, readFrom ⟨⟨name, args⟩ :: outer, .start⟩ i =
      readFrom ⟨⟨name, t :: args⟩ :: outer, .start⟩
        (Input.skip isBlank ⟨(rest.skip isBlank).position + 1, cs⟩) := fun name args outer => by
    rw [hread, hends.readFrom_comma hcomma, start_skip]
  simp only [Reply.bind, run_moreTerms hK hcomma]
  generalize Input.skip isBlank ⟨(rest.skip isBlank).position + 1, cs⟩ = inner at *
  generalize K.run (terms K (term K)) inner = reply at hinner ⊢
  have hmet := hends.start_le
  cases hinner with
  | @refused f hstart hrefused =>
    have hlater : later met (some f) = some f :=
      later_some_of_lt fun g hg => by have := hmet g hg; omega
    simp only [Reply.map, hlater]
    refine .unclosed (by simp [hcomma]) (Nat.le_of_lt hlt) fun name args outer => ?_
    rw [hback, hrefused, behind_some_of_lt]
    exact Nat.lt_of_lt_of_le hinside hstart
  | @closed ts last met' text hclose hle hmet' hclosed =>
    have hlast := last.position_skip_le isBlank
    refine .closed hclose (by omega) (start_later_lt ?_ hmet') fun name args outer => ?_
    · intro f hf
      have := hmet f hf
      omega
    · rw [hback, hclosed]
      simp
  | @unclosed ts last met' hclose hle hunclosed =>
    have hlast := last.position_skip_le isBlank
    refine .unclosed hclose (by omega) fun name args outer => ?_
    rw [hback, hunclosed, behind_later]
    intro f hf
    have := hmet f hf
    simp only [unexpected]
    omega

/-- Without a comma the structure is closed, or what the reader expects is told. -/
theorem readsTerms_no_comma (hcomma : ∀ c ∈ (rest.skip isBlank).rest.head?, c ≠ ',') :
    ReadsTerms i ((Reply.ok t rest met).bind fun t rest =>
      (K.run (moreTerms K (term K)) rest).map (List.cons t)) := by
  simp only [Reply.bind, run_moreTerms_refused hK hcomma, Reply.map, hends.later_skip]
  by_cases hclose : ∃ text, (rest.skip isBlank).rest = ')' :: text
  · obtain ⟨text, hclose⟩ := hclose
    refine .closed hclose (Nat.le_of_lt hlt) (by simp [unexpected]) fun name args outer => ?_
    rw [hread, hends.readFrom_close hclose]
    simp
  · have hother : ∀ c ∈ (rest.skip isBlank).rest.head?, c ≠ ')' := by
      rintro c hc rfl
      exact hclose (List.head?_eq_some_iff.1 hc)
    refine .unclosed hother (Nat.le_of_lt hlt) fun name args outer => ?_
    rw [hread, hends.readFrom_other fun c hc => ⟨hcomma c hc, hother c hc⟩, behind,
      unexpected_furthest]
    refine congrArg _ (unexpected_congr fun x => ?_)
    simp [or_left_comm]

end Behind

theorem readsTerms_step (hterm : ReadsTerm i (K.run (term K) i))
    (hterms : ∀ j : Input, j.rest.length < i.rest.length → j.skip isBlank = j →
      ReadsTerms j (K.run (terms K (term K)) j)) :
    ReadsTerms i (K.run (terms K (term K)) i) := by
  rw [run_terms hK]
  cases hrun : K.run (term K) i with
  | error f =>
    rw [hrun] at hterm
    cases hterm with
    | refused hstart hread =>
      exact .refused (Nat.le_of_eq hstart.symm) fun name args outer => hread (⟨name, args⟩ :: outer)
  | ok t rest met =>
    rw [hrun] at hterm
    cases hterm with
    | ended hends hlt hread =>
      by_cases hcomma : ∃ text, (rest.skip isBlank).rest = ',' :: text
      · obtain ⟨text, hcomma⟩ := hcomma
        have hshort := hK.shortens (term K) hrun
        have hspace := rest.length_skip_le isBlank
        have hinner := Input.length_skip_le isBlank ⟨(rest.skip isBlank).position + 1, text⟩
        refine readsTerms_comma hK hends hlt hread hcomma (hterms _ ?_ ?_)
        · simp only [hcomma, List.length_cons] at hspace hinner
          omega
        · exact Input.skip_of_head (Input.head_skip isBlank _)
      · refine readsTerms_no_comma hK hends hlt hread ?_
        rintro c hc rfl
        exact hcomma (List.head?_eq_some_iff.1 hc)
    | @lost _ _ f text hopen hlt hstart hread =>
      -- the parenthesis behind the name is no comma, and does not close anything
      have hskip : rest.skip isBlank = rest := Input.skip_of_head (by simp [hopen]; rfl)
      have hlater : later (some f) (some (unexpected rest [some ','])) = some f :=
        congrArg some (furthest_of_gt hstart)
      have hmore := run_moreTerms_refused hK (i := rest) (by simp [hskip, hopen]) (term K)
      simp only [Reply.bind, hmore, Reply.map, hskip, hlater]
      refine .unclosed (by simp [hskip, hopen]) (Nat.le_of_lt hlt) fun name args outer => ?_
      rw [hread, hskip, behind_some_of_lt]
      exact hstart

/-- The parser of terms, and that of separated terms, reply what the reader does. -/
theorem readsTerms (i : Input) (hhead : i.skip isBlank = i) :
    ReadsTerms i (K.run (terms K (term K)) i) := by
  induction hn : i.rest.length using Nat.strongRecOn generalizing i with
  | _ n ih =>
    subst hn
    have hterms : ∀ j : Input, j.rest.length < i.rest.length → j.skip isBlank = j →
        ReadsTerms j (K.run (terms K (term K)) j) := fun j hj hhead => ih _ hj j hhead rfl
    exact readsTerms_step hK (readsTerm_step hK hhead hterms) hterms

theorem readsTerm (i : Input) (hhead : i.skip isBlank = i) : ReadsTerm i (K.run (term K) i) :=
  readsTerm_step hK hhead fun j _ hj => readsTerms hK j hj

/-- A source is read as by a reader that starts with nothing. -/
theorem run_source (i : Input) : (∃ t rest met, K.run (source K) i = .ok t rest met ∧
      readFrom .initial i = .ok t) ∨
    ∃ f, K.run (source K) i = .error f ∧ readFrom .initial i = .error f := by
  have hterm := readsTerm hK (i.skip isBlank) (Input.skip_of_head (Input.head_skip isBlank i))
  rw [Reader.initial, start_skip]
  simp only [source, hK.thenIgnore, hK.padded, hK.finished]
  generalize i.skip isBlank = i at *
  generalize K.run (term K) i = reply at hterm ⊢
  cases hterm with
  | @refused f hstart hread => exact .inr ⟨f, rfl, hread []⟩
  | @ended met t rest phase e hends hlt hread =>
    rw [hread, hends.readFrom_nil]
    by_cases hempty : (rest.skip isBlank).rest.isEmpty = true
    · exact .inl ⟨t, rest.skip isBlank, later met none, by simp [Reply.bind, hempty, Reply.map],
        by rw [if_pos hempty]⟩
    · refine .inr ⟨_, ?_, by rw [if_neg hempty]⟩
      simp [Reply.bind, hempty, Reply.map, hends.behind_skip]
  | @lost t rest f text hopen hlt hstart hread =>
    have hskip : rest.skip isBlank = rest := Input.skip_of_head (by simp [hopen]; rfl)
    have hbehind : (unexpected rest [none]).behind (some f) = f := behind_some_of_lt hstart
    exact .inr ⟨f, by simp [Reply.bind, hskip, hopen, Reply.map, hbehind], hread []⟩

end Parser

theorem parseWith_eq (hK : K.Lawful) (source : String) : parseWith K source =
    (readFrom .initial (.ofText source)).mapError .ofFailure := by
  rw [parseWith, hK.parse]
  rcases Parser.run_source hK (.ofText source) with
    ⟨t, rest, met, hrun, hread⟩ | ⟨f, hrun, hread⟩
  · rw [hrun, hread]
    rfl
  · rw [hrun, hread]
    rfl

end TermMachine.Source
