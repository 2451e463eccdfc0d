import Mathlib.Data.List.Basic
import Mathlib.Order.Bounds.Basic
import TermMachine.Proofs.Source.Reader

/-! # Where a text stops being a source

Whatever a reader has taken, it can still be brought to a term: a name where a term must start, and
a parenthesis for each structure that is open. So the texts that the reader takes are those that
some source begins with, and the position of a syntax error is the length of the longest of them
that the text begins with.
-/
namespace TermMachine.Source

/-- The text can be continued to one that parses. -/
def BeginsSource (K : Combinators) (text : List Char) : Prop :=
  ∃ rest t, parseWith K (String.ofList (text ++ rest)) = .ok t

variable {K : Combinators}

namespace Reader

variable {r r' : Reader} {text rest : List Char} {T : Term}

def behind (r : Reader) (text : List Char) : Option Reader := text.foldlM step r

theorem behind_cons (r : Reader) (c : Char) (text : List Char) :
    r.behind (c :: text) = (r.step c).bind fun r' => r'.behind text := by
  rw [behind, List.foldlM_cons]
  rfl

theorem behind_append (r : Reader) (text rest : List Char) :
    r.behind (text ++ rest) = (r.behind text).bind fun r' => r'.behind rest := by
  rw [behind, List.foldlM_append]
  rfl

theorem accepts_append :
    r.Accepts (text ++ rest) T ↔ ∃ r', r.behind text = some r' ∧ r'.Accepts rest T := by
  induction text generalizing r with
  | nil => simp [behind]
  | cons c text ih =>
    rw [List.cons_append, Accepts, behind_cons]
    cases r.step c with
    | none => simp
    | some r' => simpa using ih

theorem ReadsWord.accepts_end {inside : List Char → Phase} {behind : String → Phase}
    (hword : ReadsWord inside behind) {frames : List Frame} {letters : List Char}
    (hends : EndsWord rest) :
    Accepts ⟨frames, inside letters⟩ rest T ↔ Accepts ⟨frames, behind (word letters)⟩ rest T :=
  accepts_congr (fun _ => hword.finish) fun c hc =>
    hword.other (Bool.eq_false_iff.2 (mt isIdentifier_iff.1 (hends c hc)))

theorem exists_accepts_afterTerm (frames : List Frame) (t : Term) :
    ∃ text T, Accepts ⟨frames, .afterTerm t⟩ text T := by
  induction frames generalizing t with
  | nil => exact ⟨[], t, rfl⟩
  | cons frame outer ih =>
    obtain ⟨text, T, h⟩ := ih (.app frame.name (t :: frame.args).reverse)
    exact ⟨')' :: text, T, afterTerm_cons.2 (.inr ⟨text, .refl _, h⟩)⟩

theorem exists_accepts (r : Reader) : ∃ text T, r.Accepts text T := by
  obtain ⟨frames, phase⟩ := r
  cases phase with
  | start =>
    obtain ⟨text, T, h⟩ := exists_accepts_afterTerm frames (.atom "a")
    have hword : Word false NameStart ('a' :: text) ['a'] text :=
      ⟨rfl, ⟨'a', [], rfl, ⟨by decide, by decide⟩, by simp⟩, by simp⟩
    exact ⟨'a' :: text, T, accepts_of_derives (.atom hword) h⟩
  | inVariable letters =>
    obtain ⟨text, T, h⟩ := exists_accepts_afterTerm frames (.var (word letters))
    exact ⟨text, T, (readsWord_variable.accepts_end (endsWord_of_afterTerm h)).2 h⟩
  | inName letters =>
    obtain ⟨text, T, h⟩ := exists_accepts_afterTerm frames (.atom (word letters))
    have hname := afterName_iff.2 (.inr h)
    exact ⟨text, T, (readsWord_name.accepts_end (endsWord_of_afterTerm h)).2 hname⟩
  | afterName name =>
    obtain ⟨text, T, h⟩ := exists_accepts_afterTerm frames (.atom name)
    exact ⟨text, T, afterName_iff.2 (.inr h)⟩
  | afterTerm t => exact exists_accepts_afterTerm frames t

theorem beginsSource_iff (hK : K.Lawful) :
    BeginsSource K text ↔ ∃ r, initial.behind text = some r := by
  simp only [BeginsSource, parseWith_eq_ok_iff_accepts hK, String.toList_ofList, accepts_append]
  constructor
  · rintro ⟨rest, T, r, hr, -⟩
    exact ⟨r, hr⟩
  · rintro ⟨r, hr⟩
    obtain ⟨rest, T, h⟩ := exists_accepts r
    exact ⟨rest, T, r, hr, h⟩

/-- Reading fails behind the longest text that is taken: at a character that does not fit there, or
at an end that must not be there. -/
theorem readFrom_eq_error {i : Input} {f : Failure} (h : r.readFrom i = .error f) :
    ∃ text rest r', i.rest = text ++ rest ∧ r.behind text = some r' ∧
      f = r'.failure ⟨i.position + text.length, rest⟩ ∧
      (∀ c ∈ rest.head?, r'.step c = none) ∧ (rest = [] → r'.finish = none) := by
  obtain ⟨p, cs⟩ := i
  induction cs generalizing p r with
  | nil =>
    rw [readFrom, Reader.read] at h
    cases hfinish : r.finish with
    | some t => simp [hfinish] at h
    | none =>
      simp only [hfinish, Except.error.injEq] at h
      exact ⟨[], [], r, rfl, rfl, h.symm, by simp, fun _ => hfinish⟩
  | cons c cs ih =>
    rw [readFrom, Reader.read] at h
    cases hstep : r.step c with
    | none =>
      simp only [hstep, Except.error.injEq] at h
      exact ⟨[], c :: cs, r, rfl, rfl, h.symm, by simpa using hstep, by simp⟩
    | some r₁ =>
      simp only [hstep] at h
      obtain ⟨text, rest, r', hcs, hbehind, he, hrefused, hend⟩ := ih (p := p + 1) h
      refine ⟨c :: text, rest, r', congrArg (List.cons c) hcs, ?_, ?_, hrefused, hend⟩
      · rw [behind_cons, hstep]
        exact hbehind
      · rw [he, List.length_cons, Nat.add_assoc, Nat.add_comm 1]

theorem parseWith_eq_error (hK : K.Lawful) {source : String} {e : SyntaxError}
    (h : parseWith K source = .error e) :
    ∃ text rest r, source.toList = text ++ rest ∧ initial.behind text = some r ∧
      e = .ofFailure (r.failure ⟨text.length, rest⟩) ∧
      (∀ c ∈ rest.head?, r.step c = none) ∧ (rest = [] → r.finish = none) := by
  rw [parseWith_eq hK] at h
  cases hread : readFrom .initial (.ofText source) with
  | ok t =>
    rw [hread] at h
    cases h
  | error f =>
    rw [hread] at h
    have hfailure : SyntaxError.ofFailure f = e := Except.error.inj h
    obtain ⟨text, rest, r, hsource, hbehind, rfl, hstop⟩ := readFrom_eq_error hread
    exact ⟨text, rest, r, hsource, hbehind, by rw [← hfailure, Input.ofText, Nat.zero_add],
      hstop⟩

theorem failure_start (r : Reader) (i : Input) : (r.failure i).start = i.position := by
  unfold failure
  split <;> rfl

end Reader

theorem BeginsSource.of_longer {text longer : List Char} (h : BeginsSource K longer)
    (hpre : text <+: longer) : BeginsSource K text := by
  obtain ⟨more, rfl⟩ := hpre
  obtain ⟨rest, t, hparse⟩ := h
  exact ⟨more ++ rest, t, by rw [← List.append_assoc, hparse]⟩

open Reader in
/-- The position of a syntax error is the length of the longest prefix that can be continued to a
source. So the text begins a source up to there, and with the character there, if there is one, it
no longer does. -/
theorem parse_error_position (hK : K.Lawful) {source : String} {e : SyntaxError}
    (h : parseWith K source = .error e) :
    IsGreatest {n | n ≤ source.length ∧ BeginsSource K (source.toList.take n)} e.position ∧
      (e.position = source.length ∨ ¬BeginsSource K (source.toList.take (e.position + 1))) := by
  obtain ⟨text, rest, r, hsource, hbehind, rfl, hrefused, -⟩ := parseWith_eq_error hK h
  have hlength : source.length = text.length + rest.length := by
    rw [← String.length_toList, hsource, List.length_append]
  have htake : source.toList.take text.length = text := by rw [hsource, List.take_left]
  have hbegins : BeginsSource K text := (beginsSource_iff hK).2 ⟨r, hbehind⟩
  simp only [SyntaxError.ofFailure, failure_start]
  cases rest with
  | nil =>
    rw [List.length_nil, Nat.add_zero] at hlength
    exact ⟨⟨⟨hlength.ge, by rwa [htake]⟩, fun n hn => hn.1.trans hlength.le⟩, .inl hlength.symm⟩
  | cons c rest =>
    -- with the next character the reader is stuck
    have hnext : ¬BeginsSource K (source.toList.take (text.length + 1)) := by
      rw [hsource, List.take_length_add_append, beginsSource_iff hK]
      rintro ⟨r', hr'⟩
      rw [behind_append, hbehind, Option.bind_some, List.take_succ_cons, behind_cons,
        hrefused c rfl] at hr'
      cases hr'
    refine ⟨⟨⟨?_, by rwa [htake]⟩, fun n hn => ?_⟩, .inr hnext⟩
    · rw [hlength]
      exact Nat.le_add_right _ _
    · by_contra hlt
      exact hnext (hn.2.of_longer (List.take_prefix_take_left (Nat.succ_le_of_lt (not_le.1 hlt))))

/-- A letter that is none of the grammar's, where an argument must start behind a blank that is not
ASCII and a name with a blank before its parenthesis. -/
theorem parse_error_position_argument :
    let reason := "Unexpected token while parsing variable, expected something else"
    Combinators.scanners.Lawful ∧
      parse "h(X ,\u2003g (é, b)" = .error ⟨9, reason, 9, 10, some 'é', none⟩ ∧
      IsGreatest {n | n ≤ "h(X ,\u2003g (é, b)".length ∧
        BeginsSource .scanners ("h(X ,\u2003g (é, b)".toList.take n)} 9 ∧
      (9 = "h(X ,\u2003g (é, b)".length ∨
        ¬BeginsSource .scanners ("h(X ,\u2003g (é, b)".toList.take (9 + 1))) := by
  intro reason
  have hparse : parse "h(X ,\u2003g (é, b)" = .error ⟨9, reason, 9, 10, some 'é', none⟩ := by rfl
  exact ⟨Combinators.scanners_lawful, hparse,
    parse_error_position Combinators.scanners_lawful hparse⟩

end TermMachine.Source
