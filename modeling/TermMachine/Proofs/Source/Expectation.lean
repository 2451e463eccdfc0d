import TermMachine.Proofs.Source.Position

/-! # What may follow

What a reader expects is what may follow the text behind it: the punctuation with which the text
still begins a source, and the end of the text when it is a source already. Where a term must start
none of these may follow, and nothing else is expected by name. So the message of a syntax error can
be told from the sources alone.
-/
namespace TermMachine.Source

/-- What is expected, a character or the end of the text, may follow the text. -/
def Follows (K : Combinators) (text : List Char) : Option Char → Prop
  | some c => BeginsSource K (text ++ [c])
  | none => ∃ t, parseWith K (String.ofList text) = .ok t

def expectations : List (Option Char) := [some '(', some ')', some ',', none]

open Classical in
noncomputable def following (K : Combinators) (text : List Char) : List (Option Char) :=
  expectations.filter fun x => Follows K text x

variable {K : Combinators}

namespace Reader

variable {r : Reader} {text : List Char}

def allows (r : Reader) : Option Char → Bool
  | some c => (r.step c).isSome
  | none => r.finish.isSome

theorem expected_eq (r : Reader) : r.expected = expectations.filter r.allows := by
  obtain ⟨frames, phase⟩ := r
  cases phase <;> cases frames <;> rfl

theorem beginsSource_concat (hK : K.Lawful) (h : initial.behind text = some r) (c : Char) :
    BeginsSource K (text ++ [c]) ↔ (r.step c).isSome = true := by
  rw [beginsSource_iff hK, behind_append, h, Option.bind_some, behind_cons,
    Option.isSome_iff_exists]
  simp [behind]

theorem parse_iff_finish (hK : K.Lawful) (h : initial.behind text = some r) :
    (∃ t, parseWith K (String.ofList text) = .ok t) ↔ r.finish.isSome = true := by
  have hparse : ∀ t, parseWith K (String.ofList text) = .ok t ↔ r.finish = some t := by
    intro t
    rw [parseWith_eq_ok_iff_accepts hK, String.toList_ofList, ← List.append_nil text,
      accepts_append, h]
    simp [Accepts]
  simp only [hparse, Option.isSome_iff_exists]

theorem follows_iff (hK : K.Lawful) (h : initial.behind text = some r) (x : Option Char) :
    Follows K text x ↔ r.allows x = true := by
  cases x with
  | some c => exact beginsSource_concat hK h c
  | none => exact parse_iff_finish hK h

theorem expected_eq_following (hK : K.Lawful) (h : initial.behind text = some r) :
    r.expected = following K text := by
  rw [expected_eq, following]
  refine List.filter_congr fun x _ => Bool.eq_iff_iff.2 ?_
  simpa using (follows_iff hK h x).symm

end Reader

namespace SyntaxError

theorem expectations_sorted : (expectations.map expectedText).Pairwise (· ≤ ·) := by
  decide

theorem expectations_nodup : expectations.Nodup := by decide

/-- What a failure expects is named in the order of `expectations`. -/
theorem expectedTexts_ofList {l : List (Option Char)} (h : l.Sublist expectations) :
    expectedTexts (.ofList l compare) = l.map expectedText := by
  have hsorted : (expectedTexts (.ofList l compare)).Pairwise (· ≤ ·) := by
    refine (List.pairwise_mergeSort (fun a b c hab hbc => ?_) (fun a b => ?_) _).imp
      of_decide_eq_true
    · exact decide_eq_true (String.le_trans (of_decide_eq_true hab) (of_decide_eq_true hbc))
    · simpa using String.le_total a b
  have hset : (Std.ExtTreeSet.ofList l compare).toList.Perm l := by
    have hnodup : (Std.ExtTreeSet.ofList l compare).toList.Nodup :=
      Std.ExtTreeSet.distinct_toList.imp
        (by rintro x _ hne rfl; exact hne Std.ReflCmp.compare_self)
    refine (List.perm_ext_iff_of_nodup hnodup (expectations_nodup.sublist h)).2 fun x => ?_
    simp
  exact ((List.mergeSort_perm _ _).trans (hset.map expectedText)).eq_of_pairwise
    (fun a b _ _ => String.le_antisymm) hsorted (expectations_sorted.sublist (h.map expectedText))

/-- The reason that a reader's failure gives. -/
theorem reasonOf_failure (r : Reader) (i : Input) : reasonOf (r.failure i) =
    (if i.rest = [] then "Unexpected end of input" else "Unexpected token") ++
      if r.expected = [] then " while parsing variable, expected something else"
      else ", expected " ++ ", ".intercalate (r.expected.map expectedText) := by
  have hfound : (if i.rest.head?.isSome then "Unexpected token" else "Unexpected end of input") =
      if i.rest = [] then "Unexpected end of input" else "Unexpected token" := by
    cases i.rest <;> rfl
  by_cases hstart : r.isAtStart = true
  · have hnone : r.expected = [] := by rw [Reader.expected, if_pos hstart]
    rw [Reader.failure, if_pos hstart, hnone, if_pos rfl, ← hfound]
    simp [reasonOf, Failure.withLabel, Failure.unexpected, String.append_assoc]
  · have hsome : r.expected ≠ [] := by
      obtain ⟨frames, phase⟩ := r
      cases phase <;> cases frames <;> simp [Reader.expected, Reader.isAtStart, Reader.isAtName] at *
    have hset : (Std.ExtTreeSet.ofList r.expected compare).isEmpty = false := by simp [hsome]
    have hsub : r.expected.Sublist expectations := by
      rw [Reader.expected_eq]
      exact List.filter_sublist
    rw [Reader.failure, if_neg hstart, if_neg hsome, ← hfound,
      ← expectedTexts_ofList hsub]
    simp only [reasonOf, Failure.unexpected, hset, Bool.false_eq_true, if_false, String.append_assoc,
      String.empty_append]
    rfl

end SyntaxError

open Reader in
/-- The reason given for a syntax error is told by the text before it: whether the source ends
there, and what may follow. -/
theorem parse_error_reason (hK : K.Lawful) {source : String} {e : SyntaxError}
    (h : parseWith K source = .error e) :
    let text := source.toList.take e.position
    e.position ≤ source.length ∧ e.reason =
      (if text = source.toList then "Unexpected end of input" else "Unexpected token") ++
        if following K text = [] then " while parsing variable, expected something else"
        else ", expected " ++
          ", ".intercalate ((following K text).map SyntaxError.expectedText) := by
  obtain ⟨text, rest, r, hsource, hbehind, rfl, -, -⟩ := parseWith_eq_error hK h
  have hlength : source.length = text.length + rest.length := by
    rw [← String.length_toList, hsource, List.length_append]
  have htake : source.toList.take text.length = text := by rw [hsource, List.take_left]
  have hend : text = source.toList ↔ rest = [] := by simp [hsource]
  simp only [SyntaxError.ofFailure, failure_start, htake, hend, ← expected_eq_following hK hbehind]
  exact ⟨by omega, SyntaxError.reasonOf_failure r _⟩

/-- A character that fits nowhere, behind a name with blanks inside two structures. -/
theorem parse_error_reason_nested :
    Combinators.scanners.Lawful ∧ ∃ e, parse "p(f (X, a  $b" = .error e ∧ e.position = 11 ∧
      e.reason = "Unexpected token, expected '(', ')', ','" ∧
      11 ≤ "p(f (X, a  $b".length ∧ e.reason =
        (if "p(f (X, a  $b".toList.take 11 = "p(f (X, a  $b".toList then "Unexpected end of input"
          else "Unexpected token") ++
        if following .scanners ("p(f (X, a  $b".toList.take 11) = [] then
          " while parsing variable, expected something else"
        else ", expected " ++ ", ".intercalate
          ((following .scanners ("p(f (X, a  $b".toList.take 11)).map SyntaxError.expectedText) := by
  have hK := Combinators.scanners_lawful
  let r : Reader := ⟨[⟨"f", [.var "X"]⟩, ⟨"p", []⟩], .afterName "a"⟩
  let e : SyntaxError := .ofFailure (r.failure ⟨11, ['$', 'b']⟩)
  have hparse : parse "p(f (X, a  $b" = .error e := by
    rw [parse, parseWith_eq hK]
    rfl
  have hreason : e.reason = "Unexpected token, expected '(', ')', ','" :=
    SyntaxError.reasonOf_failure r ⟨11, ['$', 'b']⟩
  have hposition : e.position = 11 := rfl
  have htold := parse_error_reason hK hparse
  rw [hposition] at htold
  exact ⟨hK, e, hparse, hposition, hreason, htold⟩

end TermMachine.Source
