import Mathlib.Data.List.TakeWhile
import TermMachine.Proofs.Source.Reader

/-! # Outer blanks

The reader skips the blanks around a term, so a text parses as it does without them.
-/
namespace TermMachine.Source

variable {K : Combinators} {w cs : List Char} {T : Term} {c : Char}

namespace Reader

variable {r r' : Reader}

/-- A blank does not change what the text may end as. -/
theorem finish_of_step_blank (hc : WhiteSpace c) (hstep : r.step c = some r') :
    r'.finish = r.finish := by
  have hblank := isBlank_iff.2 hc
  have hword := mt isIdentifier_iff.1 hc.not_wordCharacter
  obtain ⟨frames, phase⟩ := r
  cases phase with
  | start =>
    rw [step, if_pos hblank, Option.some.injEq] at hstep
    rw [← hstep]
  | inVariable letters =>
    simp only [step, if_neg hword, afterTerm, if_pos hblank, Option.some.injEq] at hstep
    rw [← hstep, readsWord_variable.finish]
  | inName letters =>
    rw [step, if_neg hword, afterName, if_pos hblank, Option.some.injEq] at hstep
    rw [← hstep, readsWord_name.finish]
  | afterName name =>
    rw [step, afterName, if_pos hblank, Option.some.injEq] at hstep
    rw [← hstep]
  | afterTerm t =>
    simp only [step, afterTerm, if_pos hblank, Option.some.injEq] at hstep
    rw [← hstep]

theorem accepts_nil_of_blanks (hw : ∀ c ∈ w, WhiteSpace c) (h : r.Accepts w T) :
    r.Accepts [] T := by
  induction w generalizing r with
  | nil => exact h
  | cons c w ih =>
    obtain ⟨r', hstep, hrest⟩ := h
    have hend : r'.finish = some T := ih (fun d hd => hw d (List.mem_cons_of_mem c hd)) hrest
    exact (finish_of_step_blank (hw c List.mem_cons_self) hstep).symm.trans hend

theorem accepts_of_append_blanks (hw : ∀ c ∈ w, WhiteSpace c) (h : r.Accepts (cs ++ w) T) :
    r.Accepts cs T := by
  induction cs generalizing r with
  | nil => exact accepts_nil_of_blanks hw h
  | cons c cs ih =>
    obtain ⟨r', hstep, hrest⟩ := h
    exact ⟨r', hstep, ih hrest⟩

end Reader

theorem exists_eq_trimBlanks (cs : List Char) : ∃ w w', cs = w ++ (trimBlanks cs ++ w') ∧
    (∀ c ∈ w, WhiteSpace c) ∧ ∀ c ∈ w', WhiteSpace c := by
  have hblanks : ∀ text : List Char, ∀ c ∈ text.takeWhile isBlank, WhiteSpace c :=
    fun text c hc => isBlank_iff.1 (List.mem_takeWhile_imp hc)
  refine ⟨cs.takeWhile isBlank, ((cs.dropWhile isBlank).reverse.takeWhile isBlank).reverse, ?_,
    hblanks cs, fun c hc => hblanks _ c (List.mem_reverse.1 hc)⟩
  rw [trimBlanks, ← List.reverse_append, List.takeWhile_append_dropWhile, List.reverse_reverse,
    List.takeWhile_append_dropWhile]

theorem parse_trimBlanks (hK : K.Lawful) {text : String} (h : parseWith K text = .ok T) :
    parseWith K (String.ofList (trimBlanks text.toList)) = .ok T := by
  obtain ⟨w, w', htext, hw, hw'⟩ := exists_eq_trimBlanks text.toList
  rw [parseWith_eq_ok_iff_accepts hK, Reader.initial] at h ⊢
  rw [String.toList_ofList]
  rw [htext, Reader.start_blanks ⟨w, rfl, hw⟩] at h
  exact Reader.accepts_of_append_blanks hw' h

/-- No term starts with a dash, and the empty text is none. -/
theorem exists_head_of_parse (hK : K.Lawful) {text : String} (h : parseWith K text = .ok T) :
    ∃ c cs, text.toList = c :: cs ∧ c ≠ '-' := by
  rw [parseWith_eq_ok_iff_accepts hK] at h
  cases htext : text.toList with
  | nil =>
    rw [htext] at h
    cases h
  | cons c cs =>
    refine ⟨c, cs, rfl, ?_⟩
    rintro rfl
    rw [htext] at h
    obtain ⟨r', hstep, -⟩ := h
    cases hstep

end TermMachine.Source
