import TermMachine.Proofs.External.Scanner
import TermMachine.Proofs.Source.Descent
import TermMachine.Proofs.Source.Grammar

/-! # The reader reads the grammar

What a reader accepts behind each of its phases is what the grammar has there: blanks, a term, and
what may follow a term inside the open structures. So a text is read as a term exactly when it
derives from it, and this does not depend on whether words have to be as long as possible.
-/
namespace TermMachine.Source

theorem isBlank_iff {c : Char} : isBlank c = true ↔ WhiteSpace c := by
  simp only [isBlank, blankCodes, List.contains_iff_mem, List.mem_cons, List.not_mem_nil, or_false,
    WhiteSpace]
  omega

theorem le_iff_toNat_le {a b : Char} : a ≤ b ↔ a.toNat ≤ b.toNat := Iff.rfl

theorem isUpper_iff {c : Char} : c.isUpper = true ↔ 'A' ≤ c ∧ c ≤ 'Z' := by
  have hc : c.isUpper = decide ('A' ≤ c ∧ c ≤ 'Z') := rfl
  rw [hc, decide_eq_true_iff]

theorem isLower_iff {c : Char} : c.isLower = true ↔ 'a' ≤ c ∧ c ≤ 'z' := by
  have hc : c.isLower = (decide ('a' ≤ c) && decide (c ≤ 'z')) := rfl
  rw [hc, Bool.and_eq_true, decide_eq_true_iff, decide_eq_true_iff]

theorem isDigit_iff {c : Char} : c.isDigit = true ↔ '0' ≤ c ∧ c ≤ '9' := by
  have hc : c.isDigit = (decide ('0' ≤ c) && decide (c ≤ '9')) := rfl
  rw [hc, Bool.and_eq_true, decide_eq_true_iff, decide_eq_true_iff]

theorem startsVariable_iff {c : Char} : startsVariable c = true ↔ VariableStart c := by
  simp [startsVariable, VariableStart, isUpper_iff]

theorem startsName_iff {c : Char} : startsName c = true ↔ NameStart c := isLower_iff

theorem isIdentifier_iff {c : Char} : isIdentifier c = true ↔ WordCharacter c := by
  have hc : c.isAlphanum = (c.isUpper || c.isLower || c.isDigit) := rfl
  simp only [isIdentifier, hc, Bool.or_eq_true, isUpper_iff, isLower_iff, isDigit_iff, beq_iff_eq,
    WordCharacter, or_assoc]

theorem wordCharacter_iff {c : Char} : WordCharacter c ↔ (65 ≤ c.toNat ∧ c.toNat ≤ 90) ∨
    (97 ≤ c.toNat ∧ c.toNat ≤ 122) ∨ (48 ≤ c.toNat ∧ c.toNat ≤ 57) ∨ c.toNat = 95 := by
  simp only [WordCharacter, le_iff_toNat_le, ← Char.toNat_inj]
  exact Iff.rfl

theorem WhiteSpace.not_wordCharacter {c : Char} (hc : WhiteSpace c) : ¬WordCharacter c := by
  rw [wordCharacter_iff]
  unfold WhiteSpace at hc
  omega

theorem VariableStart.wordCharacter {c : Char} (hc : VariableStart c) : WordCharacter c := by
  rcases hc with hc | hc
  · exact .inl hc
  · exact .inr (.inr (.inr hc))

theorem NameStart.wordCharacter {c : Char} (hc : NameStart c) : WordCharacter c := .inr (.inl hc)

theorem isBlank_of_wordCharacter {c : Char} (hc : WordCharacter c) : isBlank c = false := by
  rw [← Bool.not_eq_true, isBlank_iff]
  exact fun hblank => hblank.not_wordCharacter hc

theorem NameStart.not_variableStart {c : Char} (hc : NameStart c) : ¬VariableStart c := by
  unfold NameStart at hc
  simp only [VariableStart, le_iff_toNat_le, ← Char.toNat_inj] at hc ⊢
  have ha : 'a'.toNat = 97 := rfl
  have hz : 'Z'.toNat = 90 := rfl
  have hu : '_'.toNat = 95 := rfl
  omega

namespace Reader

def Accepts : Reader → List Char → Term → Prop
  | r, [], t => r.finish = some t
  | r, c :: cs, t => ∃ r', r.step c = some r' ∧ Accepts r' cs t

theorem readFrom_eq_ok_iff {r : Reader} {i : Input} {t : Term} :
    r.readFrom i = .ok t ↔ r.Accepts i.rest t := by
  obtain ⟨p, cs⟩ := i
  induction cs generalizing p r with
  | nil =>
    rw [readFrom, Reader.read, Accepts]
    cases r.finish with
    | none => simp
    | some u => simp
  | cons c cs ih =>
    rw [readFrom, Reader.read, Accepts]
    cases r.step c with
    | none => simp
    | some r' => simpa [readFrom] using ih (p := p + 1)

variable {r r' : Reader} {frames outer : List Frame} {cs text rest w letters : List Char}
  {t T : Term} {name : String} {args : List Term} {c : Char}

theorem accepts_congr (hfinish : cs = [] → r.finish = r'.finish)
    (hstep : ∀ c ∈ cs.head?, r.step c = r'.step c) : r.Accepts cs T ↔ r'.Accepts cs T := by
  cases cs with
  | nil => rw [Accepts, Accepts, hfinish rfl]
  | cons c cs => rw [Accepts, Accepts, hstep c rfl]

theorem accepts_cons_of_step (h : r.step c = some r') :
    r.Accepts (c :: cs) T ↔ r'.Accepts cs T := by
  rw [Accepts, h]
  simp

theorem accepts_blanks (hstay : ∀ c, WhiteSpace c → r.step c = some r) (h : Blanks text rest) :
    r.Accepts text T ↔ r.Accepts rest T := by
  obtain ⟨w, rfl, hw⟩ := h
  induction w with
  | nil => rfl
  | cons c w ih =>
    have hc := hstay c (hw c List.mem_cons_self)
    rw [List.cons_append, accepts_cons_of_step hc]
    exact ih fun d hd => hw d (List.mem_cons_of_mem c hd)

theorem start_blanks (h : Blanks text rest) :
    Accepts ⟨frames, .start⟩ text T ↔ Accepts ⟨frames, .start⟩ rest T :=
  accepts_blanks (fun c hc => by simp [step, isBlank_iff.2 hc]) h

theorem afterTerm_blanks (h : Blanks text rest) :
    Accepts ⟨frames, .afterTerm t⟩ text T ↔ Accepts ⟨frames, .afterTerm t⟩ rest T :=
  accepts_blanks (fun c hc => by simp [step, afterTerm, isBlank_iff.2 hc]) h

theorem afterName_blanks (h : Blanks text rest) :
    Accepts ⟨frames, .afterName name⟩ text T ↔ Accepts ⟨frames, .afterName name⟩ rest T :=
  accepts_blanks (fun c hc => by simp [step, afterName, isBlank_iff.2 hc]) h

variable {inside : List Char → Phase} {behind : String → Phase}

/-- A word is read to its end. -/
theorem ReadsWord.accepts (hword : ReadsWord inside behind) (hw : ∀ d ∈ w, WordCharacter d)
    (hends : EndsWord rest) : Accepts ⟨frames, inside letters⟩ (w ++ rest) T ↔
      Accepts ⟨frames, behind (String.ofList (letters.reverse ++ w))⟩ rest T := by
  have hletters : ∀ d ∈ w, isIdentifier d = true := fun d hd => isIdentifier_iff.2 (hw d hd)
  have hrest : ∀ d ∈ rest.head?, isIdentifier d = false := fun d hd =>
    Bool.eq_false_iff.2 (mt isIdentifier_iff.1 (hends d hd))
  have hnone : rest.takeWhile isIdentifier = [] ∧ rest.dropWhile isIdentifier = rest := by
    cases rest with
    | nil => exact ⟨rfl, rfl⟩
    | cons d rest =>
      have hd : isIdentifier d = false := hrest d rfl
      simp [hd]
  have hread := hword.readFrom frames letters ⟨0, w ++ rest⟩
  rw [List.takeWhile_append_of_pos hletters, hnone.1, List.append_nil] at hread
  have hskip : (Input.skip isIdentifier ⟨0, w ++ rest⟩).rest = rest := by
    rw [Input.skip, List.dropWhile_append_of_pos hletters, hnone.2]
  rw [← hskip, ← readFrom_eq_ok_iff, ← hread, readFrom_eq_ok_iff, hskip]

theorem exists_blanks (cs : List Char) :
    ∃ rest, Blanks cs rest ∧ ∀ c ∈ rest.head?, ¬WhiteSpace c := by
  induction cs with
  | nil => exact ⟨[], .refl [], by simp⟩
  | cons c cs ih =>
    by_cases hc : WhiteSpace c
    · obtain ⟨rest, hblanks, hrest⟩ := ih
      exact ⟨rest, hblanks.cons hc, hrest⟩
    · exact ⟨c :: cs, .refl _, by simpa using hc⟩

/-- Where a term must start, a word starts. -/
theorem start_cases (h : Accepts ⟨frames, .start⟩ cs T) : ∃ c text, Blanks cs (c :: text) ∧
    (VariableStart c ∧ Accepts ⟨frames, .inVariable [c]⟩ text T ∨
      NameStart c ∧ Accepts ⟨frames, .inName [c]⟩ text T) := by
  obtain ⟨rest, hblanks, hrest⟩ := exists_blanks cs
  rw [start_blanks hblanks] at h
  cases rest with
  | nil => cases frames <;> simp [Accepts, finish] at h
  | cons c text =>
    obtain ⟨r', hstep, hr'⟩ := h
    have hblank : ¬isBlank c = true := mt isBlank_iff.1 (hrest c rfl)
    refine ⟨c, text, hblanks, ?_⟩
    by_cases hvar : startsVariable c = true
    · simp only [step, hblank, hvar, Bool.false_eq_true, if_false, if_true,
        Option.some.injEq] at hstep
      exact .inl ⟨startsVariable_iff.1 hvar, hstep ▸ hr'⟩
    · by_cases hname : startsName c = true
      · simp only [step, hblank, hvar, hname, Bool.false_eq_true, if_false, if_true,
          Option.some.injEq] at hstep
        exact .inr ⟨startsName_iff.1 hname, hstep ▸ hr'⟩
      · simp [step, hblank, hvar, hname] at hstep

theorem start_variable (hc : VariableStart c) :
    Accepts ⟨frames, .start⟩ (c :: cs) T ↔ Accepts ⟨frames, .inVariable [c]⟩ cs T := by
  apply accepts_cons_of_step
  simp [step, isBlank_of_wordCharacter hc.wordCharacter, startsVariable_iff.2 hc]

theorem start_name (hc : NameStart c) :
    Accepts ⟨frames, .start⟩ (c :: cs) T ↔ Accepts ⟨frames, .inName [c]⟩ cs T := by
  apply accepts_cons_of_step
  simp [step, isBlank_of_wordCharacter hc.wordCharacter, startsName_iff.2 hc,
    mt startsVariable_iff.1 hc.not_variableStart]

/-- Behind the whole term only blanks stand. -/
theorem afterTerm_nil : Accepts ⟨[], .afterTerm t⟩ cs T ↔ Blanks cs [] ∧ t = T := by
  constructor
  · intro h
    obtain ⟨rest, hblanks, hrest⟩ := exists_blanks cs
    rw [afterTerm_blanks hblanks] at h
    cases rest with
    | nil => exact ⟨hblanks, Option.some.inj h⟩
    | cons c text =>
      obtain ⟨r', hstep, -⟩ := h
      simp [step, afterTerm, mt isBlank_iff.1 (hrest c rfl)] at hstep
  · rintro ⟨hblanks, rfl⟩
    rw [afterTerm_blanks hblanks]
    rfl

/-- Behind an argument stands a comma or the closing parenthesis. -/
theorem afterTerm_cons : Accepts ⟨⟨name, args⟩ :: outer, .afterTerm t⟩ cs T ↔
    (∃ text, Blanks cs (',' :: text) ∧ Accepts ⟨⟨name, t :: args⟩ :: outer, .start⟩ text T) ∨
      ∃ text, Blanks cs (')' :: text) ∧
        Accepts ⟨outer, .afterTerm (.app name (t :: args).reverse)⟩ text T := by
  constructor
  · intro h
    obtain ⟨rest, hblanks, hrest⟩ := exists_blanks cs
    rw [afterTerm_blanks hblanks] at h
    cases rest with
    | nil => cases h
    | cons c text =>
      obtain ⟨r', hstep, hr'⟩ := h
      have hblank : ¬isBlank c = true := mt isBlank_iff.1 (hrest c rfl)
      by_cases hcomma : c = ','
      · subst hcomma
        simp only [step, afterTerm, hblank, Bool.false_eq_true, if_false, if_true,
          Option.some.injEq] at hstep
        exact .inl ⟨text, hblanks, hstep ▸ hr'⟩
      · by_cases hclose : c = ')'
        · subst hclose
          simp only [step, afterTerm, hblank, hcomma, Bool.false_eq_true, if_false, if_true,
            Option.some.injEq] at hstep
          exact .inr ⟨text, hblanks, hstep ▸ hr'⟩
        · simp [step, afterTerm, hblank, hcomma, hclose] at hstep
  · rintro (⟨text, hblanks, h⟩ | ⟨text, hblanks, h⟩)
    · rw [afterTerm_blanks hblanks, accepts_cons_of_step rfl]
      exact h
    · rw [afterTerm_blanks hblanks, accepts_cons_of_step rfl]
      exact h

/-- What follows a term does not go on with its last word. -/
theorem endsWord_of_afterTerm (h : Accepts ⟨frames, .afterTerm t⟩ cs T) : EndsWord cs := by
  intro c hc hword
  obtain ⟨text, rfl⟩ : ∃ text, cs = c :: text := List.head?_eq_some_iff.1 hc
  obtain ⟨r', hstep, -⟩ := h
  have hcomma : c ≠ ',' := by
    rintro rfl
    rw [wordCharacter_iff] at hword
    exact absurd hword (by decide)
  have hclose : c ≠ ')' := by
    rintro rfl
    rw [wordCharacter_iff] at hword
    exact absurd hword (by decide)
  cases frames with
  | nil => simp [step, afterTerm, isBlank_of_wordCharacter hword] at hstep
  | cons frame outer =>
    simp [step, afterTerm, isBlank_of_wordCharacter hword, hcomma, hclose] at hstep

/-- A name has arguments behind it, or it is an atom. -/
theorem afterName_iff : Accepts ⟨frames, .afterName name⟩ cs T ↔
    (∃ text, Blanks cs ('(' :: text) ∧ Accepts ⟨⟨name, []⟩ :: frames, .start⟩ text T) ∨
      Accepts ⟨frames, .afterTerm (.atom name)⟩ cs T := by
  obtain ⟨rest, hblanks, hrest⟩ := exists_blanks cs
  have hatom : (∀ c ∈ rest.head?, c ≠ '(') → (Accepts ⟨frames, .afterName name⟩ rest T ↔
      Accepts ⟨frames, .afterTerm (.atom name)⟩ rest T) := by
    intro hopen
    apply accepts_congr
    · intro
      cases frames <;> rfl
    · intro c hc
      have hblank : ¬isBlank c = true := mt isBlank_iff.1 (hrest c hc)
      simp [step, afterName, hblank, hopen c hc]
  constructor
  · intro h
    rw [afterName_blanks hblanks] at h
    by_cases hopen : ∃ text, rest = '(' :: text
    · obtain ⟨text, rfl⟩ := hopen
      rw [accepts_cons_of_step rfl] at h
      exact .inl ⟨text, hblanks, h⟩
    · rw [afterTerm_blanks hblanks]
      refine .inr ((hatom ?_).1 h)
      rintro c hc rfl
      exact hopen (List.head?_eq_some_iff.1 hc)
  · rintro (⟨text, hblanks, h⟩ | h)
    · rw [afterName_blanks hblanks, accepts_cons_of_step rfl]
      exact h
    · rw [afterTerm_blanks hblanks] at h
      rw [afterName_blanks hblanks, hatom]
      · exact h
      · -- a term cannot be followed by an opening parenthesis
        rintro c hc rfl
        obtain ⟨text, rfl⟩ := List.head?_eq_some_iff.1 hc
        obtain ⟨r', hstep, -⟩ := h
        cases frames <;> cases hstep

/-- The word that starts with `c` and takes all letters that follow. -/
theorem exists_word {start : Char → Prop} (hc : start c) (cs : List Char) :
    ∃ w rest, Word true start (c :: cs) (c :: w) rest ∧ cs = w ++ rest ∧
      (∀ d ∈ w, WordCharacter d) ∧ EndsWord rest := by
  have hsplit : ∃ w rest, cs = w ++ rest ∧ (∀ d ∈ w, WordCharacter d) ∧ EndsWord rest := by
    induction cs with
    | nil => exact ⟨[], [], rfl, by simp, by simp [EndsWord]⟩
    | cons d cs ih =>
      by_cases hd : WordCharacter d
      · obtain ⟨w, rest, rfl, hw, hends⟩ := ih
        exact ⟨d :: w, rest, rfl, List.forall_mem_cons.2 ⟨hd, hw⟩, hends⟩
      · exact ⟨[], d :: cs, rfl, by simp, by simpa [EndsWord] using hd⟩
  obtain ⟨w, rest, rfl, hw, hends⟩ := hsplit
  exact ⟨w, rest, ⟨rfl, ⟨c, w, rfl, hc, hw⟩, fun _ => hends⟩, rfl, hw, hends⟩

def TermFirst (cs : List Char) : Prop :=
  ∀ ⦃frames : List Frame⦄ ⦃T : Term⦄, Accepts ⟨frames, .start⟩ cs T →
    ∃ text t rest, Blanks cs text ∧ Derives true text t rest ∧ rest.length < cs.length ∧
      Accepts ⟨frames, .afterTerm t⟩ rest T

def MoreFirst (cs : List Char) : Prop :=
  ∀ ⦃name : String⦄ ⦃args : List Term⦄ ⦃outer : List Frame⦄ ⦃t T : Term⦄,
    Accepts ⟨⟨name, args⟩ :: outer, .afterTerm t⟩ cs T →
      ∃ ts text rest, DerivesMore true cs ts text ∧ Blanks text (')' :: rest) ∧
        rest.length < cs.length ∧
        Accepts ⟨outer, .afterTerm (.app name (args.reverse ++ t :: ts))⟩ rest T

/-- Terms and arguments in shorter texts are those inside a term. -/
theorem termFirst_step (ih : ∀ text : List Char, text.length < cs.length →
    TermFirst text ∧ MoreFirst text) : TermFirst cs := by
  intro frames T h
  obtain ⟨c, tail, hblanks, ⟨hc, hr⟩ | ⟨hc, hr⟩⟩ := start_cases h
  · obtain ⟨w, rest, hword, rfl, hw, hends⟩ := exists_word hc tail
    rw [readsWord_variable.accepts hw hends] at hr
    have hlen := hblanks.length_le
    simp only [List.length_cons, List.length_append] at hlen
    exact ⟨_, _, rest, hblanks, .var hword, by omega, hr⟩
  · obtain ⟨w, rest, hword, rfl, hw, hends⟩ := exists_word hc tail
    rw [readsWord_name.accepts hw hends, afterName_iff] at hr
    have hlen := hblanks.length_le
    simp only [List.length_cons, List.length_append] at hlen
    rcases hr with ⟨inner, hopen, hinner⟩ | hatom
    · have hopenlen := hopen.length_le
      rw [List.length_cons] at hopenlen
      obtain ⟨text, t, rest₁, hb, ht, hlt, hafter⟩ := (ih inner (by omega)).1 hinner
      obtain ⟨ts, text₁, rest₂, hts, hclose, hlt', hdone⟩ := (ih rest₁ (by omega)).2 hafter
      exact ⟨_, _, rest₂, hblanks, .app hword hopen hb ht hts hclose, by omega, hdone⟩
    · exact ⟨_, _, rest, hblanks, .atom hword, by omega, hatom⟩

theorem moreFirst_step (ih : ∀ text : List Char, text.length < cs.length →
    TermFirst text ∧ MoreFirst text) : MoreFirst cs := by
  intro name args outer t T h
  rcases afterTerm_cons.1 h with ⟨inner, hcomma, hinner⟩ | ⟨rest, hclose, hrest⟩
  · have hlen := hcomma.length_le
    rw [List.length_cons] at hlen
    obtain ⟨text, u, rest, hb, hu, hlt, hafter⟩ := (ih inner (by omega)).1 hinner
    obtain ⟨us, text₁, rest₁, hus, hclose, hlt', hdone⟩ := (ih rest (by omega)).2 hafter
    refine ⟨u :: us, text₁, rest₁, .cons hcomma hb hu hus, hclose, by omega, ?_⟩
    simpa using hdone
  · have hlen := hclose.length_le
    rw [List.length_cons] at hlen
    refine ⟨[], cs, rest, .nil, hclose, by omega, ?_⟩
    simpa using hrest

theorem termFirst (cs : List Char) : TermFirst cs := by
  have hall : ∀ n, ∀ text : List Char, text.length < n → TermFirst text ∧ MoreFirst text := by
    intro n
    induction n with
    | zero =>
      intro text hlt
      omega
    | succ n ih =>
      intro text hlt
      have hshorter : ∀ text' : List Char, text'.length < text.length →
          TermFirst text' ∧ MoreFirst text' := fun text' hlt' => ih text' (by omega)
      exact ⟨termFirst_step hshorter, moreFirst_step hshorter⟩
  exact (hall (cs.length + 1) cs (Nat.lt_succ_self _)).1

variable {longest : Bool} {text₁ : List Char} {ts : List Term}

theorem endsWord_of_blanks (h : Blanks text (c :: rest)) (hc : ¬WordCharacter c) :
    EndsWord text := by
  obtain ⟨w, rfl, hw⟩ := h
  cases w with
  | nil => simpa [EndsWord] using hc
  | cons d w =>
    have hd := (hw d List.mem_cons_self).not_wordCharacter
    simpa [EndsWord] using hd

theorem start_of_variable (hword : Word longest VariableStart text w rest)
    (h : Accepts ⟨frames, .afterTerm (.var (String.ofList w))⟩ rest T) :
    Accepts ⟨frames, .start⟩ text T := by
  obtain ⟨c, cs, rfl, hc, hcs⟩ := hword.letters
  rw [hword.eq, List.cons_append, start_variable hc,
    readsWord_variable.accepts hcs (endsWord_of_afterTerm h)]
  exact h

theorem start_of_name (hword : Word longest NameStart text w rest) (hends : EndsWord rest)
    (h : Accepts ⟨frames, .afterName (String.ofList w)⟩ rest T) :
    Accepts ⟨frames, .start⟩ text T := by
  obtain ⟨c, cs, rfl, hc, hcs⟩ := hword.letters
  rw [hword.eq, List.cons_append, start_name hc, readsWord_name.accepts hcs hends]
  exact h

mutual
/-- A term is read where one must start, if what is left is read behind it. -/
theorem accepts_of_derives {text rest : List Char} {t : Term} {frames : List Frame} {T : Term} :
    Derives longest text t rest → Accepts ⟨frames, .afterTerm t⟩ rest T →
      Accepts ⟨frames, .start⟩ text T
  | .var hword, h => start_of_variable hword h
  | .atom hword, h => start_of_name hword (endsWord_of_afterTerm h) (afterName_iff.2 (.inr h))
  | .app hword hopen hblanks ht hts hclose, h => by
    have hopens : ¬WordCharacter '(' := by
      rw [wordCharacter_iff]
      decide
    apply start_of_name hword (endsWord_of_blanks hopen hopens)
    refine afterName_iff.2 (.inl ⟨_, hopen, (start_blanks hblanks).2 ?_⟩)
    exact accepts_of_derives ht (accepts_of_derivesMore hts hclose h)

theorem accepts_of_derivesMore {text text₁ rest : List Char} {ts : List Term} {name : String}
    {args : List Term} {outer : List Frame} {t T : Term} :
    DerivesMore longest text ts text₁ → Blanks text₁ (')' :: rest) →
      Accepts ⟨outer, .afterTerm (.app name (args.reverse ++ t :: ts))⟩ rest T →
      Accepts ⟨⟨name, args⟩ :: outer, .afterTerm t⟩ text T
  | .nil, hclose, h => afterTerm_cons.2 (.inr ⟨_, hclose, by simpa using h⟩)
  | .cons hcomma hblanks hu hus, hclose, h => by
    refine afterTerm_cons.2 (.inl ⟨_, hcomma, (start_blanks hblanks).2 ?_⟩)
    exact accepts_of_derives hu (accepts_of_derivesMore hus hclose (by simpa using h))
end

end Reader

mutual
/-- Words that are as long as possible are words. -/
theorem Derives.of_longest {text rest : List Char} {t : Term} {longest : Bool} :
    Derives true text t rest → Derives longest text t rest
  | .var hword => .var ⟨hword.eq, hword.letters, fun _ => hword.ends rfl⟩
  | .atom hword => .atom ⟨hword.eq, hword.letters, fun _ => hword.ends rfl⟩
  | .app hword hopen hblanks ht hts hclose =>
    .app ⟨hword.eq, hword.letters, fun _ => hword.ends rfl⟩ hopen hblanks ht.of_longest
      hts.of_longest hclose

theorem DerivesMore.of_longest {text rest : List Char} {ts : List Term} {longest : Bool} :
    DerivesMore true text ts rest → DerivesMore longest text ts rest
  | .nil => .nil
  | .cons hcomma hblanks ht hts => .cons hcomma hblanks ht.of_longest hts.of_longest
end

variable {K : Combinators}

theorem parseWith_eq_ok_iff_accepts (hK : K.Lawful) {source : String} {t : Term} :
    parseWith K source = .ok t ↔ Reader.initial.Accepts source.toList t := by
  have haccepts := Reader.readFrom_eq_ok_iff (r := .initial) (i := .ofText source) (t := t)
  rw [parseWith_eq hK]
  refine Iff.trans ?_ haccepts
  cases Reader.readFrom .initial (.ofText source) with
  | ok t' => exact ⟨fun h => congrArg _ (Except.ok.inj h), fun h => congrArg _ (Except.ok.inj h)⟩
  | error f => constructor <;> (intro h; cases h)

/-- A text parses as a term exactly when it is a source of this term, whether or not the words of a
source are asked to be as long as possible. -/
theorem parse_eq_ok_iff (hK : K.Lawful) (longest : Bool) (source : String) (t : Term) :
    parseWith K source = .ok t ↔ DerivesSource longest source.toList t := by
  rw [parseWith_eq_ok_iff_accepts hK, Reader.initial]
  constructor
  · intro h
    obtain ⟨text, u, rest, hblanks, hu, -, hafter⟩ := Reader.termFirst _ h
    obtain ⟨hend, rfl⟩ := Reader.afterTerm_nil.1 hafter
    exact ⟨text, rest, hblanks, hu.of_longest, hend⟩
  · rintro ⟨text, rest, hblanks, ht, hend⟩
    rw [Reader.start_blanks hblanks]
    exact Reader.accepts_of_derives ht (Reader.afterTerm_nil.2 ⟨hend, rfl⟩)

/-- Blanks on both sides of a comma, and between a name and its arguments. -/
theorem parse_eq_ok_iff_blanks : Combinators.scanners.Lawful ∧
    parse "f (a ,b)" = .ok (.app "f" [.atom "a", .atom "b"]) ∧
    DerivesSource true "f (a ,b)".toList (.app "f" [.atom "a", .atom "b"]) :=
  ⟨Combinators.scanners_lawful, by rfl,
    (parse_eq_ok_iff Combinators.scanners_lawful true _ _).1 (by rfl)⟩

end TermMachine.Source
