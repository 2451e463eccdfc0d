import TermMachine.Source.Parser

/-! # Reading character by character

A source text can be read without going back, one character at a time: what has been read is the
structures that are open, with the arguments they have so far, and the word or term that was read
last. A character that does not fit is refused, and no text goes on with it.
-/
namespace TermMachine.Source

structure Frame where
  name : String
  args : List Term

/-- What has been read last. The letters of an unfinished word stand last first. -/
inductive Phase where
  | start
  | inVariable (letters : List Char)
  | inName (letters : List Char)
  | afterName (name : String)
  | afterTerm (t : Term)

structure Reader where
  frames : List Frame
  phase : Phase

namespace Reader

def initial : Reader := ⟨[], .start⟩

def word (letters : List Char) : String := String.ofList letters.reverse

def afterTerm (frames : List Frame) (t : Term) (c : Char) : Option Reader :=
  if isBlank c then some ⟨frames, .afterTerm t⟩
  else
    match frames with
    | [] => none
    | ⟨name, args⟩ :: outer =>
      if c = ',' then some ⟨⟨name, t :: args⟩ :: outer, .start⟩
      else if c = ')' then some ⟨outer, .afterTerm (.app name (t :: args).reverse)⟩
      else none

def afterName (frames : List Frame) (name : String) (c : Char) : Option Reader :=
  if isBlank c then some ⟨frames, .afterName name⟩
  else if c = '(' then some ⟨⟨name, []⟩ :: frames, .start⟩
  else afterTerm frames (.atom name) c

def step : Reader → Char → Option Reader
  | ⟨frames, .start⟩, c =>
    if isBlank c then some ⟨frames, .start⟩
    else if startsVariable c then some ⟨frames, .inVariable [c]⟩
    else if startsName c then some ⟨frames, .inName [c]⟩
    else none
  | ⟨frames, .inVariable letters⟩, c =>
    if isIdentifier c then some ⟨frames, .inVariable (c :: letters)⟩
    else afterTerm frames (.var (word letters)) c
  | ⟨frames, .inName letters⟩, c =>
    if isIdentifier c then some ⟨frames, .inName (c :: letters)⟩
    else afterName frames (word letters) c
  | ⟨frames, .afterName name⟩, c => afterName frames name c
  | ⟨frames, .afterTerm t⟩, c => afterTerm frames t c

def finish : Reader → Option Term
  | ⟨[], .inVariable letters⟩ => some (.var (word letters))
  | ⟨[], .inName letters⟩ => some (.atom (word letters))
  | ⟨[], .afterName name⟩ => some (.atom name)
  | ⟨[], .afterTerm t⟩ => some t
  | _ => none

def isAtName (r : Reader) : Bool :=
  match r.phase with
  | .inName _ => true
  | .afterName _ => true
  | _ => false

def isAtStart (r : Reader) : Bool :=
  match r.phase with
  | .start => true
  | _ => false

/-- The punctuation that fits, and the end of the text when it may be here. -/
def expected (r : Reader) : List (Option Char) :=
  if r.isAtStart then []
  else
    (if r.isAtName then [some '('] else []) ++
      if r.frames.isEmpty then [none] else [some ')', some ',']

def failure (r : Reader) (i : Input) : Failure :=
  if r.isAtStart then (Failure.unexpected i []).withLabel "variable"
  else .unexpected i r.expected

def read : (position : Nat) → Reader → List Char → Except Failure Term
  | position, r, [] =>
    match r.finish with
    | some t => .ok t
    | none => .error (r.failure ⟨position, []⟩)
  | position, r, c :: cs =>
    match r.step c with
    | some r => read (position + 1) r cs
    | none => .error (r.failure ⟨position, c :: cs⟩)

def readFrom (r : Reader) (i : Input) : Except Failure Term := read i.position r i.rest

variable {r r' : Reader} {i : Input} {c : Char} {cs : List Char}

theorem readFrom_cons (hi : i.rest = c :: cs) (h : r.step c = some r') :
    r.readFrom i = r'.readFrom ⟨i.position + 1, cs⟩ := by
  simp [readFrom, hi, read, h]

theorem readFrom_refused (hend : i.rest = [] → r.finish = none)
    (hstep : ∀ c ∈ i.rest.head?, r.step c = none) : r.readFrom i = .error (r.failure i) := by
  obtain ⟨p, cs⟩ := i
  cases cs with
  | nil => simp [readFrom, read, hend rfl]
  | cons c cs => simp [readFrom, read, hstep c rfl]

theorem readFrom_congr (hend : i.rest = [] → r.finish = r'.finish)
    (hstep : ∀ c ∈ i.rest.head?, r.step c = r'.step c) (hfailure : r.failure i = r'.failure i) :
    r.readFrom i = r'.readFrom i := by
  obtain ⟨p, cs⟩ := i
  cases cs with
  | nil => simp [readFrom, read, hend rfl, hfailure]
  | cons c cs => simp [readFrom, read, hstep c rfl, hfailure]

/-- Characters that change nothing are skipped. -/
theorem readFrom_skip {test : Char → Bool} (hstay : ∀ c, test c = true → r.step c = some r)
    (i : Input) : r.readFrom i = r.readFrom (i.skip test) := by
  obtain ⟨p, cs⟩ := i
  induction cs generalizing p with
  | nil => rfl
  | cons c cs ih =>
    cases hc : test c with
    | false => simp [Input.skip, hc]
    | true =>
      rw [readFrom_cons rfl (hstay c hc), ih]
      simp [Input.skip, hc, Nat.add_right_comm, Nat.add_assoc]

theorem start_skip (frames : List Frame) (i : Input) :
    readFrom ⟨frames, .start⟩ i = readFrom ⟨frames, .start⟩ (i.skip isBlank) :=
  readFrom_skip (fun c hc => by simp [step, hc]) i

theorem afterTerm_skip (frames : List Frame) (t : Term) (i : Input) :
    readFrom ⟨frames, .afterTerm t⟩ i = readFrom ⟨frames, .afterTerm t⟩ (i.skip isBlank) :=
  readFrom_skip (fun c hc => by simp [step, afterTerm, hc]) i

theorem afterName_skip (frames : List Frame) (name : String) (i : Input) :
    readFrom ⟨frames, .afterName name⟩ i = readFrom ⟨frames, .afterName name⟩ (i.skip isBlank) :=
  readFrom_skip (fun c hc => by simp [step, afterName, hc]) i

/-- The phase `inside` reads the letters of a word, and `behind` goes on after it. -/
structure ReadsWord (inside : List Char → Phase) (behind : String → Phase) : Prop where
  letter : ∀ {frames letters c}, isIdentifier c = true →
    step ⟨frames, inside letters⟩ c = some ⟨frames, inside (c :: letters)⟩
  other : ∀ {frames letters c}, isIdentifier c = false →
    step ⟨frames, inside letters⟩ c = step ⟨frames, behind (word letters)⟩ c
  finish : ∀ {frames letters},
    finish ⟨frames, inside letters⟩ = finish ⟨frames, behind (word letters)⟩
  failure : ∀ {frames letters i},
    failure ⟨frames, inside letters⟩ i = failure ⟨frames, behind (word letters)⟩ i

theorem readsWord_variable : ReadsWord .inVariable fun name => .afterTerm (.var name) where
  letter hc := by simp [step, hc]
  other hc := by simp [step, hc]
  finish {frames letters} := by cases frames <;> rfl
  failure := rfl

theorem readsWord_name : ReadsWord .inName .afterName where
  letter hc := by simp [step, hc]
  other hc := by simp [step, hc]
  finish {frames letters} := by cases frames <;> rfl
  failure := rfl

/-- A word is read to its end. -/
theorem ReadsWord.readFrom {inside : List Char → Phase} {behind : String → Phase}
    (hword : ReadsWord inside behind) (frames : List Frame) (letters : List Char) (i : Input) :
    readFrom ⟨frames, inside letters⟩ i =
      readFrom ⟨frames, behind (String.ofList (letters.reverse ++ i.rest.takeWhile isIdentifier))⟩
        (i.skip isIdentifier) := by
  obtain ⟨p, cs⟩ := i
  induction cs generalizing p letters with
  | nil =>
    rw [readFrom_congr (fun _ => hword.finish) (by simp) hword.failure]
    simp [Input.skip, word]
  | cons c cs ih =>
    cases hc : isIdentifier c with
    | false =>
      rw [readFrom_congr (fun _ => hword.finish) (by simpa using hword.other hc) hword.failure]
      simp [Input.skip, hc, word]
    | true =>
      rw [readFrom_cons rfl (hword.letter hc), ih]
      simp [Input.skip, hc, Nat.add_right_comm, Nat.add_assoc]

end Reader
end TermMachine.Source
