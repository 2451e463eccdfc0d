import Std.Data.ExtTreeSet
import TermMachine.Source.Blank

/-! # Parser combinators

A parser takes a text from a position on and answers with a value and the text behind it, or fails.
Either way it tells the furthest failure that it met, so that what has been given up on the way can
still be reported. Combinators make parsers from parsers; they come from elsewhere, and `Lawful` says
all that is relied on: how they take a text, and which failure they tell.
-/
namespace TermMachine.Source

structure Input where
  position : Nat
  rest : List Char

namespace Input

def ofText (text : String) : Input := ⟨0, text.toList⟩

def skip (test : Char → Bool) (i : Input) : Input :=
  ⟨i.position + (i.rest.takeWhile test).length, i.rest.dropWhile test⟩

theorem length_skip_le (test : Char → Bool) (i : Input) :
    (i.skip test).rest.length ≤ i.rest.length := (List.dropWhile_sublist test).length_le

end Input

inductive Reason where
  | unexpected
  | unclosed (start stop : Nat) (delimiter : Char)
  | custom (message : String)

/-- An unclosed delimiter is told before anything else. -/
def Reason.merge : Reason → Reason → Reason
  | .unclosed start stop delimiter, _ => .unclosed start stop delimiter
  | .unexpected, .unclosed start stop delimiter => .unclosed start stop delimiter
  | .custom _, .unclosed start stop delimiter => .unclosed start stop delimiter
  | r, _ => r

/-- A failure at a position, with what was expected there; `none` stands for the end of the text. The
label names what was being parsed. -/
structure Failure where
  start : Nat
  stop : Nat
  reason : Reason
  expected : Std.ExtTreeSet (Option Char)
  found : Option Char
  label : Option String

namespace Failure

def unexpected (i : Input) (expected : List (Option Char)) : Failure :=
  ⟨i.position, i.position + 1, .unexpected, .ofList expected, i.rest.head?, none⟩

def withLabel (label : String) (f : Failure) : Failure := { f with label := f.label.or (some label) }

/-- The failure that is further on. Two at one position are merged into one that expects what both
expect. -/
def furthest (f g : Failure) : Failure :=
  if f.start < g.start then g
  else if g.start < f.start then f
  else { f with reason := f.reason.merge g.reason, expected := f.expected ∪ g.expected }

def behind (f : Failure) (met : Option Failure) : Failure :=
  match met with
  | none => f
  | some g => f.furthest g

def later (met : Option Failure) (next : Option Failure) : Option Failure :=
  match met, next with
  | none, next => next
  | some f, none => some f
  | some f, some g => some (f.furthest g)

end Failure

/-- The answer of a parser. With a value comes the furthest failure that was met on the way. -/
inductive Reply (α : Type) where
  | ok (value : α) (rest : Input) (met : Option Failure)
  | error (failure : Failure)

namespace Reply

def map {α β : Type} (g : α → β) : Reply α → Reply β
  | ok value rest met => .ok (g value) rest met
  | error f => .error f

def bind {α β : Type} (r : Reply α) (next : α → Input → Reply β) : Reply β :=
  match r with
  | error f => .error f
  | ok value rest met =>
    match next value rest with
    | ok value rest met' => .ok value rest (Failure.later met met')
    | error f => .error (f.behind met)

theorem map_eq_ok {α β : Type} {g : α → β} {r : Reply α} {value : β} {rest : Input}
    {met : Option Failure} (h : r.map g = .ok value rest met) :
    ∃ x, r = .ok x rest met ∧ value = g x := by
  cases r with
  | error f => cases h
  | ok x rest' met' =>
    obtain ⟨rfl, rfl, rfl⟩ := Reply.ok.inj h
    exact ⟨x, rfl, rfl⟩

theorem bind_eq_ok {α β : Type} {r : Reply α} {next : α → Input → Reply β} {value : β}
    {rest : Input} {met : Option Failure} (h : r.bind next = .ok value rest met) :
    ∃ x mid met₁ met₂, r = .ok x mid met₁ ∧ next x mid = .ok value rest met₂ ∧
      met = Failure.later met₁ met₂ := by
  cases r with
  | error f => cases h
  | ok x mid met₁ =>
    unfold bind at h
    cases hnext : next x mid with
    | error f => simp [hnext] at h
    | ok value' rest' met₂ =>
      simp only [hnext] at h
      obtain ⟨rfl, rfl, rfl⟩ := Reply.ok.inj h
      exact ⟨x, mid, met₁, met₂, rfl, hnext, rfl⟩

def ofTest (test : Char → Bool) (expected : List (Option Char)) (i : Input) : Reply Char :=
  match i.rest with
  | [] => .error (.unexpected i expected)
  | c :: cs => if test c then .ok c ⟨i.position + 1, cs⟩ none else .error (.unexpected i expected)

theorem ofTest_eq_ok {test : Char → Bool} {expected : List (Option Char)} {i rest : Input}
    {value : Char} {met : Option Failure} (h : ofTest test expected i = .ok value rest met) :
    i.rest = value :: rest.rest ∧ test value = true ∧ rest.position = i.position + 1 ∧
      met = none := by
  unfold ofTest at h
  split at h
  · cases h
  · rename_i c cs heq
    by_cases htest : test c
    · rw [if_pos htest] at h
      obtain ⟨rfl, rfl, rfl⟩ := Reply.ok.inj h
      exact ⟨heq, htest, rfl, rfl⟩
    · simp [htest] at h

end Reply

/-- `run` is one parser at work inside a larger one; `parse` takes a whole text and answers with all
its errors. `separatedBy` wants at least one value, and no separator behind the last. -/
structure Combinators where
  Parser : Type → Type
  run {α : Type} : Parser α → Input → Reply α
  parse {α : Type} : Parser α → String → Except (List Failure) α
  filter : (Char → Bool) → Parser Char
  just : Char → Parser Char
  finished : Parser Unit
  map {α β : Type} : (α → β) → Parser α → Parser β
  andThen {α β : Type} : Parser α → Parser β → Parser (α × β)
  orElse {α : Type} : Parser α → Parser α → Parser α
  orNot {α : Type} : Parser α → Parser (Option α)
  repeated {α : Type} : Parser α → Parser (List α)
  separatedBy {α β : Type} : Parser α → Parser β → Parser (List α)
  padded {α : Type} : Parser α → Parser α
  labelled {α : Type} : String → Parser α → Parser α
  recursive {α : Type} : (Parser α → Parser α) → Parser α

namespace Combinators

variable (K : Combinators) {α β : Type}

def chain (first : K.Parser Char) (rest : K.Parser (List Char)) : K.Parser (List Char) :=
  K.map (fun p => p.1 :: p.2) (K.andThen first rest)

def thenIgnore (p : K.Parser α) (q : K.Parser β) : K.Parser α := K.map Prod.fst (K.andThen p q)

def ignoreThen (p : K.Parser α) (q : K.Parser β) : K.Parser β := K.map Prod.snd (K.andThen p q)

def delimitedBy (p : K.Parser α) (opening closing : K.Parser β) : K.Parser α :=
  K.thenIgnore (K.ignoreThen opening p) closing

def whitespace : K.Parser Unit := K.map (fun _ => ()) (K.repeated (K.filter isBlank))

/-- A parser that takes a character whenever it answers with a value. -/
def Consumes (p : K.Parser α) : Prop :=
  ∀ {i value rest met}, K.run p i = .ok value rest met → rest.rest.length < i.rest.length

/-- A parser made of another one that it uses behind its first character only. -/
def Guarded (make : K.Parser α → K.Parser α) : Prop :=
  ∀ p q i, (∀ j : Input, j.rest.length < i.rest.length → K.run p j = K.run q j) →
    K.run (make p) i = K.run (make q) i

end Combinators

/-- What is relied on. Choice is ordered, and a choice that fails has failed in both. What may be left
out, and the end of a repetition, give up without taking anything. Repetition wants a parser that
takes something, recursion one that does so before it calls itself. -/
structure Combinators.Lawful (K : Combinators) : Prop where
  shortens {α : Type} (p : K.Parser α) {i value rest met} :
    K.run p i = .ok value rest met → rest.rest.length ≤ i.rest.length
  parse {α : Type} (p : K.Parser α) (text : String) : K.parse p text =
    match K.run p (.ofText text) with
    | .ok value _ _ => .ok value
    | .error f => .error [f]
  filter (test : Char → Bool) (i : Input) : K.run (K.filter test) i = .ofTest test [] i
  just (c : Char) (i : Input) : K.run (K.just c) i = .ofTest (· == c) [some c] i
  finished (i : Input) : K.run K.finished i =
    if i.rest.isEmpty then .ok () i none else .error (.unexpected i [none])
  map {α β : Type} (g : α → β) (p : K.Parser α) (i : Input) :
    K.run (K.map g p) i = (K.run p i).map g
  andThen {α β : Type} (p : K.Parser α) (q : K.Parser β) (i : Input) : K.run (K.andThen p q) i =
    (K.run p i).bind fun x rest => (K.run q rest).map (Prod.mk x)
  orElse {α : Type} (p q : K.Parser α) (i : Input) : K.run (K.orElse p q) i =
    match K.run p i with
    | .ok value rest met => .ok value rest met
    | .error f =>
      match K.run q i with
      | .ok value rest met => .ok value rest (Failure.later met (some f))
      | .error g => .error (f.furthest g)
  orNot {α : Type} (p : K.Parser α) (i : Input) : K.run (K.orNot p) i =
    match K.run p i with
    | .ok value rest met => .ok (some value) rest met
    | .error f => .ok none i (some f)
  repeated {α : Type} (p : K.Parser α) (i : Input) : K.Consumes p → K.run (K.repeated p) i =
    match K.run p i with
    | .error f => .ok [] i (some f)
    | .ok value rest met => Reply.bind (.ok value rest met) fun x rest =>
      (K.run (K.repeated p) rest).map (List.cons x)
  separatedBy {α β : Type} (p : K.Parser α) (q : K.Parser β) (i : Input) :
    K.run (K.separatedBy p q) i =
      K.run (K.map (fun x => x.1 :: x.2) (K.andThen p (K.repeated (K.ignoreThen q p)))) i
  padded {α : Type} (p : K.Parser α) (i : Input) : K.run (K.padded p) i =
    match K.run p (i.skip isBlank) with
    | .ok value rest met => .ok value (rest.skip isBlank) met
    | .error f => .error f
  labelled {α : Type} (label : String) (p : K.Parser α) (i : Input) :
    K.run (K.labelled label p) i =
      match K.run p i with
      | .ok value rest met => .ok value rest met
      | .error f => .error (f.withLabel label)
  recursive {α : Type} (make : K.Parser α → K.Parser α) (i : Input) : K.Guarded make →
    K.run (K.recursive make) i = K.run (make (K.recursive make)) i

end TermMachine.Source
