import TermMachine.External.Combinators

/-! # Scanners

Parsers as functions that never go back. Repetition and recursion go on for as long as there is text
left, so every scanner ends.
-/
namespace TermMachine.Source

structure Scanner (α : Type) where
  run : Input → Reply α
  shortens : ∀ {i value rest met}, run i = .ok value rest met → rest.rest.length ≤ i.rest.length

namespace Scanner

variable {α β : Type}

def fail : Scanner α where
  run i := .error (.unexpected i [])
  shortens h := nomatch h

def ofTest (test : Char → Bool) (expected : List (Option Char)) : Scanner Char where
  run := .ofTest test expected
  shortens h := by simp [(Reply.ofTest_eq_ok h).1]

def finished : Scanner Unit where
  run i := if i.rest.isEmpty then .ok () i none else .error (.unexpected i [none])
  shortens h := by
    split at h
    · obtain ⟨-, rfl, -⟩ := Reply.ok.inj h
      exact Nat.le_refl _
    · cases h

def map (g : α → β) (p : Scanner α) : Scanner β where
  run i := (p.run i).map g
  shortens h := by
    obtain ⟨x, hx, -⟩ := Reply.map_eq_ok h
    exact p.shortens hx

def andThen (p : Scanner α) (q : Scanner β) : Scanner (α × β) where
  run i := (p.run i).bind fun x rest => (q.run rest).map (Prod.mk x)
  shortens h := by
    obtain ⟨x, mid, met₁, met₂, hp, hq, -⟩ := Reply.bind_eq_ok h
    obtain ⟨y, hy, -⟩ := Reply.map_eq_ok hq
    exact Nat.le_trans (q.shortens hy) (p.shortens hp)

def orElse (p q : Scanner α) : Scanner α where
  run i :=
    match p.run i with
    | .ok value rest met => .ok value rest met
    | .error f =>
      match q.run i with
      | .ok value rest met => .ok value rest (Failure.later met (some f))
      | .error g => .error (f.furthest g)
  shortens h := by
    split at h
    · rename_i hp
      obtain ⟨rfl, rfl, rfl⟩ := Reply.ok.inj h
      exact p.shortens hp
    · split at h
      · rename_i hq
        obtain ⟨rfl, rfl, -⟩ := Reply.ok.inj h
        exact q.shortens hq
      · cases h

def orNot (p : Scanner α) : Scanner (Option α) where
  run i :=
    match p.run i with
    | .ok value rest met => .ok (some value) rest met
    | .error f => .ok none i (some f)
  shortens h := by
    split at h
    · rename_i hp
      obtain ⟨-, rfl, rfl⟩ := Reply.ok.inj h
      exact p.shortens hp
    · obtain ⟨-, rfl, -⟩ := Reply.ok.inj h
      exact Nat.le_refl _

/-- Values read so far stand last first. -/
def repeatFrom (p : Scanner α) :
    (fuel : Nat) → List α → Option Failure → Input → Reply (List α)
  | 0, values, met, i => .ok values.reverse i met
  | fuel + 1, values, met, i =>
    match p.run i with
    | .error f => .ok values.reverse i (Failure.later met (some f))
    | .ok value rest met' => repeatFrom p fuel (value :: values) (Failure.later met met') rest

theorem repeatFrom_shortens (p : Scanner α) {fuel : Nat} {values all : List α}
    {met met' : Option Failure} {i rest : Input}
    (h : p.repeatFrom fuel values met i = .ok all rest met') :
    rest.rest.length ≤ i.rest.length := by
  induction fuel generalizing values met i with
  | zero =>
    obtain ⟨-, rfl, -⟩ := Reply.ok.inj h
    exact Nat.le_refl _
  | succ fuel ih =>
    unfold repeatFrom at h
    split at h
    · obtain ⟨-, rfl, -⟩ := Reply.ok.inj h
      exact Nat.le_refl _
    · rename_i hp
      exact Nat.le_trans (ih h) (p.shortens hp)

def repeated (p : Scanner α) : Scanner (List α) where
  run i := p.repeatFrom (i.rest.length + 1) [] none i
  shortens h := p.repeatFrom_shortens h

def separatedBy (p : Scanner α) (q : Scanner β) : Scanner (List α) :=
  map (fun x => x.1 :: x.2) (p.andThen (repeated (map Prod.snd (q.andThen p))))

def padded (p : Scanner α) : Scanner α where
  run i :=
    match p.run (i.skip isBlank) with
    | .ok value rest met => .ok value (rest.skip isBlank) met
    | .error f => .error f
  shortens {i _ _ _} h := by
    split at h
    · rename_i rest met hp
      obtain ⟨-, rfl, -⟩ := Reply.ok.inj h
      exact Nat.le_trans (rest.length_skip_le isBlank)
        (Nat.le_trans (p.shortens hp) (i.length_skip_le isBlank))
    · cases h

def labelled (label : String) (p : Scanner α) : Scanner α where
  run i :=
    match p.run i with
    | .ok value rest met => .ok value rest met
    | .error f => .error (f.withLabel label)
  shortens h := by
    split at h
    · rename_i hp
      obtain ⟨rfl, rfl, rfl⟩ := Reply.ok.inj h
      exact p.shortens hp
    · cases h

/-- A recursive scanner down to a depth. -/
def unfolded (make : Scanner α → Scanner α) : (depth : Nat) → Scanner α
  | 0 => fail
  | depth + 1 => make ⟨fun i => (unfolded make depth).run i, (unfolded make depth).shortens⟩

def recursive (make : Scanner α → Scanner α) : Scanner α where
  run i := (unfolded make (i.rest.length + 1)).run i
  shortens {i _ _ _} h := (unfolded make (i.rest.length + 1)).shortens h

def parse (p : Scanner α) (text : String) : Except (List Failure) α :=
  match p.run (.ofText text) with
  | .ok value _ _ => .ok value
  | .error f => .error [f]

end Scanner

def Combinators.scanners : Combinators where
  Parser := Scanner
  run := Scanner.run
  parse := Scanner.parse
  filter test := Scanner.ofTest test []
  just c := Scanner.ofTest (· == c) [some c]
  finished := Scanner.finished
  map := Scanner.map
  andThen := Scanner.andThen
  orElse := Scanner.orElse
  orNot := Scanner.orNot
  repeated := Scanner.repeated
  separatedBy := Scanner.separatedBy
  padded := Scanner.padded
  labelled := Scanner.labelled
  recursive := Scanner.recursive

end TermMachine.Source
