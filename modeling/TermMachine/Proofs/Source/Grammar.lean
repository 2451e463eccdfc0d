import TermMachine.Term

/-! # The grammar of sources

    source   := ws term ws
    term     := variable | name | name ws '(' ws term (ws ',' ws term)* ws ')'
    variable := [A-Z_] [A-Za-z0-9_]*
    name     := [a-z] [A-Za-z0-9_]*

A rule relates a text to what is left of it. Words may be asked to be as long as possible, so that
what is left behind one does not go on with a letter, a digit or an underscore.
-/
namespace TermMachine.Source

/-- The characters of `ws`, as ranges of the property `White_Space`. -/
def WhiteSpace (c : Char) : Prop :=
  (0x9 ≤ c.toNat ∧ c.toNat ≤ 0xD) ∨ c.toNat = 0x20 ∨ c.toNat = 0x85 ∨ c.toNat = 0xA0 ∨
    c.toNat = 0x1680 ∨ (0x2000 ≤ c.toNat ∧ c.toNat ≤ 0x200A) ∨ c.toNat = 0x2028 ∨
    c.toNat = 0x2029 ∨ c.toNat = 0x202F ∨ c.toNat = 0x205F ∨ c.toNat = 0x3000

def VariableStart (c : Char) : Prop := ('A' ≤ c ∧ c ≤ 'Z') ∨ c = '_'

def NameStart (c : Char) : Prop := 'a' ≤ c ∧ c ≤ 'z'

def WordCharacter (c : Char) : Prop :=
  ('A' ≤ c ∧ c ≤ 'Z') ∨ ('a' ≤ c ∧ c ≤ 'z') ∨ ('0' ≤ c ∧ c ≤ '9') ∨ c = '_'

def Blanks (text rest : List Char) : Prop := ∃ w, text = w ++ rest ∧ ∀ c ∈ w, WhiteSpace c

def EndsWord (rest : List Char) : Prop := ∀ c ∈ rest.head?, ¬WordCharacter c

/-- The word `w` and then `rest`. -/
structure Word (longest : Bool) (start : Char → Prop) (text w rest : List Char) : Prop where
  eq : text = w ++ rest
  letters : ∃ c cs, w = c :: cs ∧ start c ∧ ∀ d ∈ cs, WordCharacter d
  ends : longest = true → EndsWord rest

mutual
/-- A text begins with a term, and `rest` is left. -/
inductive Derives (longest : Bool) : (text : List Char) → Term → (rest : List Char) → Prop
  | var {text w rest} : Word longest VariableStart text w rest →
      Derives longest text (.var (String.ofList w)) rest
  | atom {text w rest} : Word longest NameStart text w rest →
      Derives longest text (.atom (String.ofList w)) rest
  | app {text w text₁ text₂ text₃ text₄ text₅ rest t ts} : Word longest NameStart text w text₁ →
      Blanks text₁ ('(' :: text₂) → Blanks text₂ text₃ → Derives longest text₃ t text₄ →
      DerivesMore longest text₄ ts text₅ → Blanks text₅ (')' :: rest) →
      Derives longest text (.app (String.ofList w) (t :: ts)) rest

/-- A text begins with terms that each have a comma in front, and `rest` is left. -/
inductive DerivesMore (longest : Bool) :
    (text : List Char) → List Term → (rest : List Char) → Prop
  | nil {text} : DerivesMore longest text [] text
  | cons {text text₁ text₂ text₃ rest t ts} : Blanks text (',' :: text₁) → Blanks text₁ text₂ →
      Derives longest text₂ t text₃ → DerivesMore longest text₃ ts rest →
      DerivesMore longest text (t :: ts) rest
end

def DerivesSource (longest : Bool) (text : List Char) (t : Term) : Prop :=
  ∃ text₁ text₂, Blanks text text₁ ∧ Derives longest text₁ t text₂ ∧ Blanks text₂ []

theorem Blanks.refl (text : List Char) : Blanks text text := ⟨[], rfl, by simp⟩

theorem Blanks.cons {c : Char} {text rest : List Char} (hc : WhiteSpace c) (h : Blanks text rest) :
    Blanks (c :: text) rest := by
  obtain ⟨w, rfl, hw⟩ := h
  exact ⟨c :: w, rfl, List.forall_mem_cons.2 ⟨hc, hw⟩⟩

theorem Blanks.length_le {text rest : List Char} (h : Blanks text rest) :
    rest.length ≤ text.length := by
  obtain ⟨w, rfl, -⟩ := h
  simp

end TermMachine.Source
