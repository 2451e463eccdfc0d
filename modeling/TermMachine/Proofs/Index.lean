import Mathlib.Data.Nat.Notation
import Mathlib.Logic.Function.Basic
import TermMachine.Index

/-! # Different addresses have different texts

The text of a number reads back as the number, so names made from addresses tell them apart.
-/
namespace TermMachine

def hexValue (c : Char) : Nat := if c.toNat < 65 then c.toNat - 48 else c.toNat - 55

def readHex (cs : List Char) : Nat := cs.foldl (fun n c => 16 * n + hexValue c) 0

theorem readHex_append_singleton (cs : List Char) (c : Char) :
    readHex (cs ++ [c]) = 16 * readHex cs + hexValue c := by
  simp [readHex]

theorem hexValue_digit {n : Nat} (hn : n < 16) : hexValue n.digitChar.toUpper = n := by
  have hall : ∀ i : Fin 16, hexValue i.val.digitChar.toUpper = i.val := by decide
  exact hall ⟨n, hn⟩

/-- The text of a number is one digit, or the text of a smaller number with a digit behind it. -/
theorem digits_induction {P : Nat → List Char → Prop}
    (one : ∀ d, d < 16 → P d [d.digitChar.toUpper])
    (more : ∀ n d cs, d < 16 → P n cs → P (16 * n + d) (cs ++ [d.digitChar.toUpper])) (n : Nat) :
    P n ((Nat.toDigits 16 n).map Char.toUpper) := by
  induction n using Nat.strongRecOn with
  | ind n ih =>
    rw [Nat.toDigits_eq_if (by omega)]
    by_cases hn : n < 16
    · rw [if_pos hn]
      exact one n hn
    · have hlast := more _ _ _ (Nat.mod_lt n (by omega)) (ih (n / 16) (by omega))
      rw [if_neg hn, List.map_append, List.map_singleton]
      rwa [Nat.div_add_mod] at hlast

theorem readHex_digits (n : Nat) : readHex ((Nat.toDigits 16 n).map Char.toUpper) = n := by
  refine digits_induction (P := fun n cs => readHex cs = n) (fun d hd => ?_)
    (fun n d cs hd ih => ?_) n
  · simp [readHex, hexValue_digit hd]
  · rw [readHex_append_singleton, ih, hexValue_digit hd]

/-- Zeros in front do not change a number. -/
theorem readHex_leftpad (width : Nat) (cs : List Char) :
    readHex (cs.leftpad width '0') = readHex cs := by
  have hzero : ∀ k, (List.replicate k '0').foldl (fun n c => 16 * n + hexValue c) 0 = 0 := by
    intro k
    induction k with
    | zero => rfl
    | succ k ih =>
      rw [List.replicate_succ, List.foldl_cons]
      exact ih
  rw [List.leftpad, readHex, List.foldl_append, hzero, readHex]

theorem hexText_injective : Function.Injective hexText := by
  intro n m h
  have hn : ∀ k, readHex (hexText k).toList = k := by
    intro k
    rw [hexText, String.toList_ofList, readHex_leftpad, readHex_digits]
  rw [← hn n, h, hn]

end TermMachine
