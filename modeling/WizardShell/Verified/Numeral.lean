import Mathlib.Data.Nat.Digits.Defs

/-!
# Numerals

The digits of a number, the highest one first, and the number that a row of digits reads
as by Horner's rule.  Reading what was written gives the number back.
-/

namespace WizardShell.Verified

variable {b n d : Nat}

/-- The digits of a number in base `b`; zero has one digit. -/
def numeral (b n : Nat) : List Nat := if n = 0 then [0] else (Nat.digits b n).reverse

/-- The number of a row of digits. -/
def horner (b : Nat) (digits : List Nat) : Nat := digits.foldl (fun n d => b * n + d) 0

theorem horner_eq (b : Nat) (digits : List Nat) :
    horner b digits = Nat.ofDigits b digits.reverse := by
  rw [Nat.ofDigits_eq_foldr, List.foldr_reverse, horner]
  congr 1
  funext m d
  rw [Nat.add_comm]
  rfl

/-- **What is written is read.** -/
theorem horner_numeral (b n : Nat) : horner b (numeral b n) = n := by
  unfold numeral
  split
  · rename_i hzero
    rw [hzero]
    rfl
  · rw [horner_eq, List.reverse_reverse, Nat.ofDigits_digits]

theorem lt_of_mem_numeral (hb : 1 < b) (hd : d ∈ numeral b n) : d < b := by
  unfold numeral at hd
  split at hd
  · rw [List.mem_singleton.mp hd]
    omega
  · exact Nat.digits_lt_base hb (List.mem_reverse.mp hd)

end WizardShell.Verified
