import Mathlib.Data.Nat.Digits.Defs
import SymbolicExecution.Config.Text

/-!
# Reading decimal numbers

A number that is written in decimals is read back: it has no sign, no superfluous zero at its front
and no letter of another radix.
-/

namespace SymbolicExecution.Yaml

theorem hexDigit?_of_isDigit {c : Char} (digit : c.isDigit) :
    (hexDigit? c).filter (· < 10) = some (c.toNat - '0'.toNat) := by
  have value : hexDigit? c = some (c.toNat - '0'.toNat) := if_pos digit
  simp only [Char.isDigit, Bool.and_eq_true, decide_eq_true_eq, UInt32.le_iff_toNat_le] at digit
  have top : c.toNat ≤ 57 := digit.2
  have small : c.toNat - '0'.toNat < 10 := by
    have zero : '0'.toNat = 48 := rfl
    omega
  rw [value, Option.filter_some, decide_eq_true small, if_pos rfl]

theorem digits?_of_isDigit {l : List Char} (nonempty : l ≠ []) (digits : ∀ c ∈ l, c.isDigit) :
    digits? 10 l = some (Nat.ofDigitChars 10 l 0) := by
  have fold : ∀ n, l.foldlM (fun n c => ((hexDigit? c).filter (· < 10)).map fun d => 10 * n + d) n =
      some (Nat.ofDigitChars 10 l n) := by
    clear nonempty
    induction l with
    | nil => exact fun n => rfl
    | cons c l ih =>
      obtain ⟨here, digits⟩ := List.forall_mem_cons.mp digits
      intro n
      rw [List.foldlM_cons, hexDigit?_of_isDigit here, Nat.ofDigitChars_cons]
      exact ih digits _
  rw [digits?, if_neg (by simpa using nonempty)]
  exact fold 0

/-- Only the number zero has a zero at its front. -/
theorem head?_toDigits {n : Nat} (positive : 0 < n) : (Nat.toDigits 10 n).head? ≠ some '0' := by
  induction n using Nat.strongRecOn with
  | ind n ih =>
    by_cases single : n < 10
    · rw [Nat.toDigits_of_lt_base single, List.head?_cons, ne_eq, Option.some_inj]
      intro zero
      have value := Nat.toNat_digitChar_of_lt_ten single
      rw [zero] at value
      exact absurd value (by simpa using positive.ne')
    · have split := Nat.toDigits_append_toDigits (b := 10) (n := n / 10) (d := n % 10) (by decide)
        (by omega) (Nat.mod_lt n (by decide))
      rw [Nat.div_add_mod] at split
      have earlier := ih (n / 10) (by omega) (by omega)
      obtain ⟨c, l, front⟩ :=
        List.exists_cons_of_ne_nil (Nat.toDigits_ne_nil (n := n / 10) (b := 10))
      rw [front] at split earlier
      rw [← split]
      exact earlier

theorem isDigit_of_mem_toDigits {n : Nat} {c : Char} (mem : c ∈ Nat.toDigits 10 n) : c.isDigit :=
  Nat.isDigit_of_mem_toDigits (by decide) (by decide) mem

theorem decimal?_toDigits (n : Nat) : decimal? (Nat.toDigits 10 n) = some n := by
  have digits := digits?_of_isDigit Nat.toDigits_ne_nil fun c => isDigit_of_mem_toDigits (n := n)
  rw [Nat.ofDigitChars_ten_toDigits] at digits
  have noZero : ¬(1 < (Nat.toDigits 10 n).length ∧ (Nat.toDigits 10 n).head? = some '0') := by
    rintro ⟨long, zero⟩
    cases n with
    | zero => simp at long
    | succ n => exact head?_toDigits (Nat.succ_pos n) zero
  rw [decimal?, if_neg noZero, digits]

/-- What begins with two digits has no mark of another radix. -/
theorem unsigned_of_isDigit {l : List Char} (digits : ∀ c ∈ l, c.isDigit) :
    nat?.unsigned l = decimal? l := by
  unfold nat?.unsigned
  split
  · simp at digits
  · simp at digits
  · simp at digits
  · rfl

theorem nat?_toDigits (n : Nat) : nat? (String.ofList (Nat.toDigits 10 n)) = some n := by
  have digits {c : Char} : c ∈ Nat.toDigits 10 n → c.isDigit := isDigit_of_mem_toDigits
  simp only [nat?, String.toList_ofList]
  split
  · rename_i rest sign
    have plus := digits (c := '+') (sign ▸ List.mem_cons_self)
    cases plus
  · rw [unsigned_of_isDigit fun c => digits, decimal?_toDigits]

end SymbolicExecution.Yaml
