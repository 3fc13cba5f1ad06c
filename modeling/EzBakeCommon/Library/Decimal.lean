/-
  EzBakeCommon.Library.Decimal — decimal numerals as byte strings.

  A numeral is a non-empty string of the bytes `0` to `9`, leading zeros
  included; `value` reads it, `text` writes the numeral of a number without
  leading zeros.

  Main result:
    * `isNumeral_text` / `value_text` — what is written is a numeral, and is read
      back.
-/
import Mathlib.Data.Nat.Notation

namespace Library.Decimal

def isDigit (b : UInt8) : Bool := 48 ≤ b && b ≤ 57

/-- A non-empty string of digits. -/
def IsNumeral (s : List UInt8) : Prop := s ≠ [] ∧ ∀ b ∈ s, isDigit b = true

instance decidableIsNumeral (s : List UInt8) : Decidable (IsNumeral s) :=
  decidable_of_iff (s ≠ [] ∧ s.all isDigit = true) (and_congr_right' List.all_eq_true)

/-- A numeral starts with no sign, nor with anything else that is no digit. -/
theorem IsNumeral.ne_cons {s : List UInt8} (h : IsNumeral s) {b : UInt8} (hb : isDigit b = false)
    (rest : List UInt8) : s ≠ b :: rest := by
  intro heq
  have hdigit := h.2 b (heq ▸ List.mem_cons_self)
  rw [hb] at hdigit
  exact Bool.noConfusion hdigit

/-- The number that the digits denote. -/
def value (s : List UInt8) : ℕ := s.foldl (fun n b => 10 * n + (b.toNat - 48)) 0

/-- The numeral of a number. -/
def text (n : ℕ) : List UInt8 := (Nat.toDigits 10 n).map (fun c => UInt8.ofNat c.toNat)

/-- A digit is one byte. -/
theorem toNat_ofDigit {c : Char} (hc : c.isDigit = true) :
    (UInt8.ofNat c.toNat).toNat = c.toNat ∧ 48 ≤ c.toNat ∧ c.toNat ≤ 57 := by
  have hrange : 48 ≤ c.toNat ∧ c.toNat ≤ 57 := by
    have hdigit := hc
    simp only [Char.isDigit, Bool.and_eq_true, decide_eq_true_eq] at hdigit
    exact hdigit
  refine ⟨?_, hrange⟩
  rw [UInt8.toNat_ofNat']
  omega

theorem isNumeral_text (n : ℕ) : IsNumeral (text n) := by
  constructor
  · intro h
    exact Nat.toDigits_ne_nil (List.map_eq_nil_iff.mp h)
  · intro b hb
    obtain ⟨c, hc, rfl⟩ := List.mem_map.mp hb
    obtain ⟨hbyte, hlo, hhi⟩ := toNat_ofDigit (Nat.isDigit_of_mem_toDigits (by omega) (by omega) hc)
    simp only [isDigit, Bool.and_eq_true, decide_eq_true_eq, UInt8.le_iff_toNat_le, hbyte]
    exact ⟨hlo, hhi⟩

/-- **What is written is read back.** -/
theorem value_text (n : ℕ) : value (text n) = n := by
  -- byte by byte as core reads a string of digits
  have hread : ∀ (cs : List Char) (m : ℕ), (∀ c ∈ cs, c.isDigit = true) →
      (cs.map (fun c => UInt8.ofNat c.toNat)).foldl (fun n b => 10 * n + (b.toNat - 48)) m
        = Nat.ofDigitChars 10 cs m := by
    intro cs
    induction cs with
    | nil => exact fun m _ => rfl
    | cons c cs ih =>
        intro m hcs
        obtain ⟨hbyte, -, -⟩ := toNat_ofDigit (hcs c List.mem_cons_self)
        rw [List.map_cons, List.foldl_cons, hbyte, Nat.ofDigitChars_cons]
        exact ih _ (fun d hd => hcs d (List.mem_cons_of_mem c hd))
  unfold value text
  rw [hread _ 0 (fun c hc => Nat.isDigit_of_mem_toDigits (by omega) (by omega) hc)]
  exact Nat.ofDigitChars_ten_toDigits

end Library.Decimal
