/-
  EzBakeCommon.Library.JavaNumber — integers in Java texts.

  `parse` is what `Short.parseShort`, `Integer.parseInt` and `Long.parseLong`
  document, the width being a parameter: an optional sign, then digits, and a
  number of that width.  Which characters are digits is decided by
  `Character.digit`, which knows more of them than the ten of ASCII; it is a
  parameter too.

  Main results:
    * `parse_text` — what `toString` writes is read back in every width that
      holds it, and refused in the others.
    * `parse_widen` — what one width reads, a larger one reads alike.
-/
import EzBakeCommon.Library.Decimal
import EzBakeCommon.Library.JavaString
import Mathlib.Data.Int.Notation
import Mathlib.Data.Nat.Notation

namespace Library.JavaNumber

open Library JavaString

/-! ## §1. Digits. -/

/-- `Character.digit(ch, 10)`; nothing where it answers -1. -/
structure Characters where
  digit : UInt16 → Option ℕ

/-- The digits of ASCII are digits, and the signs are none. -/
structure Characters.Documented (T : Characters) : Prop where
  ascii : ∀ c : Char, c.isDigit = true → T.digit (UInt16.ofNat c.toNat) = some (c.toNat - 48)
  plus : T.digit 0x2B = none
  minus : T.digit 0x2D = none

/-- Only the ten digits of ASCII. -/
def Characters.ascii : Characters where
  digit := fun u => if 0x30 ≤ u ∧ u ≤ 0x39 then some (u.toNat - 48) else none

/-- A digit of ASCII is one code unit. -/
theorem toNat_ofDigit {c : Char} (hc : c.isDigit = true) :
    (UInt16.ofNat c.toNat).toNat = c.toNat ∧ 48 ≤ c.toNat ∧ c.toNat ≤ 57 := by
  obtain ⟨-, hrange⟩ := Decimal.toNat_ofDigit hc
  refine ⟨?_, hrange⟩
  rw [UInt16.toNat_ofNat']
  omega

theorem Characters.ascii_documented : Characters.ascii.Documented where
  ascii := by
    intro c hc
    obtain ⟨hunit, hlow, hhigh⟩ := toNat_ofDigit hc
    show (if 0x30 ≤ UInt16.ofNat c.toNat ∧ UInt16.ofNat c.toNat ≤ 0x39 then _ else _) = _
    rw [if_pos (by rw [UInt16.le_iff_toNat_le, UInt16.le_iff_toNat_le, hunit]; exact ⟨hlow, hhigh⟩),
      hunit]
  plus := rfl
  minus := rfl

variable (T : Characters)

/-- The digits of a text, read after a number. -/
def readDigits : ℕ → JavaString → Option ℕ
  | m, [] => some m
  | m, u :: digits =>
      match T.digit u with
      | some d => readDigits (10 * m + d) digits
      | none => none

/-- At least one digit. -/
def magnitude : JavaString → Option ℕ
  | [] => none
  | digits => readDigits T 0 digits

/-- An optional sign, then digits. -/
def number : JavaString → Option ℤ
  | 0x2D :: digits => (magnitude T digits).map (fun m => -(m : ℤ))
  | 0x2B :: digits => (magnitude T digits).map (fun m => (m : ℤ))
  | digits => (magnitude T digits).map (fun m => (m : ℤ))

/-- The number is one of so many bits. -/
def Fits (bits : ℕ) (n : ℤ) : Prop :=
  -(Nat.pow 2 (bits - 1) : ℤ) ≤ n ∧ n < (Nat.pow 2 (bits - 1) : ℤ)

instance decidableFits (bits : ℕ) (n : ℤ) : Decidable (Fits bits n) := by
  unfold Fits
  infer_instance

/-- `parseShort`, `parseInt` and `parseLong`; nothing where they throw. -/
def parse (bits : ℕ) (s : JavaString) : Option ℤ :=
  match number T s with
  | some n => if Fits bits n then some n else none
  | none => none

/-! ## §2. Numerals. -/

/-- `Long.toString`, and the same for the other widths. -/
def text (n : ℤ) : JavaString :=
  if n < 0 then 0x2D :: ofChars (Nat.toDigits 10 n.natAbs) else ofChars (Nat.toDigits 10 n.natAbs)

variable {T}

section Documented

variable (hT : T.Documented)
include hT

/-- Digits are read as core reads them. -/
theorem readDigits_ofChars (cs : List Char) :
    ∀ m, (∀ c ∈ cs, c.isDigit = true) →
      readDigits T m (ofChars cs) = some (Nat.ofDigitChars 10 cs m) := by
  induction cs with
  | nil => exact fun m _ => rfl
  | cons c cs ih =>
      intro m hcs
      have hdigit := hT.ascii c (hcs c List.mem_cons_self)
      show (match T.digit (UInt16.ofNat c.toNat) with
        | some d => readDigits T (10 * m + d) (ofChars cs)
        | none => none) = _
      rw [hdigit, Nat.ofDigitChars_cons]
      exact ih _ (fun d hd => hcs d (List.mem_cons_of_mem c hd))

theorem magnitude_toDigits (m : ℕ) : magnitude T (ofChars (Nat.toDigits 10 m)) = some m := by
  have hread := readDigits_ofChars hT (Nat.toDigits 10 m) 0
    (fun c hc => Nat.isDigit_of_mem_toDigits (by omega) (by omega) hc)
  rw [Nat.ofDigitChars_ten_toDigits] at hread
  have hne : ofChars (Nat.toDigits 10 m) ≠ [] := by
    intro h
    exact Nat.toDigits_ne_nil (List.map_eq_nil_iff.mp h)
  unfold magnitude
  split
  next h => exact absurd h hne
  next => exact hread

/-- Digits do not begin with a sign. -/
theorem number_toDigits (m : ℕ) : number T (ofChars (Nat.toDigits 10 m)) = some (m : ℤ) := by
  have hmagnitude := magnitude_toDigits hT m
  obtain ⟨c, cs, hcs⟩ := List.exists_cons_of_ne_nil (Nat.toDigits_ne_nil (n := m) (b := 10))
  have hc : c.isDigit = true :=
    Nat.isDigit_of_mem_toDigits (by omega) (by omega) (hcs ▸ List.mem_cons_self)
  have hdigit := hT.ascii c hc
  rw [hcs] at hmagnitude ⊢
  unfold number
  split
  next digits h =>
      have hfirst : UInt16.ofNat c.toNat = 0x2D := (List.cons.inj h).1
      rw [hfirst, hT.minus] at hdigit
      exact absurd hdigit (by simp)
  next digits h =>
      have hfirst : UInt16.ofNat c.toNat = 0x2B := (List.cons.inj h).1
      rw [hfirst, hT.plus] at hdigit
      exact absurd hdigit (by simp)
  next =>
      rw [hmagnitude]
      rfl

theorem number_text (n : ℤ) : number T (text n) = some n := by
  unfold text
  by_cases hn : n < 0
  · rw [if_pos hn]
    show (magnitude T (ofChars (Nat.toDigits 10 n.natAbs))).map (fun m => -(m : ℤ)) = _
    rw [magnitude_toDigits hT]
    show some (-(n.natAbs : ℤ)) = some n
    exact congrArg some (by omega)
  · rw [if_neg hn, number_toDigits hT]
    exact congrArg some (by omega)

/-- **What is written is read back in every width that holds it**, and in no other. -/
theorem parse_text (bits : ℕ) (n : ℤ) :
    parse T bits (text n) = if Fits bits n then some n else none := by
  unfold parse
  rw [number_text hT]

end Documented

/-- What is read is a number of the width. -/
theorem parse_fits {bits : ℕ} {s : JavaString} {n : ℤ} (h : parse T bits s = some n) :
    Fits bits n := by
  unfold parse at h
  cases hm : number T s with
  | none =>
      rw [hm] at h
      exact absurd h (by simp)
  | some m =>
      rw [hm] at h
      dsimp only at h
      by_cases hfits : Fits bits m
      · rw [if_pos hfits] at h
        rw [← Option.some.inj h]
        exact hfits
      · rw [if_neg hfits] at h
        exact absurd h (by simp)

/-- **What one width reads, a larger one reads alike.** -/
theorem parse_widen {bits bits' : ℕ} (hle : bits ≤ bits') {s : JavaString} {n : ℤ}
    (h : parse T bits s = some n) : parse T bits' s = some n := by
  have hpow : Nat.pow 2 (bits - 1) ≤ Nat.pow 2 (bits' - 1) :=
    Nat.pow_le_pow_right (by decide) (by omega)
  unfold parse at h ⊢
  cases hm : number T s with
  | none =>
      rw [hm] at h
      exact absurd h (by simp)
  | some m =>
      rw [hm] at h
      dsimp only at h ⊢
      by_cases hfits : Fits bits m
      · rw [if_pos hfits] at h
        unfold Fits at hfits
        have hwide : Fits bits' m := by
          unfold Fits
          omega
        rw [if_pos hwide]
        exact h
      · rw [if_neg hfits] at h
        exact absurd h (by simp)

end Library.JavaNumber
