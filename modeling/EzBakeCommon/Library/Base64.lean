/-
  EzBakeCommon.Library.Base64 — base64 text, written in one line.

  Three bytes are four sextets, each written as one letter of the alphabet; a
  remainder of one or two bytes is filled up with `=`.  `decode` reads whole
  quanta and stops at the padding.

  Main results:
    * `decode_encode` — the text of some bytes is read back as these bytes.
-/
import Mathlib.Data.UInt

namespace Library.Base64

/-! ## §1. The alphabet. -/

/-- `A` to `Z`, `a` to `z`, `0` to `9`, `+` and `/`. -/
def letter (sextet : Nat) : UInt8 :=
  if sextet < 26 then UInt8.ofNat (65 + sextet)
  else if sextet < 52 then UInt8.ofNat (71 + sextet)
  else if sextet < 62 then UInt8.ofNat (sextet - 4)
  else if sextet = 62 then 43
  else 47

def sextet (letter : UInt8) : Option Nat :=
  if 65 ≤ letter ∧ letter ≤ 90 then some (letter.toNat - 65)
  else if 97 ≤ letter ∧ letter ≤ 122 then some (letter.toNat - 71)
  else if 48 ≤ letter ∧ letter ≤ 57 then some (letter.toNat + 4)
  else if letter = 43 then some 62
  else if letter = 47 then some 63
  else none

/-- `=`, which is no letter. -/
def filler : UInt8 := 61

theorem sextet_filler : sextet filler = none := by decide

theorem sextet_letter {i : Nat} (h : i < 64) : sextet (letter i) = some i := by
  have hall : ∀ j : Fin 64, sextet (letter j) = some j.val := by decide
  exact hall ⟨i, h⟩

/-! ## §2. The text. -/

def encode : List UInt8 → List UInt8
  | [] => []
  | [a] => [letter (a.toNat / 4), letter (a.toNat % 4 * 16), filler, filler]
  | [a, b] =>
      [letter (a.toNat / 4), letter (a.toNat % 4 * 16 + b.toNat / 16),
        letter (b.toNat % 16 * 4), filler]
  | a :: b :: c :: rest =>
      letter (a.toNat / 4) :: letter (a.toNat % 4 * 16 + b.toNat / 16)
        :: letter (b.toNat % 16 * 4 + c.toNat / 64) :: letter (c.toNat % 64) :: encode rest

def decode : List UInt8 → Option (List UInt8)
  | [] => some []
  | p :: q :: r :: s :: rest => do
      let i ← sextet p
      let j ← sextet q
      let first := UInt8.ofNat (i * 4 + j / 16)
      match sextet r with
      | none => if r = filler ∧ s = filler ∧ rest = [] then some [first] else none
      | some k =>
          let second := UInt8.ofNat (j % 16 * 16 + k / 4)
          match sextet s with
          | none => if s = filler ∧ rest = [] then some [first, second] else none
          | some l =>
              let bytes ← decode rest
              some (first :: second :: UInt8.ofNat (k % 4 * 64 + l) :: bytes)
  | _ => none

/-- The text has four letters for each three bytes, or part of three. -/
theorem length_encode (bytes : List UInt8) :
    (encode bytes).length = (bytes.length + 2) / 3 * 4 := by
  induction bytes using encode.induct with
  | case1 => rfl
  | case2 a => simp [encode]
  | case3 a b => simp [encode]
  | case4 a b c rest ih =>
      unfold encode
      simp only [List.length_cons, ih]
      omega

/-! ## §3. Reading it back. -/

section Sextets

variable (a b c : UInt8)

/-- The first sextets of a quantum give its first byte. -/
theorem first_byte {j : Nat} (h : j < 16) :
    UInt8.ofNat (a.toNat / 4 * 4 + (a.toNat % 4 * 16 + j) / 16) = a := by
  have hj : a.toNat / 4 * 4 + (a.toNat % 4 * 16 + j) / 16 = a.toNat := by omega
  rw [hj, UInt8.ofNat_toNat]

theorem second_byte {i k : Nat} (h : k < 4) :
    UInt8.ofNat ((i * 16 + b.toNat / 16) % 16 * 16 + (b.toNat % 16 * 4 + k) / 4) = b := by
  have hb := b.toNat_lt
  have hk : (i * 16 + b.toNat / 16) % 16 * 16 + (b.toNat % 16 * 4 + k) / 4 = b.toNat := by omega
  rw [hk, UInt8.ofNat_toNat]

theorem third_byte {i : Nat} :
    UInt8.ofNat ((i * 4 + c.toNat / 64) % 4 * 64 + c.toNat % 64) = c := by
  have hc := c.toNat_lt
  have hk : (i * 4 + c.toNat / 64) % 4 * 64 + c.toNat % 64 = c.toNat := by omega
  rw [hk, UInt8.ofNat_toNat]

end Sextets

/-- **The text of some bytes is read back as these bytes.** -/
theorem decode_encode (bytes : List UInt8) : decode (encode bytes) = some bytes := by
  induction bytes using encode.induct with
  | case1 => rfl
  | case2 a =>
      have ha := a.toNat_lt
      have hfirst := first_byte a (j := 0) (by omega)
      unfold encode decode
      rw [sextet_letter (by omega), sextet_letter (by omega), sextet_filler]
      simp only [Option.bind_eq_bind, Option.bind_some, and_self, if_true]
      exact congrArg (fun x => some [x]) hfirst
  | case3 a b =>
      have ha := a.toNat_lt
      have hb := b.toNat_lt
      have hfirst := first_byte a (j := b.toNat / 16) (by omega)
      have hsecond := second_byte b (i := a.toNat % 4) (k := 0) (by omega)
      unfold encode decode
      rw [sextet_letter (by omega), sextet_letter (by omega), sextet_letter (by omega),
        sextet_filler]
      simp only [Option.bind_eq_bind, Option.bind_some, and_self, if_true]
      exact congrArg₂ (fun x y => some [x, y]) hfirst hsecond
  | case4 a b c rest ih =>
      have ha := a.toNat_lt
      have hb := b.toNat_lt
      have hc := c.toNat_lt
      have hfirst := first_byte a (j := b.toNat / 16) (by omega)
      have hsecond := second_byte b (i := a.toNat % 4) (k := c.toNat / 64) (by omega)
      have hthird := third_byte c (i := b.toNat % 16)
      unfold encode decode
      rw [sextet_letter (by omega), sextet_letter (by omega), sextet_letter (by omega),
        sextet_letter (by omega), ih]
      show some (UInt8.ofNat _ :: UInt8.ofNat _ :: UInt8.ofNat _ :: rest) = _
      rw [hfirst, hsecond, hthird]

end Library.Base64
