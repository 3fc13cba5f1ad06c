/-
  EzBakeCommon.Properties.Encryption — PropertiesEncryptionUtil on values, and
  the crypto providers it is given.

  An encrypted value reads `ENC~(…)~`.  It is RECOGNISED on its trimmed text and
  UNWRAPPED by cutting the lengths of the two markers off the text itself.

  A `String` reference that may be null is an `Option JavaString`; a method that
  may throw answers in `Except JavaException`.
-/
import EzBakeCommon.Library.JavaString
import Mathlib.Data.Finmap

namespace EzBakeCommon.Properties

open Library
open JavaString

/-- What the modelled methods throw. -/
inductive JavaException where
  | illegalState (message : String)
  | illegalArgument (message : String)
  | security (message : String)
  | nullPointer
  | stringIndexOutOfBounds
  | io (message : String)
  /-- `DuplicatePropertyException`, with the names it lists. -/
  | duplicateProperty (duplicateProps : Finset JavaString)

/-! ## §1. Providers. -/

/-- The interface `TextCryptoProvider`. -/
structure TextCryptoProvider where
  encrypt : Option JavaString → Except JavaException (Option JavaString)
  decrypt : Option JavaString → Except JavaException (Option JavaString)

/-- It passes every message through. -/
def noOpTextCryptoProvider : TextCryptoProvider where
  encrypt := fun message => .ok message
  decrypt := fun encryptedMessage => .ok encryptedMessage

/-! ## §2. `PropertiesEncryptionUtil`. -/

/-- `ENC~(` -/
def propertyEncryptionPrefix : JavaString := ofChars ['E', 'N', 'C', '~', '(']

/-- `)~` -/
def propertyEncryptionSuffix : JavaString := ofChars [')', '~']

/-- How a null reference reads in a concatenation. -/
def concatenated : Option JavaString → JavaString
  | some s => s
  | none => ofChars ['n', 'u', 'l', 'l']

def encryptPropertyValue (value : Option JavaString) (provider : TextCryptoProvider) :
    Except JavaException JavaString := do
  let encrypted ← provider.encrypt value
  return propertyEncryptionPrefix ++ concatenated encrypted ++ propertyEncryptionSuffix

/-- `Strings.isNullOrEmpty`, then the markers of the trimmed value. -/
def isEncryptedValue : Option JavaString → Bool
  | none => false
  | some [] => false
  | some value =>
      value.trim.startsWith propertyEncryptionPrefix &&
        value.trim.endsWith propertyEncryptionSuffix

/-- The markers are cut off the value as it stands, not off its trim. -/
def getInnerValue (value : JavaString) : Except JavaException JavaString :=
  match value.substring propertyEncryptionPrefix.length
      (value.length - propertyEncryptionSuffix.length) with
  | some inner => .ok inner
  | none => .error .stringIndexOutOfBounds

def decryptPropertyValue (value : JavaString) (provider : TextCryptoProvider) :
    Except JavaException (Option JavaString) := do
  let innerValue ← getInnerValue value
  provider.decrypt (some innerValue)

/-! ## §3. Values that are recognised, and values that are written. -/

/-- The text between the markers of a recognised value. -/
def innerText (value : JavaString) : JavaString :=
  (value.take (value.length - propertyEncryptionSuffix.length)).drop
    propertyEncryptionPrefix.length

/-- The markers of a recognised value do not overlap, so it is at least as long
as both. -/
theorem length_of_recognised {value : JavaString}
    (h : isEncryptedValue (some value) = true) :
    propertyEncryptionPrefix.length + propertyEncryptionSuffix.length ≤ value.length := by
  have hmarks : value.trim.startsWith propertyEncryptionPrefix = true ∧
      value.trim.endsWith propertyEncryptionSuffix = true := by
    cases value with
    | nil => exact absurd h Bool.false_ne_true
    | cons u l => exact Bool.and_eq_true_iff.mp h
  refine le_trans ?_ (length_trim_le value)
  obtain ⟨rest, hrest⟩ := startsWith_iff.mp hmarks.1
  obtain ⟨front, hfront⟩ := endsWith_iff.mp hmarks.2
  rw [← hrest, List.length_append]
  refine Nat.add_le_add_left ?_ _
  -- what follows the prefix has room for the suffix
  rw [← hrest] at hfront
  match rest with
  | [] =>
      have htail := congrArg (fun l : JavaString => l.reverse.take 2) hfront
      simp [propertyEncryptionPrefix, propertyEncryptionSuffix, ofChars] at htail
  | [u] =>
      have htail := congrArg (fun l : JavaString => l.reverse.take 2) hfront
      simp [propertyEncryptionPrefix, propertyEncryptionSuffix, ofChars] at htail
  | _ :: _ :: _ => exact Nat.le_add_left 2 _

/-- So the bounds of `substring` are always good. -/
theorem getInnerValue_of_recognised {value : JavaString}
    (h : isEncryptedValue (some value) = true) :
    getInnerValue value = .ok (innerText value) := by
  have hlen := length_of_recognised h
  unfold getInnerValue substring
  rw [if_pos ⟨by omega, by omega, by omega⟩]
  simp [innerText]

/-- A value as `encryptPropertyValue` writes it. -/
def wrapped (encrypted : JavaString) : JavaString :=
  propertyEncryptionPrefix ++ encrypted ++ propertyEncryptionSuffix

/-- It starts with `E` and ends with `~`, so there is nothing to trim. -/
theorem trim_wrapped (encrypted : JavaString) : (wrapped encrypted).trim = wrapped encrypted := by
  refine trim_eq_self (u := 0x45) (w := 0x7E) ?_ rfl ?_ rfl
  · simp [wrapped, propertyEncryptionPrefix, ofChars]
  · simp [wrapped, propertyEncryptionSuffix, ofChars]

/-- **Whatever the text between the markers, a written value is recognised.** -/
theorem wrapped_recognised (encrypted : JavaString) :
    isEncryptedValue (some (wrapped encrypted)) = true := by
  have hpre : propertyEncryptionPrefix <+: wrapped encrypted :=
    ⟨encrypted ++ propertyEncryptionSuffix, (List.append_assoc _ _ _).symm⟩
  have hsuf : propertyEncryptionSuffix <:+ wrapped encrypted := List.suffix_append _ _
  show ((wrapped encrypted).trim.startsWith _ && (wrapped encrypted).trim.endsWith _) = true
  rw [trim_wrapped, startsWith_iff.mpr hpre, endsWith_iff.mpr hsuf]
  rfl

theorem getInnerValue_wrapped (encrypted : JavaString) :
    getInnerValue (wrapped encrypted) = .ok encrypted := by
  unfold getInnerValue wrapped
  rw [substring_middle]

end EzBakeCommon.Properties
