/-
  EzBakeCommon.Properties.Whitespace — blanks around an encrypted value.

  A value is recognised on its trim and unwrapped as it stands.  Blanks around the
  markers do not keep it from being recognised, and shift what is cut out: the
  text between the markers goes to the provider exactly if there are no blanks
  (`whitespace`).  The cut itself is always inside the value.
-/
import EzBakeCommon.Properties.Reading

namespace EzBakeCommon.Properties

open Library JavaString

/-- The value is recognised, and reading it passes exactly this text to the
provider, whichever it is. -/
structure UnwrapsTo (value text : JavaString) : Prop where
  recognised : isEncryptedValue (some value) = true
  decrypted : ∀ provider, decryptPropertyValue value provider = provider.decrypt (some text)
  read : ∀ (e : EzProperties) provider key, e.cryptoProvider = some provider →
    e.table.lookup key = some value → e.getProperty key = provider.decrypt (some text)

section Blanks

variable {before after value text : JavaString}

/-- Blanks around the markers do not matter for recognition. -/
theorem surrounded_recognised (hbefore : ∀ u ∈ before, isBlank u = true)
    (hafter : ∀ u ∈ after, isBlank u = true) :
    isEncryptedValue (some (before ++ wrapped text ++ after)) = true := by
  have htrim := trim_surrounded hbefore hafter (wrapped text)
  have hplain := wrapped_recognised text
  -- neither text is empty, so both answers come from the trim
  have hcases : ∀ s : JavaString, s ≠ [] → isEncryptedValue (some s)
      = (s.trim.startsWith propertyEncryptionPrefix
        && s.trim.endsWith propertyEncryptionSuffix) := by
    intro s hs
    cases s with
    | nil => exact absurd rfl hs
    | cons u l => rfl
  rw [hcases _ (by simp [wrapped, propertyEncryptionPrefix, ofChars])] at hplain ⊢
  rw [htrim, hplain]

/-- What is cut out of a recognised value is what the provider gets. -/
theorem unwrapsTo_iff (h : isEncryptedValue (some value) = true) :
    UnwrapsTo value text ↔ innerText value = text := by
  have hinner : ∀ provider : TextCryptoProvider,
      decryptPropertyValue value provider = provider.decrypt (some (innerText value)) := by
    intro provider
    unfold decryptPropertyValue
    rw [getInnerValue_of_recognised h]
    rfl
  constructor
  · intro hunwraps
    -- the provider that passes everything through shows what it is given
    have hseen := hunwraps.decrypted noOpTextCryptoProvider
    rw [hinner] at hseen
    exact Option.some.inj (Except.ok.inj hseen)
  · intro htext
    refine ⟨h, fun provider => by rw [hinner, htext], ?_⟩
    intro e provider key hprovider hown
    show superGetProperty e.table key (e.defaults.getProperty key) >>= decrypt e.cryptoProvider = _
    rw [superGetProperty_own hown, hprovider, ← htext]
    exact decrypt_recognised h

/-- As long as what is cut out is the blanks and the text together. -/
theorem length_innerText_surrounded :
    (innerText (before ++ wrapped text ++ after)).length
      = before.length + text.length + after.length := by
  have hpre : propertyEncryptionPrefix.length = 5 := rfl
  have hsuf : propertyEncryptionSuffix.length = 2 := rfl
  unfold innerText wrapped
  simp only [List.length_drop, List.length_take, List.length_append, hpre, hsuf]
  omega

end Blanks

/-- **A value between blanks is always recognised; its text is what the provider gets
if and only if there are no blanks; and the cut out of a recognised value is always
inside it.** -/
theorem whitespace (before text after value : JavaString)
    (hbefore : ∀ u ∈ before, isBlank u = true) (hafter : ∀ u ∈ after, isBlank u = true) :
    isEncryptedValue (some (before ++ wrapped text ++ after)) = true ∧
    (UnwrapsTo (before ++ wrapped text ++ after) text ↔ before = [] ∧ after = []) ∧
    (isEncryptedValue (some value) = true → ∃ inner, getInnerValue value = .ok inner) := by
  have hrec : isEncryptedValue (some (before ++ wrapped text ++ after)) = true :=
    surrounded_recognised hbefore hafter
  refine ⟨hrec, ?_, fun h => ⟨_, getInnerValue_of_recognised h⟩⟩
  rw [unwrapsTo_iff hrec]
  constructor
  · intro htext
    have hlength := congrArg List.length htext
    rw [length_innerText_surrounded] at hlength
    exact ⟨List.length_eq_zero_iff.mp (by omega), List.length_eq_zero_iff.mp (by omega)⟩
  · intro hnone
    obtain ⟨rfl, rfl⟩ := hnone
    have hinner := getInnerValue_of_recognised (wrapped_recognised text)
    rw [getInnerValue_wrapped] at hinner
    rw [List.nil_append, List.append_nil]
    exact (Except.ok.inj hinner).symm

/-- Without blanks `ENC~(v)~` unwraps to `v`. -/
theorem plain_unwraps : UnwrapsTo ([] ++ wrapped (ofChars ['v']) ++ []) (ofChars ['v']) :=
  (whitespace [] (ofChars ['v']) [] [] (by simp) (by simp)).2.1.mpr ⟨rfl, rfl⟩

/-- With a blank after it the provider gets `v)`. -/
theorem trailing_blank_unwraps_more :
    isEncryptedValue (some ([] ++ wrapped (ofChars ['v']) ++ ofChars [' '])) = true ∧
      decryptPropertyValue ([] ++ wrapped (ofChars ['v']) ++ ofChars [' ']) noOpTextCryptoProvider
        = .ok (some (ofChars ['v', ')'])) ∧
      ¬ UnwrapsTo ([] ++ wrapped (ofChars ['v']) ++ ofChars [' ']) (ofChars ['v']) := by
  have hmore : decryptPropertyValue ([] ++ wrapped (ofChars ['v']) ++ ofChars [' '])
      noOpTextCryptoProvider = .ok (some (ofChars ['v', ')'])) := rfl
  refine ⟨by decide, hmore, ?_⟩
  intro h
  have hseen := h.decrypted noOpTextCryptoProvider
  rw [hmore] at hseen
  exact absurd (Option.some.inj (Except.ok.inj hseen)) (by decide)

end EzBakeCommon.Properties
