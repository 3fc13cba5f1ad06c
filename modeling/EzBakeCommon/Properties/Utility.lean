/-
  EzBakeCommon.Properties.Utility — PropertiesEncryptionUtil on whole objects.

  `decryptProperty` asks the object for the property, and asks it again to decrypt
  it.  A `java.util.Properties` answers with what is stored, an EzProperties with what
  it has decrypted already.  So after any run of writes the utility finds the
  encrypted values in the stored table, each with its text, and none in the object
  itself, but for texts that have the markers of their own (`utility_after_writes`).
-/
import EzBakeCommon.Properties.RoundTrip

namespace EzBakeCommon.Properties

open Library JavaString

/-- The utility, where the object answers with a text. -/
theorem decryptProperty_of_read {props : PropertiesRef} {key value : JavaString}
    (h : props.getProperty key = .ok (some value)) (provider : TextCryptoProvider) :
    isEncryptedProperty props key = .ok (isEncryptedValue (some value)) ∧
    decryptProperty props key provider =
      if isEncryptedValue (some value) then decryptPropertyValue value provider else .ok none := by
  have hencrypted : isEncryptedProperty props key = .ok (isEncryptedValue (some value)) := by
    unfold isEncryptedProperty
    rw [h]
    rfl
  refine ⟨hencrypted, ?_⟩
  unfold decryptProperty
  rw [hencrypted, h]
  cases isEncryptedValue (some value) with
  | true => rfl
  | false => rfl

/-- The stored table, as an object of `java.util.Properties`. -/
def EzProperties.storedTable (e : EzProperties) : PropertiesRef := [⟨.properties, e.table⟩]

/-- **What the utility finds after a run of writes.**  In the stored table: the text that was
written last, where its value is encrypted, and null where it is not.  In the object: null,
where the text has no markers, and else what it decrypts to once more. -/
theorem utility_after_writes (provider : TextCryptoProvider) (hinv : provider.Inverts) (w : Writes)
    (hw : w.Unmarked) (e : EzProperties) (hp : e.cryptoProvider = some provider)
    {key text : JavaString} (hlast : w.last key = some text) :
    ∃ raw, (w.apply provider e).2.table.lookup key = some raw ∧
      decryptProperty (w.apply provider e).2.storedTable key provider
        = .ok (if isEncryptedValue (some raw) then some text else none) ∧
      decryptProperty (w.apply provider e).2.toProperties key provider
        = if isEncryptedValue (some text) then decryptPropertyValue text provider
          else .ok none := by
  obtain ⟨e', happly, hstored⟩ := apply_stored hinv w hw e hp
  obtain ⟨raw, hraw, hdecrypt⟩ := hstored.stored key text hlast
  have hread := hstored.read hp key
  rw [hlast] at hread
  rw [happly]
  have htable : e'.storedTable.getProperty key = .ok (some raw) := by
    show superGetProperty e'.table key _ = _
    exact superGetProperty_own hraw
  refine ⟨raw, hraw, ?_, (decryptProperty_of_read hread provider).2⟩
  rw [(decryptProperty_of_read htable provider).2]
  unfold decrypt at hdecrypt
  dsimp only at hdecrypt
  cases hmarked : isEncryptedValue (some raw) with
  | true =>
      rw [hmarked, if_pos rfl] at hdecrypt
      rw [if_pos rfl, if_pos rfl]
      exact hdecrypt
  | false => rfl

/-- A text that is written encrypted. -/
theorem utility_after_one_write :
    let e := EzProperties.empty.setTextCryptoProvider (some noOpTextCryptoProvider)
    let w := Writes.setProperty (ofChars ['k']) (ofChars ['v']) true .done
    ∃ raw, (w.apply noOpTextCryptoProvider e).2.table.lookup (ofChars ['k']) = some raw ∧
      decryptProperty (w.apply noOpTextCryptoProvider e).2.storedTable (ofChars ['k'])
          noOpTextCryptoProvider
        = .ok (if isEncryptedValue (some raw) then some (ofChars ['v']) else none) ∧
      decryptProperty (w.apply noOpTextCryptoProvider e).2.toProperties (ofChars ['k'])
          noOpTextCryptoProvider
        = if isEncryptedValue (some (ofChars ['v']))
          then decryptPropertyValue (ofChars ['v']) noOpTextCryptoProvider
          else .ok none := by
  intro e w
  have hinv : noOpTextCryptoProvider.Inverts := fun x => ⟨x, rfl, rfl⟩
  have hw : w.Unmarked := ⟨fun h => absurd h (by simp), trivial⟩
  have hlast : w.last (ofChars ['k']) = some (ofChars ['v']) := rfl
  exact utility_after_writes noOpTextCryptoProvider hinv w hw e rfl hlast

end EzBakeCommon.Properties
