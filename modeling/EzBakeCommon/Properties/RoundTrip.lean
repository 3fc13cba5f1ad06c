/-
  EzBakeCommon.Properties.RoundTrip — what is written is read back.

  `setProperty` writes a value between the markers, or as it is; `getProperty`
  recognises the one and leaves the other alone.  A written value is its own
  trim, so recognising and unwrapping agree on it whatever the ciphertext is.

  Main result: `writes_read_back`, for runs of writes and of merges of tables
  that such runs have built.
-/
import EzBakeCommon.Properties.Importing

namespace EzBakeCommon.Properties

open Library JavaString

/-! ## §1. Runs of writes. -/

/-- A run of writes: `setProperty`, and override merges of tables without
defaults that runs of their own have built. -/
inductive Writes where
  | done
  | setProperty (key value : JavaString) (isEncrypted : Bool) (rest : Writes)
  | merge (table rest : Writes)

namespace Writes

/-- The run, on an object; it stops where a method throws. -/
def apply (provider : TextCryptoProvider) :
    Writes → EzProperties → Except JavaException Unit × EzProperties
  | done, e => (.ok (), e)
  | setProperty key value isEncrypted rest, e =>
      match e.setProperty key (some value) isEncrypted with
      | (.ok _, e) => apply provider rest e
      | (.error x, e) => (.error x, e)
  | merge table rest, e =>
      match apply provider table (EzProperties.empty.setTextCryptoProvider (some provider)) with
      | (.ok _, t) =>
          match e.mergeProperties t.toProperties true with
          | (.ok _, e) => apply provider rest e
          | (.error x, e) => (.error x, e)
      | (.error x, _) => (.error x, e)

/-- The plain value of the last write to a key. -/
def last : Writes → JavaString → Option JavaString
  | done, _ => none
  | setProperty key value _ rest, k => (last rest k).or (if key = k then some value else none)
  | merge table rest, k => (last rest k).or (last table k)

/-- What is written unencrypted has no markers. -/
def Unmarked : Writes → Prop
  | done => True
  | setProperty _ value isEncrypted rest =>
      (isEncrypted = false → isEncryptedValue (some value) = false) ∧ Unmarked rest
  | merge table rest => Unmarked table ∧ Unmarked rest

end Writes

/-- The provider encrypts every text to some text that it decrypts to the former. -/
def TextCryptoProvider.Inverts (provider : TextCryptoProvider) : Prop :=
  ∀ x, ∃ c, provider.encrypt (some x) = .ok (some c) ∧ provider.decrypt (some c) = .ok (some x)

/-! ## §2. What a run stores. -/

/-- The object after a run: some keys hold a value that decrypts to what was
written, the others hold what they held. -/
structure Stored (provider : TextCryptoProvider) (written : JavaString → Option JavaString)
    (e e' : EzProperties) : Prop where
  cryptoProvider : e'.cryptoProvider = e.cryptoProvider
  defaults : e'.defaults = e.defaults
  kept : ∀ key, written key = none → e'.table.lookup key = e.table.lookup key
  stored : ∀ key value, written key = some value → ∃ raw, e'.table.lookup key = some raw ∧
    decrypt (some provider) (some raw) = .ok (some value)

section Stored

variable {provider : TextCryptoProvider} {e e' e'' : EzProperties}
  {written written' : JavaString → Option JavaString}

theorem Stored.refl : Stored provider (fun _ => none) e e :=
  ⟨rfl, rfl, fun _ _ => rfl, fun _ _ h => absurd h (by simp)⟩

/-- The later of two runs decides. -/
theorem Stored.trans (h : Stored provider written e e') (h' : Stored provider written' e' e'') :
    Stored provider (fun key => (written' key).or (written key)) e e'' := by
  refine ⟨h'.cryptoProvider.trans h.cryptoProvider, h'.defaults.trans h.defaults, ?_, ?_⟩
  · intro key hkey
    obtain ⟨hnew, hold⟩ := Option.or_eq_none_iff.mp hkey
    exact (h'.kept key hnew).trans (h.kept key hold)
  · intro key value hkey
    cases hnew : written' key with
    | some v =>
        rw [hnew] at hkey
        obtain rfl : v = value := Option.some.inj hkey
        exact h'.stored key v hnew
    | none =>
        rw [hnew] at hkey
        rw [h'.kept key hnew]
        exact h.stored key value hkey

/-- A stored value is read back. -/
theorem Stored.read (h : Stored provider written e e') (hp : e.cryptoProvider = some provider)
    (key : JavaString) : e'.getProperty key =
      match written key with
      | some value => .ok (some value)
      | none => e.getProperty key := by
  cases hkey : written key with
  | none => exact getProperty_congr h.cryptoProvider h.defaults (h.kept key hkey)
  | some value =>
      obtain ⟨raw, hraw, hdecrypt⟩ := h.stored key value hkey
      show superGetProperty e'.table key _ >>= decrypt e'.cryptoProvider = _
      rw [superGetProperty_own hraw, h.cryptoProvider, hp]
      exact hdecrypt

theorem setProperty_encrypted {key encrypted : JavaString} {value : Option JavaString}
    (hp : e.cryptoProvider = some provider)
    (henc : encryptPropertyValue value provider = .ok encrypted) :
    e.setProperty key value true = e.superSetProperty key (some encrypted) := by
  unfold EzProperties.setProperty
  simp only [hp, henc, if_true]

/-- One `setProperty`. -/
theorem setProperty_stored (hinv : provider.Inverts) (hp : e.cryptoProvider = some provider)
    {key value : JavaString} {isEncrypted : Bool}
    (hv : isEncrypted = false → isEncryptedValue (some value) = false) :
    ∃ e', e.setProperty key (some value) isEncrypted = (.ok (), e') ∧
      Stored provider (fun k => if key = k then some value else none) e e' := by
  -- whichever way, some raw value is put that decrypts to `value`
  have hput : ∃ raw, e.setProperty key (some value) isEncrypted
        = (.ok (), { e with table := e.table.insert key raw }) ∧
      decrypt (some provider) (some raw) = .ok (some value) := by
    cases isEncrypted with
    | false => exact ⟨value, rfl, decrypt_plain (hv rfl)⟩
    | true =>
        obtain ⟨c, hc, hd⟩ := hinv value
        refine ⟨wrapped c, ?_, (decrypt_wrapped c).trans hd⟩
        have henc : encryptPropertyValue (some value) provider = .ok (wrapped c) := by
          unfold encryptPropertyValue
          rw [hc]
          rfl
        exact setProperty_encrypted hp henc
  obtain ⟨raw, hset, hdecrypt⟩ := hput
  refine ⟨_, hset, rfl, rfl, ?_, ?_⟩
  · intro k hk
    have hne : k ≠ key := by
      intro heq
      rw [if_pos heq.symm] at hk
      exact absurd hk (by simp)
    exact Finmap.lookup_insert_of_ne e.table hne
  · intro k v hk
    by_cases hkey : key = k
    · subst hkey
      obtain rfl : value = v := by simpa using hk
      exact ⟨raw, Finmap.lookup_insert e.table, hdecrypt⟩
    · simp [hkey] at hk

/-- Merging a table that a run has built stores what the run has written. -/
theorem merge_stored {t : EzProperties}
    (ht : Stored provider written (EzProperties.empty.setTextCryptoProvider (some provider)) t) :
    Stored provider written e (e.withEntries t.table) := by
  refine ⟨rfl, rfl, ?_, ?_⟩
  · intro key hkey
    have hnone : t.table.lookup key = none := ht.kept key hkey
    rw [lookup_withEntries, hnone]
    rfl
  · intro key value hkey
    obtain ⟨raw, hraw, hdecrypt⟩ := ht.stored key value hkey
    refine ⟨raw, ?_, hdecrypt⟩
    rw [lookup_withEntries, hraw]
    rfl

/-- **A run never throws and stores what it writes.** -/
theorem apply_stored (hinv : provider.Inverts) : ∀ (w : Writes), w.Unmarked →
    ∀ e : EzProperties, e.cryptoProvider = some provider →
      ∃ e', w.apply provider e = (.ok (), e') ∧ Stored provider w.last e e'
  | .done, _, e, _ => ⟨e, rfl, Stored.refl⟩
  | .setProperty key value isEncrypted rest, hw, e, hp => by
      obtain ⟨e', hset, hstored⟩ := @setProperty_stored _ _ hinv hp key _ _ hw.1
      obtain ⟨e'', hrest, hstored'⟩ := apply_stored hinv rest hw.2 e'
        (hstored.cryptoProvider.trans hp)
      refine ⟨e'', ?_, hstored.trans hstored'⟩
      unfold Writes.apply
      rw [hset]
      exact hrest
  | .merge table rest, hw, e, hp => by
      obtain ⟨t, htable, ht⟩ := apply_stored hinv table hw.1
        (EzProperties.empty.setTextCryptoProvider (some provider)) rfl
      have hstored : Stored provider table.last e (e.withEntries t.table) := merge_stored ht
      obtain ⟨e'', hrest, hstored'⟩ := apply_stored hinv rest hw.2 (e.withEntries t.table) hp
      refine ⟨e'', ?_, hstored.trans hstored'⟩
      unfold Writes.apply
      rw [htable]
      exact hrest

end Stored

/-- **What is written last is read back, and nothing else reads differently.** -/
theorem writes_read_back (provider : TextCryptoProvider) (hinv : provider.Inverts) (w : Writes)
    (hw : w.Unmarked) (e : EzProperties) (hp : e.cryptoProvider = some provider) :
    (w.apply provider e).1 = .ok () ∧
    ∀ key, (w.apply provider e).2.getProperty key =
      match w.last key with
      | some value => .ok (some value)
      | none => e.getProperty key := by
  obtain ⟨e', happly, hstored⟩ := apply_stored hinv w hw e hp
  rw [happly]
  exact ⟨rfl, hstored.read hp⟩

/-- One key written twice, the second time encrypted and by way of a merge; the
ciphertext has the markers itself. -/
theorem encrypted_overwrite_read_back :
    let w := Writes.setProperty (ofChars ['k']) (ofChars ['v']) false
      (.merge (.setProperty (ofChars ['k']) (wrapped (ofChars ['w'])) true .done) .done)
    (w.apply noOpTextCryptoProvider
        (EzProperties.empty.setTextCryptoProvider (some noOpTextCryptoProvider))).1 = .ok () ∧
    ∀ key, (w.apply noOpTextCryptoProvider
        (EzProperties.empty.setTextCryptoProvider (some noOpTextCryptoProvider))).2.getProperty key
      = match w.last key with
        | some value => .ok (some value)
        | none => (EzProperties.empty.setTextCryptoProvider
            (some noOpTextCryptoProvider)).getProperty key :=
  writes_read_back noOpTextCryptoProvider (fun x => ⟨x, rfl, rfl⟩)
    (.setProperty (ofChars ['k']) (ofChars ['v']) false
      (.merge (.setProperty (ofChars ['k']) (wrapped (ofChars ['w'])) true .done) .done))
    ⟨fun _ => by decide, ⟨fun h => absurd h (by simp), trivial⟩, trivial⟩
    (EzProperties.empty.setTextCryptoProvider (some noOpTextCryptoProvider)) rfl

end EzBakeCommon.Properties
