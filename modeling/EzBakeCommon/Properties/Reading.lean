/-
  EzBakeCommon.Properties.Reading — what getProperty makes of a chain of defaults.

  The raw value of a key is the first one along the chain.  Every `EzProperties`
  object that the call comes through on its way back decrypts what it is handed,
  and the overload with a default decrypts once more what `getProperty(key)` has
  decrypted already.  So a value is decrypted once in effect exactly if the text
  it decrypts to is its own decryption (`reads_once_iff`).

  Main results:
    * `getProperty_plain` — a raw value without the markers is read as it is,
      through any chain.
    * `reads_once_iff` — when every read path decrypts exactly once.
-/
import EzBakeCommon.Properties.EzProperties
import EzBakeCommon.Library.LayeredTable

namespace EzBakeCommon.Properties

open Library JavaString
open Library.LayeredTable (visible)

/-! ## §1. Raw values. -/

/-- The raw values that an object shows, its own before those of its defaults. -/
def PropertiesRef.raw (p : PropertiesRef) : Table := visible (p.map Layer.table)

theorem raw_cons (layer : Layer) (defaults : PropertiesRef) :
    PropertiesRef.raw (layer :: defaults) = layer.table ∪ defaults.raw := rfl

theorem stringPropertyNames_eq : ∀ p : PropertiesRef, p.stringPropertyNames = p.raw.keys
  | [] => rfl
  | layer :: defaults => by
      rw [raw_cons, Finmap.keys_union, ← stringPropertyNames_eq defaults]
      exact Finset.union_comm _ _

/-- An own value comes before those of the defaults. -/
theorem raw_own {layer : Layer} {defaults : PropertiesRef} {key value : JavaString}
    (h : layer.table.lookup key = some value) :
    (PropertiesRef.raw (layer :: defaults)).lookup key = some value := by
  rw [raw_cons, LayeredTable.lookup_union, h]
  rfl

/-- A key is found in the object's own table or in its defaults. -/
theorem raw_cases {layer : Layer} {defaults : PropertiesRef} {key value : JavaString}
    (h : (PropertiesRef.raw (layer :: defaults)).lookup key = some value) :
    layer.table.lookup key = some value ∨
      (layer.table.lookup key = none ∧ defaults.raw.lookup key = some value) := by
  rw [raw_cons, LayeredTable.lookup_union] at h
  cases hl : layer.table.lookup key with
  | none =>
      rw [hl] at h
      exact Or.inr ⟨rfl, h⟩
  | some v =>
      rw [hl] at h
      exact Or.inl h

/-! ## §2. Decryption. -/

/-- The provider leaves the text as it is: it has no markers, or decrypts to itself. -/
def Settled (provider : TextCryptoProvider) (text : JavaString) : Prop :=
  isEncryptedValue (some text) = true → provider.decrypt (some (innerText text)) = .ok (some text)

section Decrypt

variable {cryptoProvider : Option TextCryptoProvider} {provider : TextCryptoProvider}
  {value : JavaString}

theorem decrypt_plain (h : isEncryptedValue (some value) = false) :
    decrypt cryptoProvider (some value) = .ok (some value) := by
  show (if isEncryptedValue (some value) = true then _ else _) = _
  rw [if_neg (by simp [h])]

theorem decrypt_recognised (h : isEncryptedValue (some value) = true) :
    decrypt (some provider) (some value) = provider.decrypt (some (innerText value)) := by
  show (if isEncryptedValue (some value) = true then decryptPropertyValue value provider
    else _) = _
  unfold decryptPropertyValue
  rw [if_pos h, getInnerValue_of_recognised h]
  rfl

theorem decrypt_without (h : isEncryptedValue (some value) = true) :
    decrypt none (some value)
      = .error (.illegalState "Crypto provider has not been initialized!") := by
  show (if isEncryptedValue (some value) = true then _ else _) = _
  rw [if_pos h]

theorem decrypt_wrapped (encrypted : JavaString) :
    decrypt (some provider) (some (wrapped encrypted)) = provider.decrypt (some encrypted) := by
  show (if isEncryptedValue (some (wrapped encrypted)) = true
    then decryptPropertyValue (wrapped encrypted) provider else _) = _
  unfold decryptPropertyValue
  rw [if_pos (wrapped_recognised encrypted), getInnerValue_wrapped]
  rfl

theorem settled_iff : Settled provider value ↔
    decrypt (some provider) (some value) = .ok (some value) := by
  unfold Settled
  cases h : isEncryptedValue (some value) with
  | false => simp [decrypt_plain h]
  | true => simp [decrypt_recognised h]

end Decrypt

/-! ## §3. Reading through a chain. -/

section Chain

variable {key value : JavaString}

section Super

variable {table : Table} {fromDefaults : Except JavaException (Option JavaString)}

theorem superGetProperty_own (h : table.lookup key = some value) :
    superGetProperty table key fromDefaults = .ok (some value) := by
  unfold superGetProperty
  rw [h]

theorem superGetProperty_defaults (h : table.lookup key = none) :
    superGetProperty table key fromDefaults = fromDefaults := by
  unfold superGetProperty
  rw [h]

end Super

theorem getProperty_absent : ∀ {p : PropertiesRef}, key ∉ p.raw → p.getProperty key = .ok none
  | [], _ => rfl
  | layer :: defaults, h => by
      rw [raw_cons, Finmap.mem_union, not_or] at h
      have hsuper : superGetProperty layer.table key (PropertiesRef.getProperty defaults key)
          = .ok none := by
        rw [superGetProperty_defaults (Finmap.lookup_eq_none.mpr h.1)]
        exact getProperty_absent h.2
      unfold PropertiesRef.getProperty
      rw [hsuper]
      cases layer.cls <;> rfl

/-- **A raw value without the markers is read as it is**, whatever the classes
and the providers along the chain. -/
theorem getProperty_plain (hv : isEncryptedValue (some value) = false) :
    ∀ {p : PropertiesRef}, p.raw.lookup key = some value → p.getProperty key = .ok (some value)
  | [], h => absurd h (by simp [PropertiesRef.raw])
  | layer :: defaults, h => by
      have hsuper : superGetProperty layer.table key (PropertiesRef.getProperty defaults key)
          = .ok (some value) := by
        rcases raw_cases h with hl | ⟨hl, hd⟩
        · exact superGetProperty_own hl
        · rw [superGetProperty_defaults hl]
          exact getProperty_plain hv hd
      unfold PropertiesRef.getProperty
      rw [hsuper]
      cases layer.cls with
      | properties => rfl
      | ezProperties cryptoProvider => exact decrypt_plain hv

/-- What an object reads for a key depends on its own value for the key, its
provider and its defaults. -/
theorem getProperty_congr {e e' : EzProperties} (hp : e'.cryptoProvider = e.cryptoProvider)
    (hd : e'.defaults = e.defaults) (hk : e'.table.lookup key = e.table.lookup key) :
    e'.getProperty key = e.getProperty key := by
  show superGetProperty e'.table key (e'.defaults.getProperty key) >>= decrypt e'.cryptoProvider
    = superGetProperty e.table key (e.defaults.getProperty key) >>= decrypt e.cryptoProvider
  unfold superGetProperty
  rw [hp, hd, hk]

end Chain

/-! ## §4. Decrypting once. -/

/-- `EzProperties` objects used as defaults of one another, with one provider. -/
def chain (cryptoProvider : Option TextCryptoProvider) (tables : List Table) : PropertiesRef :=
  tables.map (fun table => ⟨.ezProperties cryptoProvider, table⟩)

theorem raw_chain (cryptoProvider : Option TextCryptoProvider) (tables : List Table) :
    (chain cryptoProvider tables).raw = visible tables := by
  unfold PropertiesRef.raw chain
  rw [List.map_map]
  exact congrArg visible (List.map_id tables)

/-- Both overloads return the single decryption of the raw value. -/
def ReadsOnce (cryptoProvider : Option TextCryptoProvider) (p : PropertiesRef)
    (key raw : JavaString) : Prop :=
  p.getProperty key = decrypt cryptoProvider (some raw) ∧
    ∀ defaultValue, p.getPropertyOr key defaultValue = p.getProperty key

/-- The raw value has no markers, or there is no provider, or the provider
throws at the text between the markers, or decrypts it to a text (not null) that
it then leaves as it is. -/
def DecryptsForGood (cryptoProvider : Option TextCryptoProvider) (raw : JavaString) : Prop :=
  isEncryptedValue (some raw) = true → ∀ provider, cryptoProvider = some provider →
    ∀ text, provider.decrypt (some (innerText raw)) = .ok text →
      ∃ s, text = some s ∧ Settled provider s

section Once

variable {cryptoProvider : Option TextCryptoProvider} {tables : List Table}
  {key raw : JavaString}

/-- The same, told by `decrypt`. -/
theorem decryptsForGood_iff : DecryptsForGood cryptoProvider raw ↔
    ∀ text, decrypt cryptoProvider (some raw) = .ok text →
      ∃ s, text = some s ∧ decrypt cryptoProvider (some s) = .ok (some s) := by
  unfold DecryptsForGood
  cases henc : isEncryptedValue (some raw) with
  | false =>
      rw [decrypt_plain henc]
      refine iff_of_true (fun h => absurd h Bool.false_ne_true) ?_
      intro text htext
      obtain rfl := Except.ok.inj htext
      exact ⟨raw, rfl, decrypt_plain henc⟩
  | true =>
      cases cryptoProvider with
      | none => simp [decrypt_without henc]
      | some provider =>
          rw [decrypt_recognised henc]
          simp [settled_iff]

/-- The overload with a default, once the other overload is known. -/
theorem getPropertyOr_chain (hraw : (visible tables).lookup key = some raw)
    {text : Except JavaException (Option JavaString)}
    (h : (chain cryptoProvider tables).getProperty key = text)
    (defaultValue : Option JavaString) :
    (chain cryptoProvider tables).getPropertyOr key defaultValue
      = text >>= fun s => decrypt cryptoProvider (s.or defaultValue) := by
  cases tables with
  | nil => exact absurd hraw (by simp)
  | cons table tables =>
      show superGetPropertyOr _ key defaultValue >>= decrypt cryptoProvider = _
      unfold superGetPropertyOr
      rw [h]
      cases text with
      | error x => rfl
      | ok s => cases s <;> rfl

/-- Through any chain the value is decrypted once if that is for good. -/
theorem getProperty_chain (hgood : DecryptsForGood cryptoProvider raw) :
    ∀ {tables : List Table}, (visible tables).lookup key = some raw →
      (chain cryptoProvider tables).getProperty key = decrypt cryptoProvider (some raw)
  | [], h => absurd h (by simp)
  | table :: tables, h => by
      show superGetProperty table key ((chain cryptoProvider tables).getProperty key)
        >>= decrypt cryptoProvider = _
      rw [LayeredTable.visible_cons, LayeredTable.lookup_union] at h
      cases hl : table.lookup key with
      | some v =>
          rw [hl] at h
          obtain rfl : v = raw := Option.some.inj h
          rw [superGetProperty_own hl]
          rfl
      | none =>
          rw [hl] at h
          -- decrypted further down, and once more here
          rw [superGetProperty_defaults hl, getProperty_chain hgood h]
          cases hd : decrypt cryptoProvider (some raw) with
          | error x => rfl
          | ok text =>
              obtain ⟨s, rfl, hs⟩ := decryptsForGood_iff.mp hgood text hd
              exact hs

/-- **Every read path decrypts the raw value exactly once if and only if it
decrypts for good.** -/
theorem reads_once_iff (cryptoProvider : Option TextCryptoProvider) (tables : List Table)
    (key raw : JavaString) (hraw : (chain cryptoProvider tables).raw.lookup key = some raw) :
    ReadsOnce cryptoProvider (chain cryptoProvider tables) key raw ↔
      DecryptsForGood cryptoProvider raw := by
  rw [raw_chain] at hraw
  constructor
  · intro h
    obtain ⟨hget, hor⟩ := h
    refine decryptsForGood_iff.mpr ?_
    intro text htext
    rw [htext] at hget
    have hread : ∀ d, decrypt cryptoProvider (text.or d) = .ok text := by
      intro d
      rw [← hget, ← hor d, getPropertyOr_chain hraw hget]
      rfl
    cases text with
    | some s => exact ⟨s, rfl, hread none⟩
    | none =>
        -- a null text would be replaced by the default
        have hempty : decrypt cryptoProvider (some []) = .ok none := hread (some [])
        rw [decrypt_plain rfl] at hempty
        exact absurd (Except.ok.inj hempty) (by simp)
  · intro hgood
    have hget := getProperty_chain hgood hraw
    refine ⟨hget, ?_⟩
    intro d
    rw [getPropertyOr_chain hraw hget, hget]
    cases hd : decrypt cryptoProvider (some raw) with
    | error x => rfl
    | ok text =>
        obtain ⟨s, rfl, hs⟩ := decryptsForGood_iff.mp hgood text hd
        exact hs

end Once

/-- An encrypted value in the defaults, read through two objects. -/
theorem read_once_through_defaults :
    ReadsOnce (some noOpTextCryptoProvider)
      (chain (some noOpTextCryptoProvider)
        [∅, Finmap.singleton (ofChars ['k']) (wrapped (ofChars ['v']))])
      (ofChars ['k']) (wrapped (ofChars ['v'])) := by
  refine (reads_once_iff (some noOpTextCryptoProvider)
    [∅, Finmap.singleton (ofChars ['k']) (wrapped (ofChars ['v']))] (ofChars ['k'])
    (wrapped (ofChars ['v'])) ?_).mpr ?_
  · rw [raw_chain]
    simp
  · refine decryptsForGood_iff.mpr ?_
    intro text htext
    rw [decrypt_wrapped] at htext
    obtain rfl := Except.ok.inj htext
    exact ⟨ofChars ['v'], rfl, decrypt_plain (by decide)⟩

/-- A flat table with a value that decrypts to another encrypted value: the
overload with a default decrypts both. -/
theorem read_twice :
    ¬ ReadsOnce (some noOpTextCryptoProvider)
      (chain (some noOpTextCryptoProvider)
        [Finmap.singleton (ofChars ['k']) (wrapped (wrapped (ofChars ['v'])))])
      (ofChars ['k']) (wrapped (wrapped (ofChars ['v']))) := by
  intro h
  obtain ⟨hget, hor⟩ := h
  -- the overload without a default returns the inner encrypted value
  rw [decrypt_wrapped] at hget
  have hraw : (visible ([Finmap.singleton (ofChars ['k']) (wrapped (wrapped (ofChars ['v'])))]
      : List Table)).lookup (ofChars ['k']) = some (wrapped (wrapped (ofChars ['v']))) := by
    simp
  have hread := hor none
  rw [hget, getPropertyOr_chain hraw hget] at hread
  have hinner : decrypt (some noOpTextCryptoProvider) (some (wrapped (ofChars ['v'])))
      = .ok (some (wrapped (ofChars ['v']))) := hread
  rw [decrypt_wrapped] at hinner
  exact absurd (Except.ok.inj hinner) (by decide)

end EzBakeCommon.Properties
