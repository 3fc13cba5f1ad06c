/-
  EzBakeCommon.Properties.TypedValues — reading a property as a number or a truth
  value.

  The getters of EzProperties hand what `getProperty` returns to the conversions of
  commons-lang, which answer with the default value where a text is no number of
  the width.  So a number that has been written as `toString` writes it, in
  plain or encrypted, in one call or by way of merges, is read back by every getter
  whose width holds it, and the others answer with their default
  (`numbers_read_back`).

  `getDouble` and `getFloat` are left out.
-/
import EzBakeCommon.Library.JavaNumber
import EzBakeCommon.Properties.RoundTrip

namespace EzBakeCommon.Properties

open Library JavaString
open JavaNumber (Characters Fits)

/-! ## §1. Conversions. -/

/-- `org.apache.commons.lang3.math.NumberUtils` -/
structure NumberUtils where
  toShort : Option JavaString → Int16 → Int16
  toInt : Option JavaString → Int32 → Int32
  toLong : Option JavaString → Int64 → Int64

/-- The number of that many bits, or the default value where the text is null or the
conversion fails. -/
def converted {α : Type} (T : Characters) (bits : ℕ) (ofInt : ℤ → α) (str : Option JavaString)
    (defaultValue : α) : α :=
  match str with
  | none => defaultValue
  | some s => ((JavaNumber.parse T bits s).map ofInt).getD defaultValue

/-- What commons-lang documents. -/
structure NumberUtils.Documented (utils : NumberUtils) (T : Characters) : Prop where
  toShort : ∀ str d, utils.toShort str d = converted T 16 Int16.ofInt str d
  toInt : ∀ str d, utils.toInt str d = converted T 32 Int32.ofInt str d
  toLong : ∀ str d, utils.toLong str d = converted T 64 Int64.ofInt str d

/-- The conversions of texts in ASCII. -/
def NumberUtils.ascii : NumberUtils where
  toShort := converted Characters.ascii 16 Int16.ofInt
  toInt := converted Characters.ascii 32 Int32.ofInt
  toLong := converted Characters.ascii 64 Int64.ofInt

theorem NumberUtils.ascii_documented : NumberUtils.ascii.Documented Characters.ascii :=
  ⟨fun _ _ => rfl, fun _ _ => rfl, fun _ _ => rfl⟩

/-- `String.toLowerCase()`, in the default locale. -/
structure LowerCase where
  toLowerCase : JavaString → JavaString

/-- The letters of ASCII have their lower case in every locale, but for `I`. -/
def LowerCase.Documented (lower : LowerCase) : Prop :=
  ∀ cs : List Char, (∀ c ∈ cs, c.isAlpha = true ∧ c ≠ 'I') →
    lower.toLowerCase (ofChars cs) = ofChars (cs.map Char.toLower)

/-! ## §2. The getters. -/

namespace EzProperties

variable (utils : NumberUtils) (lower : LowerCase) (e : EzProperties)

def getShort (propertyName : JavaString) (defaultValue : Int16) : Except JavaException Int16 :=
  (e.getProperty propertyName).map (fun value => utils.toShort value defaultValue)

def getInteger (propertyName : JavaString) (defaultValue : Int32) : Except JavaException Int32 :=
  (e.getProperty propertyName).map (fun value => utils.toInt value defaultValue)

def getLong (propertyName : JavaString) (defaultValue : Int64) : Except JavaException Int64 :=
  (e.getProperty propertyName).map (fun value => utils.toLong value defaultValue)

def getBoolean (propertyName : JavaString) (defaultValue : Bool) : Except JavaException Bool := do
  match ← e.getProperty propertyName with
  | none => return defaultValue
  | some value =>
      let value := lower.toLowerCase value.trim
      if value = ofChars ['t', 'r', 'u', 'e'] then return true
      else if value = ofChars ['f', 'a', 'l', 's', 'e'] then return false
      else return defaultValue

end EzProperties

/-! ## §3. What is written is read back. -/

section Getter

variable {α : Type} {T : Characters} {bits : ℕ} {ofInt : ℤ → α} {e : EzProperties}
  {key : JavaString}

/-- A getter: the property, converted. -/
def getConverted (T : Characters) (bits : ℕ) (ofInt : ℤ → α) (e : EzProperties) (key : JavaString)
    (d : α) : Except JavaException α :=
  (e.getProperty key).map (fun value => converted T bits ofInt value d)

theorem getShort_eq {utils : NumberUtils} (hutils : utils.Documented T) :
    e.getShort utils key = getConverted T 16 Int16.ofInt e key := by
  funext d
  unfold EzProperties.getShort getConverted
  simp only [hutils.toShort]

theorem getInteger_eq {utils : NumberUtils} (hutils : utils.Documented T) :
    e.getInteger utils key = getConverted T 32 Int32.ofInt e key := by
  funext d
  unfold EzProperties.getInteger getConverted
  simp only [hutils.toInt]

theorem getLong_eq {utils : NumberUtils} (hutils : utils.Documented T) :
    e.getLong utils key = getConverted T 64 Int64.ofInt e key := by
  funext d
  unfold EzProperties.getLong getConverted
  simp only [hutils.toLong]

/-- A getter at a text that is a number, or none. -/
theorem getConverted_some {s : JavaString} (h : e.getProperty key = .ok (some s)) (d : α) :
    getConverted T bits ofInt e key d = .ok (((JavaNumber.parse T bits s).map ofInt).getD d) := by
  unfold getConverted
  rw [h]
  rfl

/-- A getter at a numeral. -/
theorem getConverted_text (hT : T.Documented) {n : ℤ}
    (h : e.getProperty key = .ok (some (JavaNumber.text n))) (d : α) :
    getConverted T bits ofInt e key d = .ok (if Fits bits n then ofInt n else d) := by
  rw [getConverted_some h, JavaNumber.parse_text hT]
  split
  next => rfl
  next => rfl

/-- A getter that does not answer with its default has read a number. -/
theorem getConverted_settled {v d : α} (hd : d ≠ v)
    (h : getConverted T bits ofInt e key d = .ok v) :
    ∃ s n, e.getProperty key = .ok (some s) ∧ JavaNumber.parse T bits s = some n ∧
      ofInt n = v := by
  cases hread : e.getProperty key with
  | error x =>
      unfold getConverted at h
      rw [hread] at h
      exact absurd h (by simp [Except.map])
  | ok str =>
      cases str with
      | none =>
          unfold getConverted at h
          rw [hread] at h
          exact absurd (Except.ok.inj h) hd
      | some s =>
          rw [getConverted_some hread] at h
          cases hn : JavaNumber.parse T bits s with
          | none =>
              rw [hn] at h
              exact absurd (Except.ok.inj h) hd
          | some n =>
              rw [hn] at h
              exact ⟨s, n, rfl, hn, Except.ok.inj h⟩

end Getter

/-- **A number that is written last is read back in every width that holds it**; the
getters of the other widths answer with their default. -/
theorem numbers_read_back {T : Characters} (hT : T.Documented) {utils : NumberUtils}
    (hutils : utils.Documented T) {e : EzProperties} {key : JavaString}
    {provider : TextCryptoProvider} (hinv : provider.Inverts)
    (hp : e.cryptoProvider = some provider) (w : Writes) (hw : w.Unmarked) {n : ℤ}
    (hlast : w.last key = some (JavaNumber.text n)) :
    (∀ d, (w.apply provider e).2.getShort utils key d
      = .ok (if Fits 16 n then Int16.ofInt n else d)) ∧
    (∀ d, (w.apply provider e).2.getInteger utils key d
      = .ok (if Fits 32 n then Int32.ofInt n else d)) ∧
    (∀ d, (w.apply provider e).2.getLong utils key d
      = .ok (if Fits 64 n then Int64.ofInt n else d)) := by
  obtain ⟨e', happly, hstored⟩ := apply_stored hinv w hw e hp
  have hread := hstored.read hp key
  rw [hlast] at hread
  rw [happly, getShort_eq hutils, getInteger_eq hutils, getLong_eq hutils]
  exact ⟨getConverted_text hT hread, getConverted_text hT hread, getConverted_text hT hread⟩

/-- The least number that a `short` does not hold, encrypted and merged. -/
theorem long_number_read_back :
    let w := Writes.merge
      (.setProperty (ofChars ['k']) (JavaNumber.text (-32769)) true .done) .done
    let e := EzProperties.empty.setTextCryptoProvider (some noOpTextCryptoProvider)
    (∀ d, (w.apply noOpTextCryptoProvider e).2.getShort NumberUtils.ascii (ofChars ['k']) d
      = .ok (if Fits 16 (-32769) then Int16.ofInt (-32769) else d)) ∧
    (∀ d, (w.apply noOpTextCryptoProvider e).2.getInteger NumberUtils.ascii (ofChars ['k']) d
      = .ok (if Fits 32 (-32769) then Int32.ofInt (-32769) else d)) ∧
    (∀ d, (w.apply noOpTextCryptoProvider e).2.getLong NumberUtils.ascii (ofChars ['k']) d
      = .ok (if Fits 64 (-32769) then Int64.ofInt (-32769) else d)) := by
  intro w e
  have hinv : noOpTextCryptoProvider.Inverts := fun x => ⟨x, rfl, rfl⟩
  have hw : w.Unmarked := ⟨⟨fun h => absurd h (by simp), trivial⟩, trivial⟩
  have hlast : w.last (ofChars ['k']) = some (JavaNumber.text (-32769)) := rfl
  exact numbers_read_back Characters.ascii_documented NumberUtils.ascii_documented hinv rfl w hw
    hlast

/-! ## §4. The getters agree. -/

/-- A narrower getter has read what a wider one reads. -/
theorem getConverted_widen {α β : Type} {T : Characters} {bits : ℕ} {ofInt : ℤ → α}
    {e : EzProperties} {key : JavaString} {v d : α} (hd : d ≠ v)
    (h : getConverted T bits ofInt e key d = .ok v) :
    ∃ n, Fits bits n ∧ ofInt n = v ∧ ∀ (bits' : ℕ) (ofInt' : ℤ → β), bits ≤ bits' →
      ∀ d', getConverted T bits' ofInt' e key d' = .ok (ofInt' n) := by
  obtain ⟨s, n, hread, hn, hv⟩ := getConverted_settled hd h
  refine ⟨n, JavaNumber.parse_fits hn, hv, fun bits' ofInt' hle d' => ?_⟩
  rw [getConverted_some hread, JavaNumber.parse_widen hle hn]
  rfl

/-- **Wider getters agree**: where the answer of a getter does not depend on its
default, every getter of more bits answers with the same number. -/
theorem wider_getters_agree {T : Characters} {utils : NumberUtils} (hutils : utils.Documented T)
    {e : EzProperties} {key : JavaString} :
    (∀ v : Int16, (∀ d, e.getShort utils key d = .ok v) →
      ∀ d, e.getInteger utils key d = .ok v.toInt32) ∧
    (∀ v : Int32, (∀ d, e.getInteger utils key d = .ok v) →
      ∀ d, e.getLong utils key d = .ok v.toInt64) := by
  rw [getShort_eq hutils, getInteger_eq hutils, getLong_eq hutils]
  constructor
  · intro v hv
    have hother : v + 1 ≠ v := by simp
    obtain ⟨n, hfits, rfl, hwide⟩ := getConverted_widen (β := Int32) hother (hv (v + 1))
    have hbounds : -32768 ≤ n ∧ n < 32768 := hfits
    have hsame : (Int16.ofInt n).toInt32 = Int32.ofInt n := by
      rw [← Int32.toInt_inj, Int16.toInt_toInt32, Int16.toInt_ofInt_of_le (by omega) (by omega),
        Int32.toInt_ofInt_of_le (by omega) (by omega)]
    rw [hsame]
    exact hwide 32 Int32.ofInt (by decide)
  · intro v hv
    have hother : v + 1 ≠ v := by simp
    obtain ⟨n, hfits, rfl, hwide⟩ := getConverted_widen (β := Int64) hother (hv (v + 1))
    have hbounds : -2147483648 ≤ n ∧ n < 2147483648 := hfits
    have hsame : (Int32.ofInt n).toInt64 = Int64.ofInt n := by
      rw [← Int64.toInt_inj, Int32.toInt_toInt64, Int32.toInt_ofInt_of_le (by omega) (by omega),
        Int64.toInt_ofInt_of_le (by omega) (by omega)]
    rw [hsame]
    exact hwide 64 Int64.ofInt (by decide)

/-! ## §5. Truth values. -/

/-- A letter of ASCII is no blank. -/
theorem isBlank_ofLetter {c : Char} (hc : c.isAlpha = true) :
    isBlank (UInt16.ofNat c.toNat) = false := by
  have hrange : 65 ≤ c.toNat ∧ c.toNat ≤ 122 := by
    have halpha : (c.isUpper || c.isLower) = true := hc
    rcases Bool.or_eq_true_iff.mp halpha with hupper | hlower
    · obtain ⟨hlow, hhigh⟩ : 65 ≤ c.toNat ∧ c.toNat ≤ 90 := of_decide_eq_true hupper
      exact ⟨hlow, Nat.le_trans hhigh (by decide)⟩
    · have hbounds : (decide (97 ≤ c.toNat) && decide (c.toNat ≤ 122)) = true := hlower
      obtain ⟨hlow, hhigh⟩ := Bool.and_eq_true_iff.mp hbounds
      exact ⟨Nat.le_trans (by decide) (of_decide_eq_true hlow), of_decide_eq_true hhigh⟩
  have hunit : (UInt16.ofNat c.toNat).toNat = c.toNat := by
    rw [UInt16.toNat_ofNat']
    omega
  refine decide_eq_false ?_
  rw [UInt16.le_iff_toNat_le, hunit]
  show ¬ c.toNat ≤ 32
  omega

/-- A word of letters is its own trim. -/
theorem trim_ofLetters {cs : List Char} (hne : cs ≠ []) (hcs : ∀ c ∈ cs, c.isAlpha = true) :
    (ofChars cs).trim = ofChars cs := by
  have hfirst : (ofChars cs).head? = some (UInt16.ofNat (cs.head hne).toNat) := by
    unfold ofChars
    rw [List.head?_map, List.head?_eq_some_head hne]
    rfl
  have hlast : (ofChars cs).getLast? = some (UInt16.ofNat (cs.getLast hne).toNat) := by
    unfold ofChars
    rw [List.getLast?_map, List.getLast?_eq_some_getLast hne]
    rfl
  exact trim_eq_self hfirst (isBlank_ofLetter (hcs _ (List.head_mem hne))) hlast
    (isBlank_ofLetter (hcs _ (List.getLast_mem hne)))

/-- **A truth value is read in any case and with blanks around it**, in every locale. -/
theorem booleans_read_back {lower : LowerCase} (hlower : lower.Documented) {e : EzProperties}
    {key before after : JavaString} (hbefore : ∀ u ∈ before, isBlank u = true)
    (hafter : ∀ u ∈ after, isBlank u = true) {cs : List Char}
    (hletters : ∀ c ∈ cs, c.isAlpha = true ∧ c ≠ 'I') (b : Bool)
    (hcs : cs.map Char.toLower
      = if b then ['t', 'r', 'u', 'e'] else ['f', 'a', 'l', 's', 'e'])
    (hread : e.getProperty key = .ok (some (before ++ ofChars cs ++ after))) (d : Bool) :
    e.getBoolean lower key d = .ok b := by
  have hne : cs ≠ [] := by
    intro hnil
    rw [hnil] at hcs
    cases b <;> exact absurd hcs (by simp)
  have htrim : (before ++ ofChars cs ++ after).trim = ofChars cs :=
    (trim_surrounded hbefore hafter _).trans (trim_ofLetters hne (fun c hc => (hletters c hc).1))
  unfold EzProperties.getBoolean
  rw [hread]
  show (if lower.toLowerCase (before ++ ofChars cs ++ after).trim = _ then Except.ok true
    else if lower.toLowerCase (before ++ ofChars cs ++ after).trim = _ then Except.ok false
    else Except.ok d) = Except.ok b
  rw [htrim, hlower cs hletters, hcs]
  cases b with
  | true => exact if_pos rfl
  | false => exact (if_neg (by decide)).trans (if_pos rfl)

end EzBakeCommon.Properties
