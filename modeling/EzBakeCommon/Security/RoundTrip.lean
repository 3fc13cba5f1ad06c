/-
  EzBakeCommon.Security.RoundTrip — decrypt gives back what encrypt was given.

  Every step of `decrypt` undoes one of `encrypt`: base64, the chained blocks
  under the same key, and the padding, whose last character is the number of
  characters appended.  The lengths stay in the range of `int`, so the
  conversions change nothing (`text_round_trip`).
-/
import EzBakeCommon.Security.PbeMd5AndDesEncryptor
import EzBakeCommon.Security.Tabulated

namespace EzBakeCommon.Security.PbeMd5AndDesEncryptor

open Library

variable {ssl : OpenSsl} {password salt plaintext : Bytes} {iterations : Int64}

/-! ## §1. Each way. -/

section Ways

variable (hssl : ssl.Lawful) {schedule : ssl.Schedule} {ivec : DesBlock}
  (hkey : generateKey ssl password salt iterations = .ok ⟨some schedule, ivec⟩)
include hssl hkey

/-- **What encrypt returns** where the padded text has an `int` for a length. -/
theorem encrypt_eq (hlt : (toEncrypt plaintext).length < 2147483648) :
    encrypt ssl plaintext password salt iterations = .ok
      (Base64Util.encodeString ssl (ssl.ncbcEncrypt (toEncrypt plaintext) schedule ivec true)) := by
  have h8 : 8 ∣ (toEncrypt plaintext).length := ⟨_, length_toEncrypt plaintext⟩
  rw [encrypt_of_key hkey, desNcbcEncrypt_whole h8 hlt, returns_bind,
    ← hssl.length_ncbc schedule ivec h8 true]
  rfl

omit hssl in
/-- There is no buffer for a padded text whose length is negative as an `int`. -/
theorem encrypt_negative (hneg : staticCastInt (toEncrypt plaintext).length < 0) :
    encrypt ssl plaintext password salt iterations = .error .undefined := by
  rw [encrypt_of_key hkey, desNcbcEncrypt_negative hneg, stops_bind]

omit hssl in
/-- **What decrypt returns** for a text that decodes to whole blocks. -/
theorem decrypt_eq {encryptedtext data : Bytes}
    (hdata : Base64Util.decodeString ssl encryptedtext = .ok data) (h8 : 8 ∣ data.length) :
    decrypt ssl encryptedtext password salt iterations =
      unpad (ssl.ncbcEncrypt data schedule ivec false) data.length := by
  have hlt := Base64Util.length_decodeString_lt hdata
  rw [decrypt_of_key hkey hdata, desNcbcEncrypt_whole h8 hlt, returns_bind,
    staticCastInt_of_lt hlt]

end Ways

/-- A schedule that has never been set is used all the same. -/
theorem decrypt_unset {ivec : DesBlock} {encryptedtext data : Bytes}
    (hkey : generateKey ssl password salt iterations = .ok ⟨none, ivec⟩)
    (hdata : Base64Util.decodeString ssl encryptedtext = .ok data) :
    decrypt ssl encryptedtext password salt iterations = .error .undefined := by
  rw [decrypt_of_key hkey hdata, desNcbcEncrypt_unset, stops_bind]

/-- **The padding is cut off again.** -/
theorem unpad_toEncrypt (hlt : (toEncrypt plaintext).length < 2147483648) :
    unpad (toEncrypt plaintext) (toEncrypt plaintext).length = .ok plaintext := by
  -- the last character of the text is the last of the marks
  obtain ⟨m, hm⟩ : ∃ m, Blocks.missing 8 plaintext = m + 1 :=
    Nat.exists_eq_add_one.mpr (Blocks.missing_pos (by decide))
  have hle : m + 1 ≤ 8 := by
    rw [← hm]
    exact Blocks.missing_le
  have htext : toEncrypt plaintext
      = (plaintext ++ List.replicate m (mark (m + 1))) ++ [mark (m + 1)] := by
    rw [toEncrypt_eq]
    unfold Blocks.pad
    rw [hm, List.replicate_succ', List.append_assoc]
  have hlen : (toEncrypt plaintext).length = plaintext.length + (m + 1) := by
    rw [htext]
    simp
  rw [htext] at hlt hlen ⊢
  rw [unpad_concat _ _ hlt, charToInt_mark hle, if_pos (by omega), Int.toNat_natCast, hlen,
    Nat.add_sub_cancel, List.append_assoc]
  exact congrArg Except.ok List.take_left

/-! ## §2. There and back. -/

/-- What is handed to DES: at least one block, and only whole ones. -/
def WholeBlocks (text : Bytes) : Prop := 0 < text.length ∧ 8 ∣ text.length

theorem wholeBlocks_toEncrypt (plaintext : Bytes) : WholeBlocks (toEncrypt plaintext) := by
  rw [WholeBlocks, length_toEncrypt]
  exact ⟨by omega, Nat.dvd_mul_right 8 _⟩

/-- **Every text comes back**, whatever its length and content, the password and
the number of iterations; DES is handed whole blocks on either way. -/
theorem text_round_trip (ssl : OpenSsl) (hssl : ssl.Lawful) (plaintext password salt : Bytes)
    (iterations : Int64) (hlength : plaintext.length < 2147483648 - 8) (hsalt : 8 ≤ salt.length)
    (haccepted : ∀ key, generateKey ssl password salt iterations = .ok key →
      key.schedule.isSome = true)
    (hbase64 : ∀ data : Bytes, data.length = (toEncrypt plaintext).length →
      Base64Util.decodeString ssl (Base64Util.encodeString ssl data) = .ok data) :
    WholeBlocks (toEncrypt plaintext) ∧
    ∃ encryptedtext data, encrypt ssl plaintext password salt iterations = .ok encryptedtext ∧
      Base64Util.decodeString ssl encryptedtext = .ok data ∧ WholeBlocks data ∧
      decrypt ssl encryptedtext password salt iterations = .ok plaintext := by
  have hwhole := wholeBlocks_toEncrypt plaintext
  have hlt : (toEncrypt plaintext).length < 2147483648 := by
    rw [length_toEncrypt]
    omega
  obtain ⟨⟨schedule?, ivec⟩, hkey⟩ := generateKey_returns hssl password hsalt iterations
  obtain ⟨schedule, rfl⟩ := Option.isSome_iff_exists.mp (haccepted _ hkey)
  have hdata : (ssl.ncbcEncrypt (toEncrypt plaintext) schedule ivec true).length
      = (toEncrypt plaintext).length := hssl.length_ncbc schedule ivec hwhole.2 true
  have hdecode := hbase64 _ hdata
  refine ⟨hwhole, _, _, encrypt_eq hssl hkey hlt, hdecode, ?_, ?_⟩
  · rw [WholeBlocks, hdata]
    exact hwhole
  · rw [decrypt_eq hkey hdecode (by rw [hdata]; exact hwhole.2),
      hssl.decrypt_encrypt schedule ivec hwhole.2, hdata]
    exact unpad_toEncrypt hlt

/-! ## §3. One password. -/

/-- The key of the sample, after one iteration. -/
theorem sample_generateKey :
    generateKey sample.tabulated samplePassword SharedSecretTextCryptoProvider.salt 1
      = .ok ⟨some sampleKey, sampleIvec⟩ := by
  have hrehash : rehash sample.tabulated 1 sampleDigest = .ok sampleDigest := by
    unfold rehash
    rw [dif_pos (by decide)]
  have hhash : generateDataHash sample.tabulated samplePassword
      SharedSecretTextCryptoProvider.salt 1 = .ok sampleDigest := hrehash
  have hparity : (copy sampleDigest 0 (Nat.zero_le _)).map oddParity = sampleKey := by decide
  have hodd : sample.tabulated.setOddParity (copy sampleDigest 0 (Nat.zero_le _)) = sampleKey :=
    hparity
  have haccepted : sample.tabulated.setKeyChecked sampleKey = some sampleKey :=
    sample.setKeyChecked_strong (by decide)
  unfold generateKey
  rw [hhash, returns_bind]
  show Except.ok (PbeMd5AndDesKey.mk (sample.tabulated.setKeyChecked
    (sample.tabulated.setOddParity (copy sampleDigest 0 _))) _) = _
  rw [hodd, haccepted]
  rfl

/-- What is written of at most a block is read back. -/
theorem sample_read {data : Bytes} (hne : data ≠ []) (hle : data.length ≤ 8) :
    Base64Util.decodeString sample.tabulated (Base64Util.encodeString sample.tabulated data)
      = .ok data := by
  have hreads : sample.tabulated.ReadsBack data.length :=
    sample.tabulated_readsBack.mono (Nat.le_trans hle (by decide))
  refine Base64Util.decode_encode hreads hne (by omega) ?_
  show (Base64.encode (data.take sample.memory)).length < _
  rw [Base64.length_encode]
  have htake := List.length_take_le' sample.memory data
  omega

/-- `"hi"`, padded with six characters, goes to `"GiQwqoRNl4o="` and comes back. -/
theorem round_trip_of_one_block :
    WholeBlocks (toEncrypt [104, 105]) ∧
    ∃ encryptedtext data, encrypt sample.tabulated [104, 105] samplePassword
        SharedSecretTextCryptoProvider.salt 1 = .ok encryptedtext ∧
      Base64Util.decodeString sample.tabulated encryptedtext = .ok data ∧ WholeBlocks data ∧
      decrypt sample.tabulated encryptedtext samplePassword
        SharedSecretTextCryptoProvider.salt 1 = .ok [104, 105] := by
  refine text_round_trip sample.tabulated sample.tabulated_lawful [104, 105] samplePassword
    SharedSecretTextCryptoProvider.salt 1 (by decide) (by decide) ?_ ?_
  · intro key hkey
    obtain rfl := Except.ok.inj (sample_generateKey.symm.trans hkey)
    rfl
  · intro data hdata
    have hlength : data.length = 8 := hdata.trans (by decide)
    exact sample_read (List.ne_nil_of_length_pos (by omega)) (by omega)

end EzBakeCommon.Security.PbeMd5AndDesEncryptor
