/-
  EzBakeCommon.Security.HostileInput — decrypt on whatever it is given.

  The caller decides to how many bytes the text decodes and what the last one of
  them decrypts to.  `decrypt` checks neither: it hands DES any number of bytes,
  looks at the last character also where there is none, and asks for as many
  characters as it takes away from the length, a signed number.  So it stays in
  bounds exactly on texts that cannot be decoded and on whole blocks that end in a
  number of characters that are there (`decrypt_total_iff`).

  A text that cannot be decoded is one whose length is negative as an `int`, or one
  for which the filter returns a negative number.  Of a malformed text OpenSSL returns
  what it has decoded, if only nothing, so `decode` does not throw for it.  Digests
  are taken to succeed.
-/
import EzBakeCommon.Security.Unpadding

namespace EzBakeCommon.Security.PbeMd5AndDesEncryptor

open Library

variable {ssl : OpenSsl} {password salt : Bytes} {iterations : Int64} {encryptedtext data : Bytes}

/-- `decrypt` throws, or hands DES a positive number of whole blocks, reads the pad
character inside the decrypted text, and passes `substr` a length between 0 and the
length of the text. -/
def TotalOn (ssl : OpenSsl) (encryptedtext password salt : Bytes) (iterations : Int64) : Prop :=
  (∃ ex, decrypt ssl encryptedtext password salt iterations = .error (.thrown ex)) ∨
  ∃ data key decrypted last,
    Base64Util.decodeString ssl encryptedtext = .ok data ∧
    generateKey ssl password salt iterations = .ok key ∧
    0 < staticCastInt data.length ∧ staticCastInt data.length % 8 = 0 ∧
    desNcbcEncrypt ssl data (staticCastInt data.length) key false = .ok decrypted ∧
    decrypted[(staticCastInt data.length - 1).toNat]? = some last ∧
    0 ≤ staticCastInt data.length - charToInt last ∧
    staticCastInt data.length - charToInt last ≤ decrypted.length

/-- The last character of the last block, decrypted under the schedule and mixed with
the block before it, or the initial one, is a number from 0 to the length of the text. -/
def PadInRange (ssl : OpenSsl) (schedule : ssl.Schedule) (ivec : DesBlock) (data : Bytes) : Prop :=
  ∃ (blocks : List DesBlock) (last : DesBlock), data = Blocks.join (blocks ++ [last]) ∧
    0 ≤ charToInt ((ssl.ecbEncrypt last schedule false ^^^
      (ivec :: blocks).getLast (List.cons_ne_nil ivec blocks)).get 7) ∧
    charToInt ((ssl.ecbEncrypt last schedule false ^^^
      (ivec :: blocks).getLast (List.cons_ne_nil ivec blocks)).get 7) ≤ data.length

/-! ## §1. What can be thrown. -/

/-- Cutting off the padding throws nothing. -/
theorem unpad_not_thrown {decrypted : Bytes} {length : Int} {ex : CppException} :
    unpad decrypted length ≠ .error (.thrown ex) := by
  unfold unpad
  split
  next => exact nofun
  next =>
    split
    next => exact nofun
    next => exact nofun

/-- Nor does DES. -/
theorem desNcbcEncrypt_not_thrown {input : Bytes} {length : Int} {key : PbeMd5AndDesKey ssl}
    {enc : Bool} {ex : CppException} :
    desNcbcEncrypt ssl input length key enc ≠ .error (.thrown ex) := by
  unfold desNcbcEncrypt
  split
  next => exact nofun
  next =>
    split
    next => exact nofun
    next => exact nofun

/-- So once the text is decoded and the key generated, nothing is thrown any more. -/
theorem decrypt_not_thrown {key : PbeMd5AndDesKey ssl} {ex : CppException}
    (hkey : generateKey ssl password salt iterations = .ok key)
    (hdata : Base64Util.decodeString ssl encryptedtext = .ok data) :
    decrypt ssl encryptedtext password salt iterations ≠ .error (.thrown ex) := by
  rw [decrypt_of_key hkey hdata]
  cases hdes : desNcbcEncrypt ssl data (staticCastInt data.length) key false with
  | ok decrypted =>
      rw [returns_bind]
      exact unpad_not_thrown
  | error stop =>
      intro h
      have hstop : stop = .thrown ex := Except.error.inj h
      rw [hstop] at hdes
      exact desNcbcEncrypt_not_thrown hdes

/-! ## §2. The last character. -/

section Last

variable (hssl : ssl.Lawful) (schedule : ssl.Schedule) (ivec : DesBlock)
include hssl

/-- **The last character of the decrypted text** is that of its last block. -/
theorem last_decrypted {blocks : List DesBlock} {last : DesBlock}
    (hdata : data = Blocks.join (blocks ++ [last])) :
    (ssl.ncbcEncrypt data schedule ivec false)[data.length - 1]?
      = some ((ssl.ecbEncrypt last schedule false ^^^
          (ivec :: blocks).getLast (List.cons_ne_nil ivec blocks)).get 7) := by
  have hlength : data.length = (ssl.ncbcEncrypt data schedule ivec false).length := by
    refine (hssl.length_ncbc schedule ivec ?_ false).symm
    rw [hdata, Blocks.length_join]
    exact Nat.dvd_mul_right 8 _
  rw [hlength, hdata, hssl.ncbc_decrypt, Cbc.decrypt_concat]
  exact Blocks.last_join_concat _ _

/-- Where there is a block there is a last character, and it is the pad. -/
theorem padInRange_iff (hne : data ≠ []) (h8 : 8 ∣ data.length) :
    ∃ last, (ssl.ncbcEncrypt data schedule ivec false)[data.length - 1]? = some last ∧
      (PadInRange ssl schedule ivec data ↔
        0 ≤ charToInt last ∧ charToInt last ≤ data.length) := by
  obtain ⟨blocks, last, hdata⟩ := Blocks.exists_concat h8 hne
  have hlast := last_decrypted hssl schedule ivec hdata
  refine ⟨_, hlast, ?_⟩
  constructor
  · intro h
    obtain ⟨blocks', last', hdata', hrange⟩ := h
    have hsame := (last_decrypted hssl schedule ivec hdata').symm.trans hlast
    rw [Option.some.inj hsame] at hrange
    exact hrange
  · intro h
    exact ⟨blocks, last, hdata, h⟩

end Last

/-! ## §3. When decrypt stays in bounds. -/

section Decoded

variable (hdata : Base64Util.decodeString ssl encryptedtext = .ok data)
include hdata

/-- Without a schedule DES does not come back with a text. -/
theorem not_totalOn_unset {ivec : DesBlock}
    (hkey : generateKey ssl password salt iterations = .ok ⟨none, ivec⟩) :
    ¬ TotalOn ssl encryptedtext password salt iterations := by
  intro h
  obtain ⟨ex, hthrown⟩ | ⟨data', key', decrypted, -, -, hkey', -, -, hdes, -⟩ := h
  · exact decrypt_not_thrown hkey hdata hthrown
  · obtain rfl := Except.ok.inj (hkey.symm.trans hkey')
    rw [desNcbcEncrypt_unset] at hdes
    exact absurd hdes nofun

/-- **With one, the bytes have to be whole blocks and the pad in range.** -/
theorem totalOn_iff_of_key (hssl : ssl.Lawful) {schedule : ssl.Schedule} {ivec : DesBlock}
    (hkey : generateKey ssl password salt iterations = .ok ⟨some schedule, ivec⟩) :
    TotalOn ssl encryptedtext password salt iterations ↔
      data ≠ [] ∧ 8 ∣ data.length ∧ PadInRange ssl schedule ivec data := by
  have hlt := Base64Util.length_decodeString_lt hdata
  have hint := staticCastInt_of_lt hlt
  have hindex : ((data.length : Int) - 1).toNat = data.length - 1 := by omega
  constructor
  · intro h
    obtain ⟨ex, hthrown⟩ | ⟨data', key', decrypted, last, hdata', hkey', hpos, hmod, hdes, hlast,
      hlow, hhigh⟩ := h
    · exact absurd hthrown (decrypt_not_thrown hkey hdata)
    · obtain rfl := Except.ok.inj (hdata.symm.trans hdata')
      obtain rfl := Except.ok.inj (hkey.symm.trans hkey')
      rw [hint] at hpos hmod hlast hlow hhigh
      have hne : data ≠ [] := List.ne_nil_of_length_pos (by omega)
      have h8 : 8 ∣ data.length := by omega
      obtain rfl := Except.ok.inj ((desNcbcEncrypt_whole h8 hlt).symm.trans hdes)
      rw [hssl.length_ncbc schedule ivec h8 false] at hhigh
      rw [hindex] at hlast
      obtain ⟨last', hlast', hrange⟩ := padInRange_iff hssl schedule ivec hne h8
      obtain rfl := Option.some.inj (hlast.symm.trans hlast')
      refine ⟨hne, h8, hrange.mpr ⟨?_, ?_⟩⟩
      · omega
      · omega
  · intro h
    obtain ⟨hne, h8, hpad⟩ := h
    have hpos := List.length_pos_iff.mpr hne
    obtain ⟨last, hlast, hrange⟩ := padInRange_iff hssl schedule ivec hne h8
    obtain ⟨hlow, hhigh⟩ := hrange.mp hpad
    have hlength := hssl.length_ncbc schedule ivec h8 false
    refine Or.inr ⟨data, _, _, last, hdata, hkey, ?_, ?_, desNcbcEncrypt_whole h8 hlt, ?_, ?_, ?_⟩
    · rw [hint]
      omega
    · rw [hint]
      omega
    · rw [hint, hindex]
      exact hlast
    · rw [hint]
      omega
    · rw [hint, hlength]
      omega

end Decoded

/-- **decrypt stays in bounds if and only if** the text cannot be decoded, or the key is
accepted and the text decodes to at least one block, only whole ones, the last of which
ends in a number of characters that are there. -/
theorem decrypt_total_iff (ssl : OpenSsl) (hssl : ssl.Lawful)
    (encryptedtext password salt : Bytes) (iterations : Int64) (hsalt : 8 ≤ salt.length) :
    TotalOn ssl encryptedtext password salt iterations ↔
      (∃ ex, Base64Util.decodeString ssl encryptedtext = .error (.thrown ex)) ∨
      ∃ data schedule ivec, Base64Util.decodeString ssl encryptedtext = .ok data ∧
        generateKey ssl password salt iterations = .ok ⟨some schedule, ivec⟩ ∧
        data ≠ [] ∧ 8 ∣ data.length ∧ PadInRange ssl schedule ivec data := by
  cases hdata : Base64Util.decodeString ssl encryptedtext with
  | error stop =>
      obtain ⟨ex, rfl⟩ := Base64Util.decodeString_throws hdata
      refine iff_of_true (Or.inl ⟨ex, ?_⟩) (Or.inl ⟨ex, rfl⟩)
      show (Base64Util.decodeString ssl encryptedtext >>= _) = _
      rw [hdata, stops_bind]
  | ok data =>
      obtain ⟨⟨schedule?, ivec⟩, hkey⟩ := generateKey_returns hssl password hsalt iterations
      cases schedule? with
      | none =>
          refine iff_of_false (not_totalOn_unset hdata hkey) ?_
          intro h
          obtain ⟨ex, hthrown⟩ | ⟨data', schedule, ivec', -, hkey', -⟩ := h
          · exact absurd hthrown nofun
          · exact absurd (hkey.symm.trans hkey') (by simp)
      | some schedule =>
          rw [totalOn_iff_of_key hdata hssl hkey]
          constructor
          · intro h
            exact Or.inr ⟨data, schedule, ivec, rfl, hkey, h⟩
          · intro h
            obtain ⟨ex, hthrown⟩ | ⟨data', schedule', ivec', hdata', hkey', hbounds⟩ := h
            · exact absurd hthrown nofun
            · obtain rfl := Except.ok.inj hdata'
              obtain ⟨rfl, rfl⟩ := key_unique hkey hkey'
              exact hbounds

/-- A cipher text of `"hi"`: one block, of which six characters are cut off. -/
theorem one_block_in_bounds :
    TotalOn sample.tabulated
      (Base64Util.encodeString sample.tabulated [26, 36, 48, 170, 132, 77, 151, 138])
      samplePassword SharedSecretTextCryptoProvider.salt 1 := by
  have hread := @sample_read [26, 36, 48, 170, 132, 77, 151, 138] (by decide) (by decide)
  refine (decrypt_total_iff sample.tabulated sample.tabulated_lawful _ samplePassword
    SharedSecretTextCryptoProvider.salt 1 (by decide)).mpr (Or.inr ?_)
  refine ⟨_, sampleKey, sampleIvec, hread, sample_generateKey, by decide, by decide, [],
    desBlock 26 36 48 170 132 77 151 138, rfl, ?_⟩
  decide

/-- The empty text decodes to no block, `"YQ=="` to one byte, and the last one to
`"AAAAAAAA"`, which has no 65 characters to be cut off. -/
theorem out_of_bounds :
    ¬ TotalOn sample.tabulated [] samplePassword SharedSecretTextCryptoProvider.salt 1 ∧
    ¬ TotalOn sample.tabulated (Base64Util.encodeString sample.tabulated [97])
      samplePassword SharedSecretTextCryptoProvider.salt 1 ∧
    ¬ TotalOn sample.tabulated
      (Base64Util.encodeString sample.tabulated [151, 30, 92, 37, 64, 178, 73, 183])
      samplePassword SharedSecretTextCryptoProvider.salt 1 := by
  have hempty : Base64Util.decodeString sample.tabulated [] = .ok [] := rfl
  have hbyte := @sample_read [97] (by decide) (by decide)
  have hblock := @sample_read [151, 30, 92, 37, 64, 178, 73, 183] (by decide) (by decide)
  rw [totalOn_iff_of_key hempty sample.tabulated_lawful sample_generateKey,
    totalOn_iff_of_key hbyte sample.tabulated_lawful sample_generateKey,
    totalOn_iff_of_key hblock sample.tabulated_lawful sample_generateKey]
  refine ⟨?_, ?_, ?_⟩
  · intro h
    exact h.1 rfl
  · intro h
    exact absurd h.2.1 (by decide)
  · intro h
    obtain ⟨-, -, hpad⟩ := h
    have hne : ([151, 30, 92, 37, 64, 178, 73, 183] : Bytes) ≠ [] := by decide
    obtain ⟨last, hlast, hrange⟩ := padInRange_iff sample.tabulated_lawful sampleKey sampleIvec
      hne (by decide)
    rw [sample_unpadded] at hlast
    obtain rfl := Option.some.inj hlast
    exact absurd (hrange.mp hpad).2 (by decide)

end EzBakeCommon.Security.PbeMd5AndDesEncryptor
