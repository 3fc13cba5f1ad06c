/-
  EzBakeCommon.Security.Tampering — what a cipher text shows and what it does not
  protect.

  The initial block is half of the digest the key is made of, so it is the same for
  every text under one password and salt: cipher texts agree for as many blocks as
  the padded texts do (`shared_blocks`).  Nothing in a cipher text vouches for it: if
  one block is replaced by any other, `decrypt` returns a text that differs in two
  blocks, in the second of them by the very bits that were changed, and the changed
  cipher text is the encryption of that text (`changed_block`).
-/
import EzBakeCommon.Security.Base64Bound
import EzBakeCommon.Security.Unpadding

namespace EzBakeCommon.Security

open Library

/-! ## §1. Shared blocks. -/

/-- DES makes the same of texts as far as they agree, and of nothing else. -/
theorem OpenSsl.Lawful.take_ncbc_eq_iff {ssl : OpenSsl} (hssl : ssl.Lawful)
    (schedule : ssl.Schedule) (ivec : DesBlock) {text text' : Bytes} (h8 : 8 ∣ text.length)
    (h8' : 8 ∣ text'.length) (n : ℕ) :
    (ssl.ncbcEncrypt text schedule ivec true).take (8 * n)
        = (ssl.ncbcEncrypt text' schedule ivec true).take (8 * n) ↔
      text.take (8 * n) = text'.take (8 * n) := by
  have hinverts : Function.LeftInverse (ssl.ecbEncrypt · schedule false)
      (ssl.ecbEncrypt · schedule true) := hssl.ecb_inverts schedule
  rw [← Blocks.join_blocks h8, ← Blocks.join_blocks h8', hssl.ncbc_encrypt, hssl.ncbc_encrypt,
    Blocks.take_join_eq_iff (by decide), Blocks.take_join_eq_iff (by decide),
    Cbc.take_encrypt_eq_iff hinverts]

namespace PbeMd5AndDesEncryptor

variable {ssl : OpenSsl} {password salt : Bytes} {iterations : Int64}

theorem length_toEncrypt_lt {plaintext : Bytes} (h : plaintext.length < 2147483648 - 8) :
    (toEncrypt plaintext).length < 2147483648 := by
  rw [length_toEncrypt]
  omega

/-- Different texts are padded to different ones. -/
theorem toEncrypt_inj {plaintext plaintext' : Bytes}
    (hlt : (toEncrypt plaintext).length < 2147483648) :
    toEncrypt plaintext = toEncrypt plaintext' ↔ plaintext = plaintext' := by
  constructor
  · intro h
    have hlt' : (toEncrypt plaintext').length < 2147483648 := h ▸ hlt
    have hcut := unpad_toEncrypt hlt
    rw [h, unpad_toEncrypt hlt'] at hcut
    exact (Except.ok.inj hcut).symm
  · exact congrArg toEncrypt

section Key

variable (hssl : ssl.Lawful) {schedule : ssl.Schedule} {ivec : DesBlock}
  (hkey : generateKey ssl password salt iterations = .ok ⟨some schedule, ivec⟩)
include hssl hkey

/-- **Two cipher texts agree for as many blocks as the padded texts do**, and are the
same for the same text only. -/
theorem shared_blocks {limit : ℕ} (hreads : ssl.ReadsBack limit) (plaintext plaintext' : Bytes)
    (hlength : plaintext.length < 2147483648 - 8) (hlength' : plaintext'.length < 2147483648 - 8)
    (hfits : plaintext.length + 8 ≤ limit) (hfits' : plaintext'.length + 8 ≤ limit) :
    ∃ data data' : Bytes,
      encrypt ssl plaintext password salt iterations = .ok (Base64Util.encodeString ssl data) ∧
      encrypt ssl plaintext' password salt iterations = .ok (Base64Util.encodeString ssl data') ∧
      data.length = (toEncrypt plaintext).length ∧
      data'.length = (toEncrypt plaintext').length ∧
      (∀ n, data.take (8 * n) = data'.take (8 * n) ↔
        (toEncrypt plaintext).take (8 * n) = (toEncrypt plaintext').take (8 * n)) ∧
      (encrypt ssl plaintext password salt iterations
          = encrypt ssl plaintext' password salt iterations ↔ plaintext = plaintext') := by
  have hlt := length_toEncrypt_lt hlength
  have hlt' := length_toEncrypt_lt hlength'
  obtain ⟨hpos, h8⟩ := wholeBlocks_toEncrypt plaintext
  obtain ⟨hpos', h8'⟩ := wholeBlocks_toEncrypt plaintext'
  have hdata := hssl.length_ncbc schedule ivec h8 true
  have hdata' := hssl.length_ncbc schedule ivec h8' true
  have hblocks := hssl.take_ncbc_eq_iff schedule ivec h8 h8'
  refine ⟨_, _, encrypt_eq hssl hkey hlt, encrypt_eq hssl hkey hlt', hdata, hdata', hblocks, ?_⟩
  rw [encrypt_eq hssl hkey hlt, encrypt_eq hssl hkey hlt']
  constructor
  · intro h
    have hpadded := length_toEncrypt plaintext
    have hpadded' := length_toEncrypt plaintext'
    have hsame := Base64Util.encodeString_injective hreads
      (List.ne_nil_of_length_pos (by rw [hdata]; exact hpos))
      (List.ne_nil_of_length_pos (by rw [hdata']; exact hpos')) (by omega) (by omega)
      (by rw [hdata]; exact hlt) (by rw [hdata']; exact hlt') (Except.ok.inj h)
    refine (toEncrypt_inj hlt).mp ?_
    rw [← hssl.decrypt_encrypt schedule ivec h8, hsame, hssl.decrypt_encrypt schedule ivec h8']
  · intro h
    rw [h]

end Key

/-! ## §2. Changed blocks. -/

/-- Texts of the same length are padded with the same marks. -/
theorem toEncrypt_marks (plaintext : Bytes) :
    ∃ marks : Bytes, marks.length ≤ 8 ∧
      ∀ text : Bytes, text.length = plaintext.length → toEncrypt text = text ++ marks := by
  refine ⟨List.replicate (Blocks.missing 8 plaintext) (mark (Blocks.missing 8 plaintext)), ?_, ?_⟩
  · rw [List.length_replicate]
    exact Blocks.missing_le
  · intro text hlength
    have hmissing : Blocks.missing 8 text = Blocks.missing 8 plaintext := by
      unfold Blocks.missing
      rw [hlength]
    rw [toEncrypt_eq, ← hmissing]
    rfl

/-- Marks at the end of a text that are no more than the last part of it are at the end
of that part. -/
theorem marks_in_tail {plaintext marks front tail : Bytes}
    (h : plaintext ++ marks = front ++ tail) (hle : marks.length ≤ tail.length) :
    ∃ rest, tail = rest ++ marks ∧ plaintext = front ++ rest := by
  rcases List.append_eq_append_iff.mp h with ⟨rest, hfront, hmarks⟩ | ⟨rest, hplain, htail⟩
  · -- the marks would be longer
    have hlengths := congrArg List.length hmarks
    rw [List.length_append] at hlengths
    obtain rfl : rest = [] := List.length_eq_zero_iff.mp (by omega)
    refine ⟨[], hmarks.symm, ?_⟩
    rw [hfront, List.append_nil, List.append_nil]
  · exact ⟨rest, htail, hplain⟩

section Key

variable (hssl : ssl.Lawful) {schedule : ssl.Schedule} {ivec : DesBlock}
  (hkey : generateKey ssl password salt iterations = .ok ⟨some schedule, ivec⟩)
include hssl hkey

/-- **A changed block is accepted.**  Replace a block of a cipher text, not one of the
last two, by any other: the result is the cipher text of a text that differs from the
first one in two blocks, the second of which is changed bit by bit as the block was. -/
theorem changed_block {limit : ℕ} (hwrites : Base64Util.WritesFourForThree ssl limit)
    (hreads : ssl.ReadsBack limit) (plaintext : Bytes)
    (hlength : plaintext.length ≤ 1610612733 - 8) (hfits : plaintext.length + 8 ≤ limit)
    {sent : Bytes}
    (hsent : encrypt ssl plaintext password salt iterations = .ok sent)
    {before after : List DesBlock} {x next : DesBlock} (hafter : after ≠ [])
    (hdata : Base64Util.decodeString ssl sent
      = .ok (Blocks.join (before ++ x :: next :: after))) (y : DesBlock) :
    ∃ (head tail : Bytes) (old new followed : DesBlock), head.length = 8 * before.length ∧
      plaintext = head ++ old.toList ++ followed.toList ++ tail ∧
      encrypt ssl (head ++ new.toList ++ (followed ^^^ (x ^^^ y)).toList ++ tail) password salt
          iterations
        = .ok (Base64Util.encodeString ssl (Blocks.join (before ++ y :: next :: after))) ∧
      decrypt ssl (Base64Util.encodeString ssl (Blocks.join (before ++ y :: next :: after)))
          password salt iterations
        = .ok (head ++ new.toList ++ (followed ^^^ (x ^^^ y)).toList ++ tail) := by
  have hlt : (toEncrypt plaintext).length < 2147483648 := length_toEncrypt_lt (by omega)
  have h8 : 8 ∣ (toEncrypt plaintext).length := ⟨_, length_toEncrypt plaintext⟩
  have hbase64 : ∀ data : Bytes, data.length = (toEncrypt plaintext).length →
      Base64Util.decodeString ssl (Base64Util.encodeString ssl data) = .ok data := by
    intro data hdata
    have hpadded := length_toEncrypt plaintext
    rw [Base64Util.decodeString_encodeString hwrites hreads (by omega) (by omega),
      if_pos (by omega)]
  -- what was sent is the encryption of the padded text
  have hcipher : ssl.ncbcEncrypt (toEncrypt plaintext) schedule ivec true
      = Blocks.join (before ++ x :: next :: after) := by
    obtain rfl := Except.ok.inj ((encrypt_eq hssl hkey hlt).symm.trans hsent)
    rw [hbase64 _ (hssl.length_ncbc schedule ivec h8 true)] at hdata
    exact Except.ok.inj hdata
  have hcount : 8 * (before ++ x :: next :: after).length = (toEncrypt plaintext).length := by
    rw [← Blocks.length_join, ← hcipher, hssl.length_ncbc schedule ivec h8 true]
  have hreceived : (Blocks.join (before ++ y :: next :: after)).length
      = (toEncrypt plaintext).length := by
    rw [Blocks.length_join, ← hcount, List.length_append, List.length_append]
    rfl
  obtain ⟨head, old, new, followed, tail, hhead, htail, hold, hnew⟩ :=
    Cbc.decrypt_changed (ssl.ecbEncrypt · schedule false) ivec before after x y next
  -- the padded text in parts; the marks are in the last of them
  have hparts : toEncrypt plaintext
      = Blocks.join head ++ old.toList ++ followed.toList ++ Blocks.join tail := by
    rw [← hssl.decrypt_encrypt schedule ivec h8, hcipher, hssl.ncbc_decrypt, hold,
      Blocks.join_append]
    simp
  have htailLength : 8 ≤ (Blocks.join tail).length := by
    have hpos := List.length_pos_iff.mpr hafter
    rw [Blocks.length_join, htail]
    omega
  obtain ⟨marks, hmarks, hpad⟩ := toEncrypt_marks plaintext
  obtain ⟨rest, hrest, hplain⟩ := marks_in_tail ((hpad plaintext rfl).symm.trans hparts)
    (Nat.le_trans hmarks htailLength)
  -- the changed text is padded to what the changed blocks are decrypted to
  have hsame : (Blocks.join head ++ new.toList ++ (followed ^^^ (x ^^^ y)).toList ++ rest).length
      = plaintext.length := by
    rw [hplain]
    simp
  have hchanged : toEncrypt (Blocks.join head ++ new.toList ++ (followed ^^^ (x ^^^ y)).toList
        ++ rest)
      = ssl.ncbcEncrypt (Blocks.join (before ++ y :: next :: after)) schedule ivec false := by
    rw [hpad _ hsame, hssl.ncbc_decrypt, hnew, Blocks.join_append, Blocks.join_cons,
      Blocks.join_cons, hrest]
    simp
  have h8' : 8 ∣ (Blocks.join (before ++ y :: next :: after)).length := by
    rw [hreceived]
    exact h8
  have hlt' : (toEncrypt (Blocks.join head ++ new.toList ++ (followed ^^^ (x ^^^ y)).toList
      ++ rest)).length < 2147483648 := by
    rw [hchanged, hssl.length_ncbc schedule ivec h8' false, hreceived]
    exact hlt
  refine ⟨Blocks.join head, rest, old, new, followed, ?_, hplain, ?_, ?_⟩
  · rw [Blocks.length_join, hhead]
  · rw [encrypt_eq hssl hkey hlt', hchanged, hssl.encrypt_decrypt schedule ivec h8']
  · have hcut := unpad_toEncrypt hlt'
    rw [hchanged, hssl.length_ncbc schedule ivec h8' false] at hcut
    rw [decrypt_eq hkey (hbase64 _ hreceived) h8', hcut]

end Key

/-! ## §3. Three blocks. -/

/-- The key after one iteration. -/
theorem generateKey_once {password salt : Bytes} {result : Digest} (hsalt : 8 ≤ salt.length)
    (hdigest : ssl.digest (password ++ salt.take algoBlockSize) = some result) :
    generateKey ssl password salt 1 = .ok
      ⟨ssl.setKeyChecked (ssl.setOddParity (copy result 0 (Nat.zero_le _))),
        copy result algoBlockSize (le_refl _)⟩ := by
  have hrehash : rehash ssl 1 result = .ok result := by
    unfold rehash
    rw [dif_pos (by decide)]
  have hhash : generateDataHash ssl password salt 1 = .ok result := by
    have henough : ¬ salt.length < algoBlockSize := Nat.not_lt.mpr hsalt
    unfold generateDataHash
    rw [if_neg henough, hdigest]
    exact hrehash
  unfold generateKey
  rw [hhash, returns_bind]
  rfl

/-- The cipher text of `"AAAAAAAABBBBBBBBhi"`. -/
def firstBlock : DesBlock := desBlock 151 30 92 37 64 178 73 183

def secondBlock : DesBlock := desBlock 77 135 86 187 212 94 193 254

def lastBlock : DesBlock := desBlock 200 78 137 140 78 186 122 123

/-- The first block, with one bit changed. -/
def changedBlock : DesBlock := desBlock 151 30 92 37 64 178 73 182

/-- These blocks under the key of the sample, and the second one of `"AAAAAAAAho"`. -/
def threeBlocks : Tables where
  digests := sample.digests
  memory := sample.memory
  blocks :=
    [(sampleKey, desBlock 64 114 63 210 239 68 48 3, firstBlock),
      (sampleKey, desBlock 213 92 30 103 2 240 11 245, secondBlock),
      (sampleKey, desBlock 37 238 80 189 210 88 199 248, lastBlock),
      (sampleKey, desBlock 255 113 90 35 70 180 79 177, desBlock 206 117 36 107 122 197 1 60),
      (sampleKey, desBlock 119 222 81 114 111 155 113 111, changedBlock)]

theorem threeBlocks_generateKey :
    generateKey threeBlocks.tabulated samplePassword SharedSecretTextCryptoProvider.salt 1
      = .ok ⟨some sampleKey, sampleIvec⟩ := by
  have hdigest : threeBlocks.tabulated.digest (samplePassword
      ++ SharedSecretTextCryptoProvider.salt.take algoBlockSize) = some sampleDigest := rfl
  have hparity : (copy sampleDigest 0 (Nat.zero_le _)).map oddParity = sampleKey := by decide
  have hodd : threeBlocks.tabulated.setOddParity (copy sampleDigest 0 (Nat.zero_le _))
      = sampleKey := hparity
  have haccepted : threeBlocks.tabulated.setKeyChecked sampleKey = some sampleKey :=
    threeBlocks.setKeyChecked_strong (by decide)
  rw [generateKey_once (by decide) hdigest, hodd, haccepted]
  rfl

/-- `"AAAAAAAABBBBBBBBhi"` -/
def longText : Bytes :=
  [65, 65, 65, 65, 65, 65, 65, 65, 66, 66, 66, 66, 66, 66, 66, 66, 104, 105]

/-- `"AAAAAAAAho"` -/
def shortText : Bytes := [65, 65, 65, 65, 65, 65, 65, 65, 104, 111]

/-- Two texts that begin with the same block. -/
theorem shared_first_block :
    ∃ data data' : Bytes,
      encrypt threeBlocks.tabulated longText samplePassword SharedSecretTextCryptoProvider.salt 1
        = .ok (Base64Util.encodeString threeBlocks.tabulated data) ∧
      encrypt threeBlocks.tabulated shortText samplePassword SharedSecretTextCryptoProvider.salt 1
        = .ok (Base64Util.encodeString threeBlocks.tabulated data') ∧
      data.length = (toEncrypt longText).length ∧ data'.length = (toEncrypt shortText).length ∧
      (∀ n, data.take (8 * n) = data'.take (8 * n) ↔
        (toEncrypt longText).take (8 * n) = (toEncrypt shortText).take (8 * n)) ∧
      (encrypt threeBlocks.tabulated longText samplePassword
            SharedSecretTextCryptoProvider.salt 1
          = encrypt threeBlocks.tabulated shortText samplePassword
              SharedSecretTextCryptoProvider.salt 1 ↔ longText = shortText) :=
  shared_blocks threeBlocks.tabulated_lawful threeBlocks_generateKey
    threeBlocks.tabulated_readsBack longText shortText (by decide) (by decide) (by decide)
    (by decide)

theorem longText_blocks :
    threeBlocks.tabulated.ncbcEncrypt (toEncrypt longText) sampleKey sampleIvec true
      = Blocks.join [firstBlock, secondBlock, lastBlock] := by
  show threeBlocks.ncbc (toEncrypt longText) sampleKey sampleIvec true = _
  decide

/-- One bit of the first block is changed: the text that comes back ends in `"BBBBBBBChi"`. -/
theorem changed_first_block :
    ∃ (head tail : Bytes) (old new followed : DesBlock), head.length = 8 * 0 ∧
      longText = head ++ old.toList ++ followed.toList ++ tail ∧
      encrypt threeBlocks.tabulated
          (head ++ new.toList ++ (followed ^^^ (firstBlock ^^^ changedBlock)).toList ++ tail)
          samplePassword SharedSecretTextCryptoProvider.salt 1
        = .ok (Base64Util.encodeString threeBlocks.tabulated
            (Blocks.join [changedBlock, secondBlock, lastBlock])) ∧
      decrypt threeBlocks.tabulated (Base64Util.encodeString threeBlocks.tabulated
            (Blocks.join [changedBlock, secondBlock, lastBlock]))
          samplePassword SharedSecretTextCryptoProvider.salt 1
        = .ok (head ++ new.toList ++ (followed ^^^ (firstBlock ^^^ changedBlock)).toList
            ++ tail) := by
  have hwrites := Base64Util.tabulated_writesFourForThree threeBlocks
  have hlt : (toEncrypt longText).length < 2147483648 := by decide
  have hsent : encrypt threeBlocks.tabulated longText samplePassword
      SharedSecretTextCryptoProvider.salt 1
        = .ok (Base64Util.encodeString threeBlocks.tabulated
            (Blocks.join [firstBlock, secondBlock, lastBlock])) := by
    rw [encrypt_eq threeBlocks.tabulated_lawful threeBlocks_generateKey hlt, longText_blocks]
  have hdata : Base64Util.decodeString threeBlocks.tabulated
      (Base64Util.encodeString threeBlocks.tabulated
        (Blocks.join [firstBlock, secondBlock, lastBlock]))
      = .ok (Blocks.join ([] ++ firstBlock :: secondBlock :: [lastBlock])) :=
    (Base64Util.decodeString_encodeString hwrites threeBlocks.tabulated_readsBack (by decide)
      (by decide)).trans (if_pos (by decide))
  exact changed_block threeBlocks.tabulated_lawful threeBlocks_generateKey hwrites
    threeBlocks.tabulated_readsBack longText (by decide) (by decide) hsent (List.cons_ne_nil _ _)
    hdata changedBlock

end PbeMd5AndDesEncryptor

end EzBakeCommon.Security
