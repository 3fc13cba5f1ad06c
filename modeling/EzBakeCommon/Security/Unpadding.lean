/-
  EzBakeCommon.Security.Unpadding — what decrypt accepts.

  `decrypt` cuts off as many characters as the last one says, and looks at no
  other.  So it returns a text for every cipher text of whole blocks, and the
  text is one that encrypts to the cipher text exactly if the decrypted blocks
  end in a padding (`decrypts_only_encryptions_iff`).  That is decided by the
  last two blocks of the cipher text.

  Nothing keeps OpenSSL from making a digest, and its base64 reads back what it
  wrote of the cipher text, and of one block more.
-/
import EzBakeCommon.Security.RoundTrip

namespace EzBakeCommon.Security.PbeMd5AndDesEncryptor

open Library

variable {ssl : OpenSsl} {password salt : Bytes} {iterations : Int64}

/-! ## §1. Paddings. -/

/-- The text ends in the padding of some text: between 1 and 8 characters, each
their number. -/
def Padded (text : Bytes) : Prop :=
  ∃ m, 0 < m ∧ m ≤ 8 ∧ text.drop (text.length - m) = List.replicate m (mark m)

theorem padded_append {plaintext : Bytes} {m : Nat} (hm : 0 < m) (hle : m ≤ 8) :
    Padded (plaintext ++ List.replicate m (mark m)) := by
  refine ⟨m, hm, hle, ?_⟩
  rw [List.length_append, List.length_replicate, Nat.add_sub_cancel]
  exact List.drop_left

/-- **What is left after the cut is padded to the same text again exactly if the
text is padded.** -/
theorem toEncrypt_unpadded_iff {text : Bytes} (hwhole : WholeBlocks text)
    (hlt : text.length < 2147483648) :
    ∃ plaintext, unpad text text.length = .ok plaintext ∧ plaintext.length ≤ text.length ∧
      (toEncrypt plaintext = text ↔ Padded text) := by
  obtain ⟨hpos, h8⟩ := hwhole
  obtain ⟨init, last, rfl⟩ := (List.eq_nil_or_concat' text).resolve_left
    (List.ne_nil_of_length_pos hpos)
  have hcut := unpad_concat init last hlt
  -- a padding is what the last character says it is
  have hlast : ∀ m, 0 < m → m ≤ 8 →
      (init ++ [last]).drop ((init ++ [last]).length - m) = List.replicate m (mark m) →
        charToInt last = m := by
    intro m hm hle hdrop
    have hsome : ((init ++ [last]).drop ((init ++ [last]).length - m)).getLast?
        = some (mark m) := by
      rw [hdrop, List.getLast?_replicate, if_neg (by omega)]
    rw [List.getLast?_drop, if_neg (by omega), List.getLast?_concat] at hsome
    rw [Option.some.inj hsome]
    exact charToInt_mark hle
  refine ⟨_, hcut, ?_, ?_⟩
  · split
    next => exact List.length_take_le' _ _
    next => exact le_refl _
  · rw [toEncrypt_eq, Blocks.pad_eq_iff mark (by decide)]
    constructor
    · intro h
      obtain ⟨-, m, hm, hle, heq⟩ := h
      rw [heq]
      exact padded_append hm hle
    · intro h
      obtain ⟨m, hm, hle, hdrop⟩ := h
      have hvalue := hlast m hm hle hdrop
      refine ⟨h8, m, hm, hle, ?_⟩
      rw [if_pos (by omega), hvalue, Int.toNat_natCast, ← hdrop, List.take_append_drop]

/-! ## §2. What decrypt should accept. -/

/-- A call returns only what is `right`, and else raises the exception that its
documentation names, which then is `surfacing`. -/
def ReturnsOnly (right : Bytes → Prop) (surfacing : Prop) : Outcome Bytes → Prop
  | .ok text => right text
  | .error (.thrown (.stringEncryptor _)) => surfacing
  | .error _ => False

/-- `decrypt` of the text returns only what encrypts to it, and else raises an exception
that the provider turns into its own. -/
def AcceptsOnlyEncryptions (ssl : OpenSsl) (password salt : Bytes) (iterations : Int64)
    (encryptedtext : Bytes) : Prop :=
  ReturnsOnly (fun plaintext => encrypt ssl plaintext password salt iterations = .ok encryptedtext)
    (salt = SharedSecretTextCryptoProvider.salt →
      iterations = SharedSecretTextCryptoProvider.defaultIterations →
        ∃ message, SharedSecretTextCryptoProvider.decrypt ssl ⟨password⟩ encryptedtext
          = .error (.thrown (.security message)))
    (decrypt ssl encryptedtext password salt iterations)

/-- The last block of the cipher text, decrypted under the schedule and mixed with the
block before it, or the initial one, ends in `m` characters `m`. -/
def EndsInPadding (ssl : OpenSsl) (schedule : ssl.Schedule) (ivec : DesBlock) (data : Bytes) :
    Prop :=
  ∃ (blocks : List DesBlock) (last : DesBlock) (m : Nat), data = Blocks.join (blocks ++ [last]) ∧
    0 < m ∧ m ≤ 8 ∧
    (ssl.ecbEncrypt last schedule false ^^^
        (ivec :: blocks).getLast (List.cons_ne_nil ivec blocks)).toList.drop (8 - m)
      = List.replicate m (mark m)

section Ends

variable (hssl : ssl.Lawful) (schedule : ssl.Schedule) (ivec : DesBlock)
include hssl

/-- Only the last two blocks of the cipher text decide how the decrypted text ends. -/
theorem padded_iff {data : Bytes} (hwhole : WholeBlocks data) :
    Padded (ssl.ncbcEncrypt data schedule ivec false) ↔ EndsInPadding ssl schedule ivec data := by
  have hend : ∀ (blocks : List DesBlock) (last : DesBlock) (m : Nat), m ≤ 8 →
      data = Blocks.join (blocks ++ [last]) →
      (ssl.ncbcEncrypt data schedule ivec false).drop
          ((ssl.ncbcEncrypt data schedule ivec false).length - m)
        = (ssl.ecbEncrypt last schedule false ^^^
            (ivec :: blocks).getLast (List.cons_ne_nil ivec blocks)).toList.drop (8 - m) := by
    intro blocks last m hle hdata
    rw [hdata, hssl.ncbc_decrypt, Cbc.decrypt_concat]
    exact Blocks.drop_join_concat _ _ hle
  constructor
  · intro h
    obtain ⟨m, hm, hle, hdrop⟩ := h
    obtain ⟨blocks, last, hdata⟩ := Blocks.exists_concat hwhole.2
      (List.ne_nil_of_length_pos hwhole.1)
    refine ⟨blocks, last, m, hdata, hm, hle, ?_⟩
    rw [← hend blocks last m hle hdata, hdrop]
  · intro h
    obtain ⟨blocks, last, m, hdata, hm, hle, hdrop⟩ := h
    refine ⟨m, hm, hle, ?_⟩
    rw [hend blocks last m hle hdata, hdrop]

end Ends

/-! ## §3. What it accepts. -/

section Accepts

variable (hssl : ssl.Lawful) {schedule : ssl.Schedule} {ivec : DesBlock}
  (hkey : generateKey ssl password salt iterations = .ok ⟨some schedule, ivec⟩)
include hssl hkey

/-- A text no longer than the cipher text encrypts to it exactly if it is padded to
what the cipher text decrypts to. -/
theorem encrypt_eq_iff {data plaintext : Bytes} (hreads : ssl.ReadsBack (data.length + 8))
    (hwhole : WholeBlocks data) (hlt : data.length < 2147483648)
    (hle : plaintext.length ≤ data.length) :
    encrypt ssl plaintext password salt iterations = .ok (Base64Util.encodeString ssl data) ↔
      toEncrypt plaintext = ssl.ncbcEncrypt data schedule ivec false := by
  have hlength := length_toEncrypt plaintext
  have hlengthDec := hssl.length_ncbc schedule ivec hwhole.2 false
  have hwhole' := wholeBlocks_toEncrypt plaintext
  by_cases hshort : (toEncrypt plaintext).length < 2147483648
  · have hlengthEnc := hssl.length_ncbc schedule ivec hwhole'.2 true
    rw [encrypt_eq hssl hkey hshort]
    constructor
    · intro h
      have hdata := Base64Util.encodeString_injective hreads
        (List.ne_nil_of_length_pos (by rw [hlengthEnc]; exact hwhole'.1))
        (List.ne_nil_of_length_pos hwhole.1) (by omega) (by omega)
        (by rw [hlengthEnc]; exact hshort) hlt (Except.ok.inj h)
      rw [← hdata]
      exact (hssl.decrypt_encrypt schedule ivec hwhole'.2).symm
    · intro h
      rw [h, hssl.encrypt_decrypt schedule ivec hwhole.2]
  · -- more characters than an `int` can count: no buffer has a negative length
    have hneg := staticCastInt_neg (Nat.le_of_not_lt hshort) (by omega)
    rw [encrypt_negative hkey hneg]
    refine iff_of_false (by simp) ?_
    intro h
    have hlengths := congrArg List.length h
    omega

end Accepts

/-- **decrypt returns only what encrypts to its argument if and only if the key is accepted
and the last block ends in a padding**: it never raises an exception for the padding. -/
theorem decrypts_only_encryptions_iff (ssl : OpenSsl) (hssl : ssl.Lawful)
    (password salt : Bytes) (iterations : Int64) (data : Bytes) (hsalt : 8 ≤ salt.length)
    (hne : data ≠ []) (h8 : 8 ∣ data.length) (hreads : ssl.ReadsBack (data.length + 8))
    (hbase64 : Base64Util.decodeString ssl (Base64Util.encodeString ssl data) = .ok data) :
    AcceptsOnlyEncryptions ssl password salt iterations (Base64Util.encodeString ssl data) ↔
      ∃ schedule ivec, generateKey ssl password salt iterations = .ok ⟨some schedule, ivec⟩ ∧
        EndsInPadding ssl schedule ivec data := by
  have hwhole : WholeBlocks data := ⟨List.length_pos_iff.mpr hne, h8⟩
  have hlt := Base64Util.length_decodeString_lt hbase64
  obtain ⟨⟨schedule?, ivec⟩, hkey⟩ := generateKey_returns hssl password hsalt iterations
  show ReturnsOnly _ _ (decrypt ssl _ password salt iterations) ↔ _
  cases schedule? with
  | none =>
      rw [decrypt_unset hkey hbase64]
      refine iff_of_false id ?_
      intro h
      obtain ⟨schedule, ivec', hkey', -⟩ := h
      exact absurd (hkey.symm.trans hkey') (by simp)
  | some schedule =>
      have hlength := hssl.length_ncbc schedule ivec h8 false
      have hwholeDec : WholeBlocks (ssl.ncbcEncrypt data schedule ivec false) := by
        rw [WholeBlocks, hlength]
        exact hwhole
      obtain ⟨plaintext, hcut, hle, hpad⟩ := toEncrypt_unpadded_iff hwholeDec
        (by rw [hlength]; exact hlt)
      rw [hlength] at hcut hle
      rw [decrypt_eq hkey hbase64 h8, hcut]
      show encrypt ssl plaintext password salt iterations
        = .ok (Base64Util.encodeString ssl data) ↔ _
      rw [encrypt_eq_iff hssl hkey hreads hwhole hlt hle, hpad,
        padded_iff hssl schedule ivec hwhole]
      constructor
      · intro h
        exact ⟨schedule, ivec, hkey, h⟩
      · intro h
        obtain ⟨schedule', ivec', hkey', hend⟩ := h
        obtain ⟨rfl, rfl⟩ := key_unique hkey hkey'
        exact hend

/-- A cipher text of `"hi"`: its one block ends in six characters 6. -/
theorem accepted_of_one_block :
    AcceptsOnlyEncryptions sample.tabulated samplePassword SharedSecretTextCryptoProvider.salt 1
      (Base64Util.encodeString sample.tabulated [26, 36, 48, 170, 132, 77, 151, 138]) := by
  have hread := @sample_read [26, 36, 48, 170, 132, 77, 151, 138] (by decide) (by decide)
  refine (decrypts_only_encryptions_iff sample.tabulated sample.tabulated_lawful samplePassword
    SharedSecretTextCryptoProvider.salt 1 [26, 36, 48, 170, 132, 77, 151, 138] (by decide)
    (by decide) (by decide) (sample.tabulated_readsBack.mono (by decide)) hread).mpr ?_
  refine ⟨sampleKey, sampleIvec, sample_generateKey, [], desBlock 26 36 48 170 132 77 151 138, 6,
    rfl, by decide, by decide, ?_⟩
  decide

/-- A block that decrypts to `"AAAAAAAA"`. -/
theorem sample_unpadded :
    sample.tabulated.ncbcEncrypt [151, 30, 92, 37, 64, 178, 73, 183] sampleKey sampleIvec false
      = [65, 65, 65, 65, 65, 65, 65, 65] := by
  show sample.ncbc [151, 30, 92, 37, 64, 178, 73, 183] sampleKey sampleIvec false
    = [65, 65, 65, 65, 65, 65, 65, 65]
  decide

/-- Its cipher text decrypts to a text that is not padded: all of it is returned, and encrypts
to two blocks. -/
theorem unpadded_text_accepted :
    ¬ AcceptsOnlyEncryptions sample.tabulated samplePassword SharedSecretTextCryptoProvider.salt 1
      (Base64Util.encodeString sample.tabulated [151, 30, 92, 37, 64, 178, 73, 183]) := by
  have hread := @sample_read [151, 30, 92, 37, 64, 178, 73, 183] (by decide) (by decide)
  have hreturns : decrypt sample.tabulated
      (Base64Util.encodeString sample.tabulated [151, 30, 92, 37, 64, 178, 73, 183])
      samplePassword SharedSecretTextCryptoProvider.salt 1
        = .ok [65, 65, 65, 65, 65, 65, 65, 65] := by
    rw [decrypt_eq sample_generateKey hread (by decide), sample_unpadded]
    rfl
  intro h
  unfold AcceptsOnlyEncryptions at h
  rw [hreturns] at h
  have hwhole : WholeBlocks [151, 30, 92, 37, 64, 178, 73, 183] := ⟨by decide, by decide⟩
  have hsame := (encrypt_eq_iff sample.tabulated_lawful sample_generateKey
    (sample.tabulated_readsBack.mono (by decide)) hwhole (by decide) (by decide)).mp h
  rw [sample_unpadded] at hsame
  exact absurd (congrArg List.length hsame) (by decide)

end EzBakeCommon.Security.PbeMd5AndDesEncryptor
