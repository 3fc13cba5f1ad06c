/-
  EzBakeCommon.Security.Bounds — how long a text may be for the encryptor.

  `encrypt` casts the length of the padded text to an `int`: the buffer it allocates
  has a negative length from 2^31 on, and from 2^32 on it takes a front of the text for
  all of it.  Shorter texts are encrypted to their end, but what base64 makes of
  1610612728 characters or more has a length that `decode` takes for a negative
  one, and of what the memory `BIO` does not take `decode` sees only a front.  So
  where the memory takes the cipher text, the text comes back exactly if the key is
  accepted and the text is not longer than that; of any text, whatever the memory,
  nothing but a front is ever returned (`comes_back_iff`).  The provider adds nothing
  but the type of the exception (`messages_come_back_iff`).
-/
import EzBakeCommon.Security.Base64Bound
import EzBakeCommon.Security.RoundTrip

namespace EzBakeCommon.Security

open Library

/-- An `int` that is cast from a length is not greater, and differs by multiples of 2^32. -/
theorem staticCastInt_le (n : ℕ) :
    staticCastInt n ≤ n ∧ staticCastInt n % 4294967296 = (n : Int) % 4294967296 := by
  have hmod : staticCastInt n % 4294967296 = (n : Int) % 4294967296 := Int.bmod_emod
  have hhalf : staticCastInt n ≤ (4294967296 - 1) / 2 := Int.bmod_le (by decide)
  omega

namespace PbeMd5AndDesEncryptor

variable {ssl : OpenSsl} {password salt plaintext : Bytes} {iterations : Int64} {limit : ℕ}

/-- `decrypt(encrypt(plaintext, …), …)` -/
def encryptAndDecrypt (ssl : OpenSsl) (plaintext password salt : Bytes) (iterations : Int64) :
    Outcome Bytes := do
  let encryptedtext ← encrypt ssl plaintext password salt iterations
  decrypt ssl encryptedtext password salt iterations

/-- A key has been generated, and OpenSSL has not refused it. -/
def KeyAccepted (ssl : OpenSsl) (password salt : Bytes) (iterations : Int64) : Prop :=
  ∃ schedule ivec, generateKey ssl password salt iterations = .ok ⟨some schedule, ivec⟩

/-! ## §1. One way. -/

/-- What is left after the cut is a front. -/
theorem unpad_front {decrypted text : Bytes} {length : Int}
    (h : unpad decrypted length = .ok text) : text <+: decrypted := by
  unfold unpad at h
  split at h
  next => exact absurd h (by simp)
  next =>
    split at h
    next => exact absurd h (by simp)
    next =>
      rw [← Except.ok.inj h]
      exact List.take_prefix _ _

section Key

variable (hssl : ssl.Lawful) {schedule : ssl.Schedule} {ivec : DesBlock}
  (hkey : generateKey ssl password salt iterations = .ok ⟨some schedule, ivec⟩)
include hssl hkey

/-- **What encrypt returns is the base64 text of as many encrypted characters as the `int`
says**, whole blocks of them. -/
theorem encrypt_returned {encryptedtext : Bytes}
    (h : encrypt ssl plaintext password salt iterations = .ok encryptedtext) :
    ∃ n : ℕ, (n : Int) = staticCastInt (toEncrypt plaintext).length ∧ 8 ∣ n ∧
      n ≤ (toEncrypt plaintext).length ∧
      encryptedtext = Base64Util.encodeString ssl
        (ssl.ncbcEncrypt ((toEncrypt plaintext).take n) schedule ivec true) := by
  have hpadded := length_toEncrypt plaintext
  obtain ⟨hle, hmod⟩ := staticCastInt_le (toEncrypt plaintext).length
  have hlt := Base64Util.staticCastInt_lt (toEncrypt plaintext).length
  by_cases hneg : staticCastInt (toEncrypt plaintext).length < 0
  · rw [encrypt_negative hkey hneg] at h
    exact absurd h (by simp)
  rw [encrypt_of_key hkey] at h
  generalize staticCastInt (toEncrypt plaintext).length = n at *
  have htake : ((toEncrypt plaintext).take n.toNat).length = n.toNat := by
    rw [List.length_take]
    omega
  have h8 : 8 ∣ n.toNat := by omega
  have hdata : (ssl.ncbcEncrypt ((toEncrypt plaintext).take n.toNat) schedule ivec true).length
      = n.toNat := (hssl.length_ncbc schedule ivec (htake.symm ▸ h8) true).trans htake
  have hreturned : desNcbcEncrypt ssl (toEncrypt plaintext) n ⟨some schedule, ivec⟩ true
      = .ok (ssl.ncbcEncrypt ((toEncrypt plaintext).take n.toNat) schedule ivec true) :=
    if_neg (by omega)
  rw [hreturned, returns_bind] at h
  refine ⟨n.toNat, by omega, h8, by omega, ?_⟩
  rw [← Except.ok.inj h]
  unfold Base64Util.encodeString
  rw [hdata, staticCastInt_of_lt (by omega), Int.toNat_of_nonneg (by omega)]

omit hssl in
/-- **What decrypt makes of encoded blocks** that the memory takes: they are decrypted if the
length of their base64 text is an `int`. -/
theorem decrypt_encoded (hwrites : Base64Util.WritesFourForThree ssl limit)
    (hreads : ssl.ReadsBack limit) {data : Bytes} (h8 : 8 ∣ data.length)
    (hle : data.length ≤ limit) (hlt : data.length < 2147483648) :
    decrypt ssl (Base64Util.encodeString ssl data) password salt iterations =
      if data.length ≤ 1610612733 then unpad (ssl.ncbcEncrypt data schedule ivec false) data.length
      else .error (.thrown .badAlloc) := by
  have hdecode := Base64Util.decodeString_encodeString hwrites hreads hle hlt
  by_cases hfits : data.length ≤ 1610612733
  · rw [if_pos hfits] at hdecode ⊢
    exact decrypt_eq hkey hdecode h8
  · rw [if_neg hfits] at hdecode ⊢
    unfold decrypt
    rw [hdecode]
    rfl

omit hssl in
/-- What is not whole blocks is not decrypted. -/
theorem decrypt_whole {encryptedtext data text : Bytes}
    (hdata : Base64Util.decodeString ssl encryptedtext = .ok data)
    (h : decrypt ssl encryptedtext password salt iterations = .ok text) : 8 ∣ data.length := by
  have hlt := Base64Util.length_decodeString_lt hdata
  rw [decrypt_of_key hkey hdata, staticCastInt_of_lt hlt] at h
  by_contra h8
  have hrefused : desNcbcEncrypt ssl data data.length ⟨some schedule, ivec⟩ false
      = .error .undefined := if_pos (Or.inr (by omega))
  rw [hrefused, stops_bind] at h
  exact absurd h (by simp)

/-! ## §2. There and back. -/

/-- **What comes back is cut off a front of the padded text**, whole blocks that the memory
took and an `int` counts. -/
theorem returned_of_front (hbio : Base64Util.MemoryBio ssl limit) {text : Bytes}
    (hreturned : encryptAndDecrypt ssl plaintext password salt iterations = .ok text) :
    ∃ m n : ℕ, (n : Int) = staticCastInt (toEncrypt plaintext).length ∧
      8 * m ≤ n ∧ n ≤ (toEncrypt plaintext).length ∧ 8 * m ≤ limit ∧ 8 * m ≤ 1610612733 ∧
      unpad ((toEncrypt plaintext).take (8 * m)) (8 * m : ℕ) = .ok text := by
  unfold encryptAndDecrypt at hreturned
  cases hencrypt : encrypt ssl plaintext password salt iterations with
  | error stop =>
      rw [hencrypt, stops_bind] at hreturned
      exact absurd hreturned (by simp)
  | ok encryptedtext =>
      obtain ⟨n, hn, h8, hle, hencoded⟩ := encrypt_returned hssl hkey hencrypt
      rw [hencrypt, returns_bind, hencoded] at hreturned
      have htake : ((toEncrypt plaintext).take n).length = n := List.length_take_of_le hle
      have hlength := hssl.length_ncbc schedule ivec (htake.symm ▸ h8) true
      cases hdecode : Base64Util.decodeString ssl (Base64Util.encodeString ssl
          (ssl.ncbcEncrypt ((toEncrypt plaintext).take n) schedule ivec true)) with
      | error stop =>
          unfold decrypt at hreturned
          rw [hdecode] at hreturned
          exact absurd hreturned (by simp)
      | ok data =>
          obtain ⟨hfront, hfits, hcount⟩ := Base64Util.front_of_decodeString hbio hdecode
          obtain ⟨m, hm⟩ := decrypt_whole hkey hdecode hreturned
          have hshorter := hfront.length_le
          -- the front of the cipher text is the cipher text of a front
          have hcipher : data = ssl.ncbcEncrypt ((toEncrypt plaintext).take (8 * m)) schedule ivec
              true := by
            rw [List.prefix_iff_eq_take.mp hfront, hm, hssl.take_ncbc schedule ivec
              (htake.symm ▸ h8), List.take_take, Nat.min_eq_left (by omega)]
          have h8m : 8 ∣ ((toEncrypt plaintext).take (8 * m)).length := by
            rw [List.length_take_of_le (by omega)]
            exact Nat.dvd_mul_right 8 m
          rw [decrypt_eq hkey hdecode ⟨m, hm⟩, hm, hcipher,
            hssl.decrypt_encrypt schedule ivec h8m] at hreturned
          exact ⟨m, n, hn, by omega, hle, by omega, by omega, hreturned⟩

/-- **What comes back is a front of the text**, no longer than the memory takes and the `int`
says. -/
theorem front_comes_back (hbio : Base64Util.MemoryBio ssl limit) {text : Bytes}
    (hreturned : encryptAndDecrypt ssl plaintext password salt iterations = .ok text) :
    text <+: plaintext ∧ text.length ≤ limit ∧
      (text.length : Int) ≤ staticCastInt (toEncrypt plaintext).length := by
  obtain ⟨m, n, hn, hm, hle, hfits, hcount, hcut⟩ := returned_of_front hssl hkey hbio hreturned
  have hpadded := length_toEncrypt plaintext
  have hfront := unpad_front hcut
  have hlength := hfront.length_le
  rw [List.length_take] at hlength
  refine ⟨?_, by omega, by omega⟩
  by_cases hwhole : 8 * m = (toEncrypt plaintext).length
  · -- nothing is missing: what is cut off is the padding
    rw [hwhole, List.take_length, unpad_toEncrypt (by omega)] at hcut
    rw [← Except.ok.inj hcut]
  · -- the last block is missing, and the padding with it
    have hinside : (toEncrypt plaintext).take (8 * m) = plaintext.take (8 * m) := by
      unfold toEncrypt
      exact List.take_append_of_le_length (by omega)
    rw [hinside] at hfront
    exact hfront.trans (List.take_prefix _ _)

/-- **What becomes of a text that the memory takes**, if the length of the padded one is an
`int`: it comes back, or its base64 text is too long and thrown out. -/
theorem decrypt_encrypted (hwrites : Base64Util.WritesFourForThree ssl limit)
    (hreads : ssl.ReadsBack limit) (hfits : (toEncrypt plaintext).length ≤ limit)
    (hlt : (toEncrypt plaintext).length < 2147483648) :
    ∃ encryptedtext, encrypt ssl plaintext password salt iterations = .ok encryptedtext ∧
      decrypt ssl encryptedtext password salt iterations =
        if plaintext.length ≤ 1610612727 then .ok plaintext else .error (.thrown .badAlloc) := by
  have hpadded := length_toEncrypt plaintext
  have h8 : 8 ∣ (toEncrypt plaintext).length := ⟨_, hpadded⟩
  have hdata := hssl.length_ncbc schedule ivec h8 true
  have hdecrypt := decrypt_encoded hkey hwrites hreads (hdata ▸ h8) (hdata ▸ hfits) (hdata ▸ hlt)
  rw [hdata, hssl.decrypt_encrypt schedule ivec h8, unpad_toEncrypt hlt] at hdecrypt
  refine ⟨_, encrypt_eq hssl hkey hlt, ?_⟩
  rw [hdecrypt]
  by_cases hshort : plaintext.length ≤ 1610612727
  · rw [if_pos hshort, if_pos (by omega)]
  · rw [if_neg hshort, if_neg (by omega)]

/-- **Under an accepted key a text that the memory takes comes back exactly if** it has at most
1610612727 characters. -/
theorem decrypts_back_iff (hbio : Base64Util.MemoryBio ssl limit)
    (hfits : (toEncrypt plaintext).length ≤ limit) :
    encryptAndDecrypt ssl plaintext password salt iterations = .ok plaintext ↔
      plaintext.length ≤ 1610612727 := by
  have hpadded := length_toEncrypt plaintext
  by_cases hlt : (toEncrypt plaintext).length < 2147483648
  · obtain ⟨encryptedtext, hencrypt, hdecrypt⟩ :=
      decrypt_encrypted hssl hkey hbio.writes hbio.readsBack hfits hlt
    unfold encryptAndDecrypt
    rw [hencrypt, returns_bind, hdecrypt]
    split
    next hshort => exact iff_of_true rfl hshort
    next hlong => exact iff_of_false (by simp) hlong
  · -- the text is longer than anything that comes back
    refine iff_of_false ?_ (by omega)
    intro h
    obtain ⟨m, n, -, -, -, -, hcount, hcut⟩ := returned_of_front hssl hkey hbio h
    have hlength := (unpad_front hcut).length_le
    rw [List.length_take] at hlength
    omega

end Key

/-- Without an accepted key nothing comes back. -/
theorem keyAccepted_of_returned {text : Bytes}
    (hreturned : encryptAndDecrypt ssl plaintext password salt iterations = .ok text) :
    KeyAccepted ssl password salt iterations := by
  cases hkey : generateKey ssl password salt iterations with
  | error stop =>
      unfold encryptAndDecrypt encrypt at hreturned
      rw [hkey, stops_bind, stops_bind] at hreturned
      exact absurd hreturned (by simp)
  | ok key =>
      obtain ⟨schedule?, ivec⟩ := key
      cases schedule? with
      | none =>
          unfold encryptAndDecrypt at hreturned
          rw [encrypt_of_key hkey, desNcbcEncrypt_unset, stops_bind, stops_bind] at hreturned
          exact absurd hreturned (by simp)
      | some schedule => exact ⟨schedule, ivec, hkey⟩

/-- **What becomes of a text**, whatever the text, the salt and the number of iterations.
Nothing but a front of it comes back, and that only under an accepted key; if the memory
takes its cipher text, all of it exactly if it has at most 1610612727 characters.  Longer
ones are thrown out by `decrypt`, or find no buffer in `encrypt`. -/
theorem comes_back_iff (hssl : ssl.Lawful) (hbio : Base64Util.MemoryBio ssl limit)
    (plaintext password salt : Bytes) (iterations : Int64) :
    (∀ text, encryptAndDecrypt ssl plaintext password salt iterations = .ok text →
      KeyAccepted ssl password salt iterations ∧ text <+: plaintext ∧ text.length ≤ limit ∧
        (text.length : Int) ≤ staticCastInt (toEncrypt plaintext).length) ∧
    ((toEncrypt plaintext).length ≤ limit →
      (encryptAndDecrypt ssl plaintext password salt iterations = .ok plaintext ↔
        KeyAccepted ssl password salt iterations ∧ plaintext.length ≤ 1610612727)) ∧
    (KeyAccepted ssl password salt iterations → 1610612727 < plaintext.length →
      (toEncrypt plaintext).length ≤ limit → (toEncrypt plaintext).length < 2147483648 →
      ∃ encryptedtext, encrypt ssl plaintext password salt iterations = .ok encryptedtext ∧
        decrypt ssl encryptedtext password salt iterations = .error (.thrown .badAlloc)) ∧
    (KeyAccepted ssl password salt iterations →
      staticCastInt (toEncrypt plaintext).length < 0 →
      encrypt ssl plaintext password salt iterations = .error .undefined) := by
  refine ⟨?_, ?_, ?_, ?_⟩
  · intro text h
    obtain ⟨schedule, ivec, hkey⟩ := keyAccepted_of_returned h
    exact ⟨⟨schedule, ivec, hkey⟩, front_comes_back hssl hkey hbio h⟩
  · intro hfits
    constructor
    · intro h
      obtain ⟨schedule, ivec, hkey⟩ := keyAccepted_of_returned h
      exact ⟨⟨schedule, ivec, hkey⟩, (decrypts_back_iff hssl hkey hbio hfits).mp h⟩
    · intro h
      obtain ⟨⟨schedule, ivec, hkey⟩, hshort⟩ := h
      exact (decrypts_back_iff hssl hkey hbio hfits).mpr hshort
  · intro haccepted hlong hfits hlt
    obtain ⟨schedule, ivec, hkey⟩ := haccepted
    obtain ⟨encryptedtext, hencrypt, hdecrypt⟩ :=
      decrypt_encrypted hssl hkey hbio.writes hbio.readsBack hfits hlt
    rw [if_neg (Nat.not_le.mpr hlong)] at hdecrypt
    exact ⟨encryptedtext, hencrypt, hdecrypt⟩
  · intro haccepted hneg
    obtain ⟨schedule, ivec, hkey⟩ := haccepted
    exact encrypt_negative hkey hneg

/-- `"hi"`, under a table of true values. -/
theorem two_characters_come_back :
    (∀ text, encryptAndDecrypt sample.tabulated [104, 105] samplePassword
        SharedSecretTextCryptoProvider.salt 1 = .ok text →
      KeyAccepted sample.tabulated samplePassword SharedSecretTextCryptoProvider.salt 1 ∧
        text <+: [104, 105] ∧ text.length ≤ sample.memory ∧
        (text.length : Int) ≤ staticCastInt (toEncrypt [104, 105]).length) ∧
    encryptAndDecrypt sample.tabulated [104, 105] samplePassword
      SharedSecretTextCryptoProvider.salt 1 = .ok [104, 105] := by
  obtain ⟨hfront, hback, -, -⟩ := comes_back_iff sample.tabulated_lawful
    (Base64Util.tabulated_memoryBio sample) [104, 105] samplePassword
    SharedSecretTextCryptoProvider.salt 1
  have haccepted : KeyAccepted sample.tabulated samplePassword
      SharedSecretTextCryptoProvider.salt 1 := ⟨sampleKey, sampleIvec, sample_generateKey⟩
  exact ⟨hfront, (hback (by decide)).mpr ⟨haccepted, by decide⟩⟩

end PbeMd5AndDesEncryptor

/-! ## §3. The provider. -/

namespace SharedSecretTextCryptoProvider

open PbeMd5AndDesEncryptor

theorem rethrow_eq_ok {message : String} {result : Outcome Bytes} {text : Bytes} :
    rethrow message result = .ok text ↔ result = .ok text := by
  unfold rethrow
  split
  next => exact iff_of_false (by simp) (by simp)
  next => exact Iff.rfl

/-- What is thrown is an exception of the provider, with the text of the inner one. -/
theorem rethrow_thrown {message : String} {result : Outcome Bytes} {ex : CppException}
    (h : rethrow message result = .error (.thrown ex)) :
    ∃ inner, result = .error (.thrown inner) ∧ ex = .security (message ++ inner.what) := by
  unfold rethrow at h
  split at h
  next inner =>
    injection h with h
    injection h with h
    exact ⟨inner, rfl, h.symm⟩
  next hother => exact absurd h (hother ex)

/-- **Nothing but the documented exception is thrown**, whatever the message. -/
theorem throws_only_security (ssl : OpenSsl) (provider : SharedSecretTextCryptoProvider)
    {message : Bytes} {ex : CppException}
    (h : provider.encrypt ssl message = .error (.thrown ex) ∨
      provider.decrypt ssl message = .error (.thrown ex)) : ∃ text, ex = .security text := by
  rcases h with h | h
  · obtain ⟨inner, -, hex⟩ := rethrow_thrown h
    exact ⟨_, hex⟩
  · obtain ⟨inner, -, hex⟩ := rethrow_thrown h
    exact ⟨_, hex⟩

variable {ssl : OpenSsl} (provider : SharedSecretTextCryptoProvider)

/-- The provider returns what the encryptor does. -/
theorem returned_iff {message text : Bytes} :
    (provider.encrypt ssl message >>= provider.decrypt ssl) = .ok text ↔
      encryptAndDecrypt ssl message provider.password salt defaultIterations = .ok text := by
  unfold encryptAndDecrypt
  cases hencrypt : PbeMd5AndDesEncryptor.encrypt ssl message provider.password salt
      defaultIterations with
  | error stop =>
      have hstops : ∃ stop', provider.encrypt ssl message = .error stop' := by
        unfold encrypt
        rw [hencrypt]
        cases stop with
        | thrown ex => exact ⟨_, rfl⟩
        | undefined => exact ⟨_, rfl⟩
      obtain ⟨stop', hstop⟩ := hstops
      rw [hstop, stops_bind, stops_bind]
      exact iff_of_false (by simp) (by simp)
  | ok encryptedtext =>
      have hreturned : provider.encrypt ssl message = .ok encryptedtext :=
        rethrow_eq_ok.mpr hencrypt
      rw [hreturned, returns_bind, returns_bind]
      exact rethrow_eq_ok

variable {limit : ℕ} (hssl : ssl.Lawful) (hbio : Base64Util.MemoryBio ssl limit)
  {schedule : ssl.Schedule} {ivec : DesBlock}
  (hkey : generateKey ssl provider.password salt defaultIterations = .ok ⟨some schedule, ivec⟩)
include hssl hbio hkey

/-- **Of a message nothing but a front comes back from the provider**.  If the memory takes the
cipher text, all of it comes back exactly if it does from the encryptor; a longer message
ends, as long as the length of the padded text is an `int`, in the exception that the
provider documents. -/
theorem messages_come_back_iff (message : Bytes) :
    (∀ text, (provider.encrypt ssl message >>= provider.decrypt ssl) = .ok text →
      text <+: message) ∧
    ((toEncrypt message).length ≤ limit →
      ((provider.encrypt ssl message >>= provider.decrypt ssl) = .ok message ↔
        message.length ≤ 1610612727) ∧
      (1610612727 < message.length → (toEncrypt message).length < 2147483648 →
        ∃ text, (provider.encrypt ssl message >>= provider.decrypt ssl)
          = .error (.thrown (.security text)))) := by
  refine ⟨?_, fun hfits => ⟨?_, ?_⟩⟩
  · intro text h
    exact (front_comes_back hssl hkey hbio ((returned_iff provider).mp h)).1
  · rw [returned_iff provider]
    exact decrypts_back_iff hssl hkey hbio hfits
  · intro hlong hlt
    obtain ⟨encryptedtext, hencrypt, hdecrypt⟩ :=
      decrypt_encrypted hssl hkey hbio.writes hbio.readsBack hfits hlt
    rw [if_neg (Nat.not_le.mpr hlong)] at hdecrypt
    have hprovider : provider.encrypt ssl message = .ok encryptedtext := rethrow_eq_ok.mpr hencrypt
    rw [hprovider, returns_bind]
    unfold decrypt
    rw [hdecrypt]
    exact ⟨_, rfl⟩

end SharedSecretTextCryptoProvider

end EzBakeCommon.Security
