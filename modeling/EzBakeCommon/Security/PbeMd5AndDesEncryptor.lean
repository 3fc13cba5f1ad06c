/-
  EzBakeCommon.Security.PbeMd5AndDesEncryptor — the class, function by function.

  The text is padded to whole blocks, the key and the initial block are the two
  halves of one digest, and the cipher text is written in base64.  `decrypt` goes
  the same way back and cuts off as many characters as the last one says.
-/
import EzBakeCommon.Security.OpenSsl

namespace EzBakeCommon.Security

open Library

namespace PbeMd5AndDesEncryptor

/-! ## §1. The key. -/

/-- `ALGO_BLOCK_SIZE` -/
def algoBlockSize : Nat := md5DigestLength / 2

/-- A key; the schedule is nothing where it has never been set. -/
structure PbeMd5AndDesKey (ssl : OpenSsl) where
  schedule : Option ssl.Schedule
  ivec : DesBlock

/-- A `long` that is not 0 is one less after a step towards it. -/
theorem toNat_pred_lt {i : Int64} (h : i ≠ 0) :
    (i - 1).toBitVec.toNat < i.toBitVec.toNat := by
  have hne : i.toBitVec ≠ 0 := fun h0 => h (Int64.toBitVec_inj.mp h0)
  rw [Int64.toBitVec_sub]
  show (i.toBitVec - 1#64).toNat < _
  have hzero : i.toBitVec ≠ 0#64 := hne
  bv_omega

section Key

variable (ssl : OpenSsl)

/-- `while (--iterations != 0) { … }` -/
def rehash (iterations : Int64) (result : Digest) : Outcome Digest :=
  if _ : iterations - 1 = 0 then .ok result
  else
    match ssl.digest result.toList with
    | some result => rehash (iterations - 1) result
    | none => .error (.thrown (.stringEncryptor "Error in generating digest"))
termination_by (iterations - 1).toBitVec.toNat
decreasing_by exact toNat_pred_lt ‹_›

def generateDataHash (data salt : Bytes) (iterations : Int64) : Outcome Digest :=
  if salt.length < algoBlockSize then
    .error (.thrown (.stringEncryptor "Provided salt is of insufficient length"))
  else
    match ssl.digest (data ++ salt.take algoBlockSize) with
    | some result => rehash ssl iterations result
    | none => .error (.thrown (.stringEncryptor "Error in generating digest"))

/-- `keyHash.copy(…, ALGO_BLOCK_SIZE, pos)` -/
def copy (keyHash : Digest) (pos : Nat) (h : pos ≤ algoBlockSize) : DesBlock :=
  Blocks.front (keyHash.toList.drop pos) (by
    rw [List.length_drop, List.Vector.toList_length]
    unfold algoBlockSize md5DigestLength at *
    omega)

def generateKey (password salt : Bytes) (iterations : Int64) : Outcome (PbeMd5AndDesKey ssl) := do
  let keyHash ← generateDataHash ssl password salt iterations
  let key := ssl.setOddParity (copy keyHash 0 (Nat.zero_le _))
  return { schedule := ssl.setKeyChecked key, ivec := copy keyHash algoBlockSize (le_refl _) }

end Key

/-! ## §2. Texts. -/

/-- `ALGO_BLOCK_SIZE - (static_cast<int>(plaintext.length()) % ALGO_BLOCK_SIZE)`, in
unsigned arithmetic. -/
def padding (plaintext : Bytes) : Nat :=
  algoBlockSize - toUnsigned (staticCastInt plaintext.length) % algoBlockSize

/-- `plaintext + pad` -/
def toEncrypt (plaintext : Bytes) : Bytes :=
  plaintext ++ List.replicate (padding plaintext) (UInt8.ofNat (padding plaintext))

variable (ssl : OpenSsl)

/-- A buffer of `length` characters that `DES_ncbc_encrypt` fills from the input.  It has no
negative number of characters, the schedule must have been set, and whole blocks are
read and written. -/
def desNcbcEncrypt (input : Bytes) (length : Int) (key : PbeMd5AndDesKey ssl) (enc : Bool) :
    Outcome Bytes :=
  match key.schedule with
  | none => .error .undefined
  | some schedule =>
      if length < 0 ∨ length % 8 ≠ 0 then .error .undefined
      else .ok (ssl.ncbcEncrypt (input.take length.toNat) schedule key.ivec enc)

/-- The last character says how many are cut off. -/
def unpad (decrypted : Bytes) (decryptedReturnedLength : Int) : Outcome Bytes :=
  if decryptedReturnedLength < 1 then .error .undefined
  else
    match decrypted[(decryptedReturnedLength - 1).toNat]? with
    | none => .error .undefined
    | some last =>
        let padValue := charToInt last
        -- substr takes the whole text where the length is past its end
        .ok (decrypted.take (toSizeT (decryptedReturnedLength - padValue)))

def encrypt (plaintext password salt : Bytes) (iterations : Int64) : Outcome Bytes := do
  let key ← generateKey ssl password salt iterations
  let encryptedReturnedLength := staticCastInt (toEncrypt plaintext).length
  let encryptedReturned ← desNcbcEncrypt ssl (toEncrypt plaintext) encryptedReturnedLength key true
  return Base64Util.encode ssl encryptedReturned encryptedReturnedLength

def decrypt (encryptedtext password salt : Bytes) (iterations : Int64) : Outcome Bytes := do
  let data ← Base64Util.decodeString ssl encryptedtext
  let key ← generateKey ssl password salt iterations
  let decryptedReturnedLength := staticCastInt data.length
  let decrypted ← desNcbcEncrypt ssl data decryptedReturnedLength key false
  unpad decrypted decryptedReturnedLength

end PbeMd5AndDesEncryptor

/-! ## §3. The class SharedSecretTextCryptoProvider. -/

structure SharedSecretTextCryptoProvider where
  password : Bytes

namespace SharedSecretTextCryptoProvider

/-- `"bouncycastle"` -/
def salt : Bytes := [98, 111, 117, 110, 99, 121, 99, 97, 115, 116, 108, 101]

/-- The default of the parameter `iterations`. -/
def defaultIterations : Int64 := 1000

/-- `catch (const std::exception& ex)` -/
def rethrow (message : String) (result : Outcome Bytes) : Outcome Bytes :=
  match result with
  | .error (.thrown ex) => .error (.thrown (.security (message ++ ex.what)))
  | result => result

variable (ssl : OpenSsl) (provider : SharedSecretTextCryptoProvider)

def encrypt (message : Bytes) : Outcome Bytes :=
  rethrow "Error in encrypting string: "
    (PbeMd5AndDesEncryptor.encrypt ssl message provider.password salt defaultIterations)

def decrypt (encryptedMessage : Bytes) : Outcome Bytes :=
  rethrow "Error in decrypting string: "
    (PbeMd5AndDesEncryptor.decrypt ssl encryptedMessage provider.password salt defaultIterations)

end SharedSecretTextCryptoProvider

/-! ## §4. What the functions do. -/

namespace PbeMd5AndDesEncryptor

variable {ssl : OpenSsl}

section Key

variable (hssl : ssl.Lawful)
include hssl

theorem rehash_returns (iterations : Int64) (result : Digest) :
    ∃ hash, rehash ssl iterations result = .ok hash := by
  induction iterations, result using rehash.induct ssl with
  | case1 iterations result h =>
      refine ⟨result, ?_⟩
      unfold rehash
      rw [dif_pos h]
  | case2 iterations result h next hdigest ih =>
      unfold rehash
      rw [dif_neg h, hdigest]
      exact ih
  | case3 iterations result h hdigest =>
      have hreturns := hssl.digest_returns result.toList
      rw [hdigest] at hreturns
      exact absurd hreturns (by decide)

/-- **With salt enough a key is always generated**, if not always a schedule. -/
theorem generateKey_returns (password : Bytes) {salt : Bytes} (hsalt : 8 ≤ salt.length)
    (iterations : Int64) : ∃ key, generateKey ssl password salt iterations = .ok key := by
  have hdigest := hssl.digest_returns (password ++ salt.take algoBlockSize)
  obtain ⟨result, hresult⟩ := Option.isSome_iff_exists.mp hdigest
  obtain ⟨hash, hhash⟩ := rehash_returns hssl iterations result
  have hdata : generateDataHash ssl password salt iterations = .ok hash := by
    have henough : ¬ salt.length < algoBlockSize := Nat.not_lt.mpr hsalt
    unfold generateDataHash
    rw [if_neg henough, hresult]
    exact hhash
  unfold generateKey
  rw [hdata]
  exact ⟨_, rfl⟩

end Key

/-- The schedule and the initial block are those of the key. -/
theorem key_unique {password salt : Bytes} {iterations : Int64} {schedule schedule' : ssl.Schedule}
    {ivec ivec' : DesBlock}
    (hkey : generateKey ssl password salt iterations = .ok ⟨some schedule, ivec⟩)
    (hkey' : generateKey ssl password salt iterations = .ok ⟨some schedule', ivec'⟩) :
    schedule = schedule' ∧ ivec = ivec' := by
  have hsame := Except.ok.inj (hkey.symm.trans hkey')
  simpa using hsame

/-- The number of characters as a `char`. -/
def mark (m : Nat) : UInt8 := UInt8.ofNat m

theorem padding_eq (plaintext : Bytes) : padding plaintext = Blocks.missing 8 plaintext := by
  unfold padding Blocks.missing algoBlockSize md5DigestLength
  rw [toUnsigned_staticCastInt]
  omega

/-- **The conversions do no harm**: the text is padded to whole blocks. -/
theorem toEncrypt_eq (plaintext : Bytes) : toEncrypt plaintext = Blocks.pad mark 8 plaintext := by
  unfold toEncrypt
  rw [padding_eq]
  rfl

theorem length_toEncrypt (plaintext : Bytes) :
    (toEncrypt plaintext).length = 8 * (plaintext.length / 8 + 1) := by
  rw [toEncrypt_eq]
  exact Blocks.length_pad mark (by decide)

/-- DES is handed the whole text if its length is an `int` and a multiple of 8. -/
theorem desNcbcEncrypt_whole {input : Bytes} {schedule : ssl.Schedule} {ivec : DesBlock}
    {enc : Bool} (h8 : 8 ∣ input.length) (hlt : input.length < 2147483648) :
    desNcbcEncrypt ssl input (staticCastInt input.length) ⟨some schedule, ivec⟩ enc
      = .ok (ssl.ncbcEncrypt input schedule ivec enc) := by
  unfold desNcbcEncrypt
  rw [staticCastInt_of_lt hlt]
  show (if _ then _ else Except.ok (ssl.ncbcEncrypt (input.take _) schedule ivec enc)) = _
  rw [if_neg (by omega), Int.toNat_natCast, List.take_length]

/-- A buffer has no negative length. -/
theorem desNcbcEncrypt_negative {input : Bytes} {length : Int} {key : PbeMd5AndDesKey ssl}
    {enc : Bool} (h : length < 0) :
    desNcbcEncrypt ssl input length key enc = .error .undefined := by
  unfold desNcbcEncrypt
  split
  next => rfl
  next => rw [if_pos (Or.inl h)]

/-- A schedule that has never been set is not used for anything that is defined. -/
theorem desNcbcEncrypt_unset {input : Bytes} {length : Int} {ivec : DesBlock} {enc : Bool} :
    desNcbcEncrypt ssl input length ⟨none, ivec⟩ enc = .error .undefined := rfl

theorem charToInt_mark {m : Nat} (h : m ≤ 8) : charToInt (mark m) = m := by
  have hall : ∀ i : Fin 9, charToInt (mark i) = i.val := by decide
  exact hall ⟨m, Nat.lt_succ_of_le h⟩

theorem charToInt_bounds (c : UInt8) : -128 ≤ charToInt c ∧ charToInt c ≤ 127 :=
  ⟨c.toInt8.minValue_le_toInt, c.toInt8.toInt_le⟩

/-- **What is cut off**: as many characters as the last one says, or nothing where
it says a number that is not positive, or more than there are. -/
theorem unpad_concat (init : Bytes) (last : UInt8) (hlt : (init ++ [last]).length < 2147483648) :
    unpad (init ++ [last]) (init ++ [last]).length = .ok
      (if 0 < charToInt last ∧ charToInt last ≤ (init ++ [last]).length then
        (init ++ [last]).take ((init ++ [last]).length - (charToInt last).toNat)
      else init ++ [last]) := by
  have hbounds := charToInt_bounds last
  have hlen : (init ++ [last]).length = init.length + 1 := by simp
  have hindex : (((init ++ [last]).length : Int) - 1).toNat = init.length := by omega
  have hlast : (init ++ [last])[init.length]? = some last := by simp
  unfold unpad
  rw [if_neg (by omega), hindex, hlast]
  show Except.ok ((init ++ [last]).take _) = _
  refine congrArg Except.ok ?_
  unfold toSizeT
  split
  next hcut =>
    congr 1
    omega
  next hwhole =>
    -- a negative length is a very large one as a size_t
    refine List.take_of_length_le ?_
    omega

section Steps

variable {password salt : Bytes} {iterations : Int64} {key : PbeMd5AndDesKey ssl}
  (hkey : generateKey ssl password salt iterations = .ok key)
include hkey

/-- What is left of `encrypt` once the key has been generated. -/
theorem encrypt_of_key (plaintext : Bytes) :
    encrypt ssl plaintext password salt iterations =
      (desNcbcEncrypt ssl (toEncrypt plaintext) (staticCastInt (toEncrypt plaintext).length) key
          true
        >>= fun encryptedReturned => .ok (Base64Util.encode ssl encryptedReturned
          (staticCastInt (toEncrypt plaintext).length))) := by
  show (generateKey ssl password salt iterations >>= fun key =>
    desNcbcEncrypt ssl (toEncrypt plaintext) (staticCastInt (toEncrypt plaintext).length) key true
      >>= fun encryptedReturned => .ok (Base64Util.encode ssl encryptedReturned
        (staticCastInt (toEncrypt plaintext).length))) = _
  rw [hkey, returns_bind]

/-- What is left of `decrypt` once the text has been decoded and the key generated. -/
theorem decrypt_of_key {encryptedtext data : Bytes}
    (hdata : Base64Util.decodeString ssl encryptedtext = .ok data) :
    decrypt ssl encryptedtext password salt iterations =
      (desNcbcEncrypt ssl data (staticCastInt data.length) key false
        >>= fun decrypted => unpad decrypted (staticCastInt data.length)) := by
  show (Base64Util.decodeString ssl encryptedtext >>= fun data =>
    generateKey ssl password salt iterations >>= fun key =>
      desNcbcEncrypt ssl data (staticCastInt data.length) key false
        >>= fun decrypted => unpad decrypted (staticCastInt data.length)) = _
  rw [hdata, returns_bind, hkey, returns_bind]

end Steps

end PbeMd5AndDesEncryptor

end EzBakeCommon.Security
