/-
  EzBakeCommon.Security.OpenSsl — the C++ and the OpenSSL that the encryptor uses.

  A `std::string` is the list of its bytes.  A call returns, throws, or has no
  defined behaviour.  The functions of OpenSSL are a parameter of the model; what
  its documentation says about them is `OpenSsl.Lawful`, and `OpenSsl.ReadsBack` of its
  base64.
-/
import EzBakeCommon.Library.Blocks
import EzBakeCommon.Library.Cbc
import Mathlib.Data.FinEnum
import Mathlib.Data.Fintype.Vector

namespace EzBakeCommon.Security

open Library

/-! ## §1. Values, conversions and exceptions. -/

/-- A `std::string`, or a buffer of characters. -/
abbrev Bytes := List UInt8

/-- `static_cast<int>` of a `size_t`, `int` having 32 bits. -/
def staticCastInt (n : Nat) : Int := Int.bmod n 4294967296

/-- An `int` as an `unsigned int`. -/
def toUnsigned (i : Int) : Nat := (i % 4294967296).toNat

/-- An `int` as a `size_t` of 64 bits. -/
def toSizeT (i : Int) : Nat := (i % 18446744073709551616).toNat

/-- `static_cast<int>` of a `char`, which is signed. -/
def charToInt (c : UInt8) : Int := c.toInt8.toInt

theorem staticCastInt_of_lt {n : Nat} (h : n < 2147483648) : staticCastInt n = n := by
  unfold staticCastInt
  exact Int.bmod_eq_of_le (by omega) (by omega)

theorem staticCastInt_neg {n : Nat} (h : 2147483648 ≤ n) (h' : n < 4294967296) :
    staticCastInt n < 0 := by
  have hwrap : staticCastInt n = Int.bmod ((n : Int) - 4294967296) 4294967296 :=
    (Int.sub_bmod_right n 4294967296).symm
  rw [hwrap, Int.bmod_eq_of_le (by omega) (by omega)]
  omega

theorem toUnsigned_staticCastInt (n : Nat) : toUnsigned (staticCastInt n) = n % 4294967296 := by
  have hmod : staticCastInt n % 4294967296 = (n : Int) % 4294967296 := Int.bmod_emod
  unfold toUnsigned
  rw [hmod]
  omega

/-- The exceptions that the encryptor and its callers raise. -/
inductive CppException where
  | stringEncryptor (message : String)
  | security (message : String)
  | badAlloc
  | lengthError

/-- `what()`; the texts of the standard exceptions are those of libstdc++. -/
def CppException.what : CppException → String
  | .stringEncryptor message => message
  | .security message => "SecurityException: " ++ message
  | .badAlloc => "std::bad_alloc"
  | .lengthError => "basic_string::_M_create"

/-- Why a call does not return. -/
inductive Stop where
  | thrown (ex : CppException)
  | undefined

abbrev Outcome := Except Stop

/-- A call that returns is followed by what comes next. -/
@[simp] theorem returns_bind {α β : Type} (a : α) (f : α → Outcome β) :
    ((.ok a : Outcome α) >>= f) = f a := rfl

@[simp] theorem stops_bind {α β : Type} (stop : Stop) (f : α → Outcome β) :
    ((.error stop : Outcome α) >>= f) = .error stop := rfl

/-! ## §2. OpenSSL. -/

/-- A `DES_cblock`. -/
abbrev DesBlock := List.Vector UInt8 8

def md5DigestLength : Nat := 16

abbrev Digest := List.Vector UInt8 md5DigestLength

/-- The functions of OpenSSL. -/
structure OpenSsl where
  /-- `DES_key_schedule` -/
  Schedule : Type
  /-- `EVP_DigestInit_ex`, `EVP_DigestUpdate` with all the bytes and
  `EVP_DigestFinal_ex`, for `EVP_md5`; nothing if one of them returns 0. -/
  digest : Bytes → Option Digest
  /-- `DES_set_odd_parity` -/
  setOddParity : DesBlock → DesBlock
  /-- The schedule that `DES_set_key_checked` sets; nothing if it refuses the key. -/
  setKeyChecked : DesBlock → Option Schedule
  /-- `DES_ecb_encrypt`, of one block; the encryptor never calls it. -/
  ecbEncrypt : DesBlock → Schedule → Bool → DesBlock
  /-- `DES_ncbc_encrypt`, of all the bytes, for `DES_ENCRYPT` or `DES_DECRYPT`. -/
  ncbcEncrypt : Bytes → Schedule → DesBlock → Bool → Bytes
  /-- What a memory `BIO` holds after `BIO_write` and `BIO_flush` through the base64
  filter, in one line.  It may not take all of it. -/
  base64Write : Bytes → Bytes
  /-- What `BIO_read` of at most so many bytes returns through the base64 filter, in
  one line, of a memory `BIO`; nothing if its result is negative. -/
  base64Read : Bytes → (length : Nat) → Option { raw : Bytes // raw.length ≤ length }

/-- What OpenSSL documents of DES; the functions of MD5 are taken to succeed. -/
structure OpenSsl.Lawful (ssl : OpenSsl) : Prop where
  digest_returns : ∀ bytes, (ssl.digest bytes).isSome = true
  ecb_inverts : ∀ schedule block,
    ssl.ecbEncrypt (ssl.ecbEncrypt block schedule true) schedule false = block
  ncbc_encrypt : ∀ schedule ivec (blocks : List DesBlock),
    ssl.ncbcEncrypt (Blocks.join blocks) schedule ivec true
      = Blocks.join (Cbc.encrypt (ssl.ecbEncrypt · schedule true) ivec blocks)
  ncbc_decrypt : ∀ schedule ivec (blocks : List DesBlock),
    ssl.ncbcEncrypt (Blocks.join blocks) schedule ivec false
      = Blocks.join (Cbc.decrypt (ssl.ecbEncrypt · schedule false) ivec blocks)

/-- The base64 filter reads back what it has written, of at most so many bytes: what it
makes of them fits in a memory `BIO`. -/
def OpenSsl.ReadsBack (ssl : OpenSsl) (limit : Nat) : Prop :=
  ∀ bytes : Bytes, bytes.length ≤ limit →
    (ssl.base64Read (ssl.base64Write bytes) (ssl.base64Write bytes).length).map Subtype.val
      = some bytes

theorem OpenSsl.ReadsBack.mono {ssl : OpenSsl} {limit limit' : Nat} (h : ssl.ReadsBack limit)
    (hle : limit' ≤ limit) : ssl.ReadsBack limit' :=
  fun bytes hbytes => h bytes (Nat.le_trans hbytes hle)

/-! ## §3. DES over whole blocks. -/

namespace OpenSsl.Lawful

variable {ssl : OpenSsl} (hssl : ssl.Lawful) (schedule : ssl.Schedule) (ivec : DesBlock)
  {text : Bytes} (htext : 8 ∣ text.length)
include hssl htext

theorem length_ncbc (enc : Bool) :
    (ssl.ncbcEncrypt text schedule ivec enc).length = text.length := by
  rw [← Blocks.join_blocks htext]
  cases enc with
  | true => rw [hssl.ncbc_encrypt, Blocks.length_join, Cbc.length_encrypt, Blocks.length_join]
  | false => rw [hssl.ncbc_decrypt, Blocks.length_join, Cbc.length_decrypt, Blocks.length_join]

/-- Of a front of whole blocks DES makes a front of what it makes of all of them. -/
theorem take_ncbc (n : Nat) :
    (ssl.ncbcEncrypt text schedule ivec true).take (8 * n)
      = ssl.ncbcEncrypt (text.take (8 * n)) schedule ivec true := by
  rw [← Blocks.join_blocks htext, hssl.ncbc_encrypt, Blocks.take_join, Blocks.take_join,
    hssl.ncbc_encrypt, Cbc.take_encrypt]

/-- **What has been encrypted is decrypted**, under the same schedule and initial block. -/
theorem decrypt_encrypt :
    ssl.ncbcEncrypt (ssl.ncbcEncrypt text schedule ivec true) schedule ivec false = text := by
  have hinverts : Function.LeftInverse (ssl.ecbEncrypt · schedule false)
      (ssl.ecbEncrypt · schedule true) := hssl.ecb_inverts schedule
  rw [← Blocks.join_blocks htext, hssl.ncbc_encrypt, hssl.ncbc_decrypt,
    Cbc.decrypt_encrypt hinverts]

/-- **Every text of whole blocks is the encryption of its decryption.** -/
theorem encrypt_decrypt :
    ssl.ncbcEncrypt (ssl.ncbcEncrypt text schedule ivec false) schedule ivec true = text := by
  -- there are finitely many blocks, so the inverse of a block is one on either side
  have hinverts : Function.LeftInverse (ssl.ecbEncrypt · schedule true)
      (ssl.ecbEncrypt · schedule false) :=
    Function.LeftInverse.rightInverse_of_card_le (hssl.ecb_inverts schedule) (le_refl _)
  rw [← Blocks.join_blocks htext, hssl.ncbc_decrypt, hssl.ncbc_encrypt,
    Cbc.encrypt_decrypt hinverts]

end OpenSsl.Lawful

/-! ## §4. The class Base64Util. -/

namespace Base64Util

variable (ssl : OpenSsl)

/-- `encode(const char*, int)` -/
def encode (data : Bytes) (length : Int) : Bytes :=
  -- BIO_write writes nothing for a length that is not positive
  if length ≤ 0 then [] else ssl.base64Write (data.take length.toNat)

/-- `decode(const char*, int)` -/
def decode (data : Bytes) (length : Int) : Outcome Bytes :=
  -- new char [length]
  if length < 0 then .error (.thrown .badAlloc)
  else
    match (ssl.base64Read (data.take length.toNat) length.toNat).map Subtype.val with
    | some rawdata => .ok rawdata
    -- std::string of a negative number of characters
    | none => .error (.thrown .lengthError)

/-- `encode(const std::string&)` -/
def encodeString (serializedData : Bytes) : Bytes :=
  encode ssl serializedData (staticCastInt serializedData.length)

/-- `decode(const std::string&)` -/
def decodeString (encodedData : Bytes) : Outcome Bytes :=
  decode ssl encodedData (staticCastInt encodedData.length)

variable {ssl} {data : Bytes}

theorem encodeString_of_lt (hne : data ≠ []) (hlt : data.length < 2147483648) :
    encodeString ssl data = ssl.base64Write data := by
  have hpos := List.length_pos_iff.mpr hne
  unfold encodeString encode
  rw [staticCastInt_of_lt hlt, if_neg (by omega), Int.toNat_natCast, List.take_length]

/-- The text is read back if its length is an `int`. -/
theorem decode_encode (hreads : ssl.ReadsBack data.length) (hne : data ≠ [])
    (hlt : data.length < 2147483648) (htext : (ssl.base64Write data).length < 2147483648) :
    decodeString ssl (encodeString ssl data) = .ok data := by
  have hread := hreads data (le_refl _)
  rw [encodeString_of_lt hne hlt]
  unfold decodeString decode
  rw [staticCastInt_of_lt htext, if_neg (by omega), Int.toNat_natCast, List.take_length, hread]

/-- Different texts that are read back are written differently. -/
theorem encodeString_injective {limit : Nat} (hreads : ssl.ReadsBack limit) {data' : Bytes}
    (hdata : data ≠ []) (hdata' : data' ≠ []) (hle : data.length ≤ limit)
    (hle' : data'.length ≤ limit) (hlt : data.length < 2147483648)
    (hlt' : data'.length < 2147483648) (h : encodeString ssl data = encodeString ssl data') :
    data = data' := by
  rw [encodeString_of_lt hdata hlt, encodeString_of_lt hdata' hlt'] at h
  have hread := hreads data hle
  rw [h, hreads data' hle'] at hread
  exact (Option.some.inj hread).symm

/-- No more is ever read than an `int` can count. -/
theorem length_decodeString_lt {text : Bytes} (h : decodeString ssl text = .ok data) :
    data.length < 2147483648 := by
  have hint : staticCastInt text.length < 2147483648 := by
    unfold staticCastInt
    exact Int.bmod_lt (by decide)
  unfold decodeString decode at h
  split at h
  next => exact absurd h (by simp)
  next =>
    split at h
    next rawdata hread =>
      obtain ⟨raw, -, hraw⟩ := Option.map_eq_some_iff.mp hread
      obtain rfl := hraw.trans (Except.ok.inj h)
      have hlength := raw.property
      omega
    next => exact absurd h (by simp)

/-- A text that cannot be read is thrown out. -/
theorem decodeString_throws {text : Bytes} {stop : Stop} (h : decodeString ssl text = .error stop) :
    ∃ ex, stop = .thrown ex := by
  unfold decodeString decode at h
  split at h
  next => exact ⟨_, (Except.error.inj h).symm⟩
  next =>
    split at h
    next => exact absurd h (by simp)
    next => exact ⟨_, (Except.error.inj h).symm⟩

end Base64Util

end EzBakeCommon.Security
