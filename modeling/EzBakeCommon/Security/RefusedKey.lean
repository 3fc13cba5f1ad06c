/-
  EzBakeCommon.Security.RefusedKey — keys that OpenSSL refuses.

  `DES_set_key_checked` sets no schedule for a weak or semi-weak key and says so in
  its result, which `generateKey` does not look at.  The key that it returns then
  has a schedule that was never set, and both callers hand it to DES.  So messages
  are processed only under schedules that have been set exactly if the derived
  key is none of those (`unrefused_iff`).
-/
import EzBakeCommon.Security.Rounds

namespace EzBakeCommon.Security.PbeMd5AndDesEncryptor

/-- The parity-adjusted first half of MD5 of password and salt, applied `iterations`
times. -/
def derivedKey (ssl : OpenSsl) (md5 : Bytes → Digest) (password salt : Bytes)
    (iterations : Int64) : DesBlock :=
  ssl.setOddParity
    (copy (digests md5 (password ++ salt.take 8) (iterations.toInt.toNat - 1)) 0 (Nat.zero_le _))

/-- The call raises the documented exception. -/
def Raises (answer : Outcome Bytes) : Prop :=
  ∃ message, answer = .error (.thrown (.stringEncryptor message))

/-- No message is processed under a key that was refused: the schedule has been set
from the derived key, or both functions raise an exception for every message; and
they never meet a schedule that was left unset, under which nothing is defined. -/
structure Unrefused (ssl : OpenSsl) (desKey : DesBlock) (password salt : Bytes)
    (iterations : Int64) : Prop where
  set_or_raised :
    (∃ schedule ivec, generateKey ssl password salt iterations = .ok ⟨some schedule, ivec⟩ ∧
      ssl.setKeyChecked desKey = some schedule) ∨
    ((∀ plaintext, Raises (encrypt ssl plaintext password salt iterations)) ∧
      ∀ encryptedtext, Raises (decrypt ssl encryptedtext password salt iterations))
  unset_unused : ∀ ivec, generateKey ssl password salt iterations = .ok ⟨none, ivec⟩ →
    (∀ plaintext, encrypt ssl plaintext password salt iterations ≠ .error .undefined) ∧
      ∀ encryptedtext, decrypt ssl encryptedtext password salt iterations ≠ .error .undefined

section Derived

variable {ssl : OpenSsl} {md5 : Bytes → Digest} (hmd5 : ∀ text, ssl.digest text = some (md5 text))
  {password salt : Bytes} (hsalt : 8 ≤ salt.length) {iterations : Int64} (hpos : 1 ≤ iterations)

include hmd5 hsalt hpos in
/-- **The key that is generated**: its schedule is what the check of the derived key
leaves, set or not. -/
theorem generateKey_eq : ∃ ivec, generateKey ssl password salt iterations
    = .ok ⟨ssl.setKeyChecked (derivedKey ssl md5 password salt iterations), ivec⟩ := by
  have htimes : (iterations - 1).toBitVec.toNat = iterations.toInt.toNat - 1 := by
    have hrounds := rounds_eq_asked hpos
    have hint : 1 ≤ iterations.toInt := Int64.le_iff_toInt_le.mp hpos
    unfold asked at hrounds
    omega
  unfold generateKey
  rw [generateDataHash_eq ssl hmd5 password hsalt, returns_bind, htimes]
  exact ⟨_, rfl⟩

/-- A key without a schedule is used all the same. -/
theorem not_unrefused {ivec desKey : DesBlock}
    (hkey : generateKey ssl password salt iterations = .ok ⟨none, ivec⟩) :
    ¬ Unrefused ssl desKey password salt iterations := by
  intro h
  have hencrypt : encrypt ssl [] password salt iterations = .error .undefined := by
    rw [encrypt_of_key hkey, desNcbcEncrypt_unset, stops_bind]
  exact (h.unset_unused ivec hkey).1 [] hencrypt

end Derived

/-- **No message is processed under a refused key if and only if the derived key is
neither weak nor semi-weak.** -/
theorem unrefused_iff (ssl : OpenSsl) (md5 : Bytes → Digest)
    (hmd5 : ∀ text, ssl.digest text = some (md5 text))
    (hchecked : ∀ block, ssl.setKeyChecked (ssl.setOddParity block) = none ↔
      ssl.setOddParity block ∈ weakKeys)
    (password salt : Bytes) (hsalt : 8 ≤ salt.length) (iterations : Int64)
    (hpos : 1 ≤ iterations) :
    Unrefused ssl (derivedKey ssl md5 password salt iterations) password salt iterations ↔
      derivedKey ssl md5 password salt iterations ∉ weakKeys := by
  obtain ⟨ivec, hkey⟩ := generateKey_eq hmd5 hsalt hpos
  have hrefused : ssl.setKeyChecked (derivedKey ssl md5 password salt iterations) = none ↔
      derivedKey ssl md5 password salt iterations ∈ weakKeys := hchecked _
  cases hset : ssl.setKeyChecked (derivedKey ssl md5 password salt iterations) with
  | none =>
      rw [hset] at hkey
      exact iff_of_false (not_unrefused hkey) (not_not_intro (hrefused.mp hset))
  | some schedule =>
      rw [hset] at hkey
      refine iff_of_true ⟨Or.inl ⟨schedule, ivec, hkey, hset⟩, ?_⟩ ?_
      · intro ivec' hunset
        exact absurd (hkey.symm.trans hunset) (by simp)
      · intro hweak
        rw [hrefused.mpr hweak] at hset
        exact absurd hset (by simp)

/-- Under tables a key is refused if it is weak or semi-weak. -/
theorem tabulated_checked (t : Tables) (key : DesBlock) :
    t.tabulated.setKeyChecked key = none ↔ key ∈ weakKeys := by
  constructor
  · intro h
    by_contra hstrong
    rw [t.setKeyChecked_strong hstrong] at h
    exact absurd h (by simp)
  · intro hweak
    exact if_pos hweak

/-- The sample key is set. -/
theorem sample_unrefused :
    Unrefused sample.tabulated
      (derivedKey sample.tabulated sample.digest samplePassword
        SharedSecretTextCryptoProvider.salt 1)
      samplePassword SharedSecretTextCryptoProvider.salt 1 :=
  (unrefused_iff sample.tabulated sample.digest (fun _ => rfl)
    (fun _ => tabulated_checked sample _) samplePassword SharedSecretTextCryptoProvider.salt
    (by decide) 1 (by decide)).mpr (by decide)

/-- A digest function that gives nothing but zeros. -/
def zeros : Tables := ⟨[], [], 0⟩

/-- With their parity adjusted they are a weak key: it is refused, and used. -/
theorem refused_key_used :
    derivedKey zeros.tabulated zeros.digest samplePassword SharedSecretTextCryptoProvider.salt 1
        = desBlock 1 1 1 1 1 1 1 1 ∧
      ¬ Unrefused zeros.tabulated (desBlock 1 1 1 1 1 1 1 1) samplePassword
        SharedSecretTextCryptoProvider.salt 1 := by
  have hderived : derivedKey zeros.tabulated zeros.digest samplePassword
      SharedSecretTextCryptoProvider.salt 1 = desBlock 1 1 1 1 1 1 1 1 := by decide
  obtain ⟨ivec, hkey⟩ := @generateKey_eq zeros.tabulated zeros.digest (fun _ => rfl)
    samplePassword SharedSecretTextCryptoProvider.salt (by decide) 1 (by decide)
  rw [hderived, (tabulated_checked zeros _).mpr (by decide)] at hkey
  exact ⟨hderived, not_unrefused hkey⟩

end EzBakeCommon.Security.PbeMd5AndDesEncryptor
