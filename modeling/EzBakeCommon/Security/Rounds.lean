/-
  EzBakeCommon.Security.Rounds — how often the key derivation digests.

  The loop counts `iterations` down and stops only at 0, so a number that is not
  positive is counted down past the smallest `long` and round to 0 again.  A
  positive number is the number of digests; any other one asks for about 2^64 of
  them (`rounds_iff`).

  Main lemmas:
    * `generateDataHash_eq` — the hash, and the number of digests.
    * `rounds_toInt` — that number, by the sign of `iterations`.
-/
import EzBakeCommon.Security.RoundTrip

namespace EzBakeCommon.Security.PbeMd5AndDesEncryptor

variable (ssl : OpenSsl)

/-! ## §1. The digests, counted. -/

/-- `rehash`, and the digests that it makes. -/
def rehashCounted (iterations : Int64) (result : Digest) : Outcome Digest × ℕ :=
  if _ : iterations - 1 = 0 then (.ok result, 0)
  else
    match ssl.digest result.toList with
    | some result =>
        ((rehashCounted (iterations - 1) result).1, (rehashCounted (iterations - 1) result).2 + 1)
    | none => (.error (.thrown (.stringEncryptor "Error in generating digest")), 1)
termination_by (iterations - 1).toBitVec.toNat
decreasing_by all_goals exact toNat_pred_lt ‹_›

/-- `generateDataHash`, and the digests that it makes. -/
def generateDataHashCounted (data salt : Bytes) (iterations : Int64) : Outcome Digest × ℕ :=
  if salt.length < algoBlockSize then
    (.error (.thrown (.stringEncryptor "Provided salt is of insufficient length")), 0)
  else
    match ssl.digest (data ++ salt.take algoBlockSize) with
    | some result =>
        ((rehashCounted ssl iterations result).1, (rehashCounted ssl iterations result).2 + 1)
    | none => (.error (.thrown (.stringEncryptor "Error in generating digest")), 1)

theorem rehashCounted_fst (iterations : Int64) (result : Digest) :
    (rehashCounted ssl iterations result).1 = rehash ssl iterations result := by
  induction iterations, result using rehash.induct ssl with
  | case1 iterations result h =>
      unfold rehashCounted rehash
      rw [dif_pos h, dif_pos h]
  | case2 iterations result h next hdigest ih =>
      unfold rehashCounted rehash
      rw [dif_neg h, dif_neg h, hdigest]
      exact ih
  | case3 iterations result h hdigest =>
      unfold rehashCounted rehash
      rw [dif_neg h, dif_neg h, hdigest]

/-- **Counting changes nothing.** -/
theorem generateDataHashCounted_fst (data salt : Bytes) (iterations : Int64) :
    (generateDataHashCounted ssl data salt iterations).1
      = generateDataHash ssl data salt iterations := by
  unfold generateDataHashCounted generateDataHash
  split
  next => rfl
  next =>
    cases ssl.digest (data ++ salt.take algoBlockSize) with
    | none => rfl
    | some result => exact rehashCounted_fst ssl iterations result

/-! ## §2. How many there are. -/

/-- The digest of a text, digested again so many times. -/
def digests (md5 : Bytes → Digest) (text : Bytes) (again : ℕ) : Digest :=
  (fun digest => md5 digest.toList)^[again] (md5 text)

/-- The bytes of it are those of the text, put through MD5 once more often. -/
theorem toList_digests (md5 : Bytes → Digest) (text : Bytes) (again : ℕ) :
    (digests md5 text again).toList = (fun text => (md5 text).toList)^[again + 1] text := by
  have hsemi : Function.Semiconj List.Vector.toList (fun digest : Digest => md5 digest.toList)
      (fun text => (md5 text).toList) := fun _ => rfl
  rw [Function.iterate_succ_apply]
  exact (hsemi.iterate_right again) (md5 text)

/-- A step towards 0 is one step. -/
theorem toNat_pred {i : Int64} (h : i ≠ 0) : i.toBitVec.toNat = (i - 1).toBitVec.toNat + 1 := by
  have hne : i.toBitVec ≠ 0#64 := fun h0 => h (Int64.toBitVec_inj.mp h0)
  rw [Int64.toBitVec_sub]
  show _ = (i.toBitVec - 1#64).toNat + 1
  bv_omega

/-- What `--iterations` leaves to be counted down to 0, by the sign of `iterations`. -/
theorem rounds_toInt (iterations : Int64) :
    ((iterations - 1).toBitVec.toNat + 1 : ℤ)
      = if 1 ≤ iterations.toInt then iterations.toInt
        else 18446744073709551616 + iterations.toInt := by
  have hpred : (iterations - 1).toBitVec.toNat
      = (18446744073709551615 + iterations.toBitVec.toNat) % 18446744073709551616 := by
    rw [Int64.toBitVec_sub, BitVec.toNat_sub]
    rfl
  have hvalue : iterations.toInt = if 2 * iterations.toBitVec.toNat < 18446744073709551616 then
      (iterations.toBitVec.toNat : ℤ) else iterations.toBitVec.toNat - 18446744073709551616 :=
    BitVec.toInt_eq_toNat_cond iterations.toBitVec
  have hlt : iterations.toBitVec.toNat < 18446744073709551616 := iterations.toBitVec.isLt
  rw [hpred]
  by_cases hpos : 1 ≤ iterations.toInt
  · rw [if_pos hpos]
    omega
  · rw [if_neg hpos]
    omega

section Md5

variable {md5 : Bytes → Digest} (hmd5 : ∀ text, ssl.digest text = some (md5 text))
include hmd5

/-- The loop digests once for every number it counts. -/
theorem rehashCounted_eq (iterations : Int64) (result : Digest) :
    rehashCounted ssl iterations result
      = (.ok ((fun digest => md5 digest.toList)^[(iterations - 1).toBitVec.toNat] result),
          (iterations - 1).toBitVec.toNat) := by
  induction iterations, result using rehash.induct ssl with
  | case1 iterations result h =>
      unfold rehashCounted
      rw [dif_pos h, h]
      rfl
  | case2 iterations result h next hdigest ih =>
      obtain rfl := Option.some.inj ((hmd5 _).symm.trans hdigest)
      unfold rehashCounted
      rw [dif_neg h, hmd5]
      show ((rehashCounted ssl (iterations - 1) _).1, (rehashCounted ssl (iterations - 1) _).2 + 1)
        = _
      rw [ih, toNat_pred h, Function.iterate_succ_apply]
  | case3 iterations result h hdigest =>
      rw [hmd5] at hdigest
      exact absurd hdigest (by simp)

/-- **The hash, and the digests that it takes**: one, and one for every number that
`--iterations` leaves to be counted. -/
theorem generateDataHashCounted_eq (data : Bytes) {salt : Bytes} (hsalt : 8 ≤ salt.length)
    (iterations : Int64) :
    generateDataHashCounted ssl data salt iterations
      = (.ok (digests md5 (data ++ salt.take 8) (iterations - 1).toBitVec.toNat),
          (iterations - 1).toBitVec.toNat + 1) := by
  have henough : ¬ salt.length < algoBlockSize := Nat.not_lt.mpr hsalt
  unfold generateDataHashCounted
  rw [if_neg henough, hmd5]
  show ((rehashCounted ssl iterations _).1, (rehashCounted ssl iterations _).2 + 1) = _
  rw [rehashCounted_eq ssl hmd5]
  rfl

theorem generateDataHash_eq (data : Bytes) {salt : Bytes} (hsalt : 8 ≤ salt.length)
    (iterations : Int64) :
    generateDataHash ssl data salt iterations
      = .ok (digests md5 (data ++ salt.take 8) (iterations - 1).toBitVec.toNat) := by
  rw [← generateDataHashCounted_fst, generateDataHashCounted_eq ssl hmd5 data hsalt]

end Md5

/-! ## §3. How many were asked for. -/

/-- `max(1, iterations)` -/
def asked (iterations : Int64) : ℕ := (max 1 iterations.toInt).toNat

/-- The derivation raises an exception before the loop, or returns the text put
through MD5 as often as asked; and digests no more often. -/
structure DoesItsWork (md5 : Bytes → Digest) (data salt : Bytes) (iterations : Int64) : Prop where
  answer :
    (∃ ex, generateDataHash ssl data salt iterations = .error (.thrown ex) ∧
      (generateDataHashCounted ssl data salt iterations).2 ≤ 1) ∨
    ∃ hash, generateDataHash ssl data salt iterations = .ok hash ∧
      hash.toList = (fun text => (md5 text).toList)^[asked iterations] (data ++ salt.take 8)
  rounds : (generateDataHashCounted ssl data salt iterations).2 ≤ asked iterations

/-- A positive number of iterations is the number of digests. -/
theorem rounds_eq_asked {iterations : Int64} (hpos : 1 ≤ iterations) :
    (iterations - 1).toBitVec.toNat + 1 = asked iterations := by
  have hint : 1 ≤ iterations.toInt := Int64.le_iff_toInt_le.mp hpos
  have hrounds := rounds_toInt iterations
  rw [if_pos hint] at hrounds
  unfold asked
  omega

/-- Any other number takes more than one. -/
theorem asked_lt_rounds {iterations : Int64} (hneg : ¬ 1 ≤ iterations) :
    asked iterations < (iterations - 1).toBitVec.toNat + 1 := by
  have hint : ¬ 1 ≤ iterations.toInt := fun h => hneg (Int64.le_iff_toInt_le.mpr h)
  have hmin : -9223372036854775808 ≤ iterations.toInt := iterations.le_toInt
  have hrounds := rounds_toInt iterations
  rw [if_neg hint] at hrounds
  unfold asked
  omega

/-- **The key derivation does the work it is asked for if and only if the number of
iterations is positive.** -/
theorem rounds_iff (ssl : OpenSsl) (md5 : Bytes → Digest)
    (hmd5 : ∀ text, ssl.digest text = some (md5 text)) (password salt : Bytes)
    (hsalt : 8 ≤ salt.length) (iterations : Int64) :
    DoesItsWork ssl md5 password salt iterations ↔ 1 ≤ iterations := by
  have hcounted := generateDataHashCounted_eq ssl hmd5 password hsalt iterations
  constructor
  · intro h
    have hrounds := h.rounds
    rw [hcounted] at hrounds
    by_contra hneg
    exact absurd hrounds (Nat.not_le.mpr (asked_lt_rounds hneg))
  · intro hpos
    refine ⟨Or.inr ⟨_, generateDataHash_eq ssl hmd5 password hsalt iterations, ?_⟩, ?_⟩
    · rw [toList_digests, rounds_eq_asked hpos]
    · rw [hcounted]
      exact le_of_eq (rounds_eq_asked hpos)

/-- The default number of iterations is worked off. -/
theorem default_rounds :
    DoesItsWork sample.tabulated sample.digest samplePassword
      SharedSecretTextCryptoProvider.salt 1000 :=
  (rounds_iff sample.tabulated sample.digest (fun _ => rfl) samplePassword
    SharedSecretTextCryptoProvider.salt (by decide) 1000).mpr (by decide)

/-- No iteration takes 2^64 digests. -/
theorem zero_rounds :
    (generateDataHashCounted sample.tabulated samplePassword
        SharedSecretTextCryptoProvider.salt 0).2 = 18446744073709551616 ∧
      ¬ DoesItsWork sample.tabulated sample.digest samplePassword
        SharedSecretTextCryptoProvider.salt 0 := by
  have hcounted := @generateDataHashCounted_eq sample.tabulated sample.digest (fun _ => rfl)
    samplePassword SharedSecretTextCryptoProvider.salt (by decide) 0
  have hrounds : (0 - 1 : Int64).toBitVec.toNat + 1 = 18446744073709551616 := by decide
  have hcount : (generateDataHashCounted sample.tabulated samplePassword
      SharedSecretTextCryptoProvider.salt 0).2 = 18446744073709551616 :=
    (congrArg Prod.snd hcounted).trans hrounds
  refine ⟨hcount, ?_⟩
  intro h
  have hle := h.rounds
  rw [hcount] at hle
  exact absurd hle (by decide)

end EzBakeCommon.Security.PbeMd5AndDesEncryptor
