/-
  EzBakeCommon.Security.Base64Bound — how long a text may be for Base64Util.

  Both functions cast the length of their text to an `int`.  `encode` reads no more
  than the `int` says, nothing if it is negative; `decode` throws if it is.  Base64
  makes four characters of three, so the second cast goes wrong before the first
  one does.  In between is a memory `BIO`, which takes only so much, and `encode`
  does not ask how much it took.  So a text comes back exactly if the memory takes
  all of it and it has at most 1610612733 characters; what comes back of a longer
  one, if anything, is a front of it (`round_trip_iff`).
-/
import EzBakeCommon.Security.Tabulated

namespace EzBakeCommon.Security.Base64Util

open Library

variable {ssl : OpenSsl} {data : Bytes} {limit : ℕ}

/-! ## §1. The filter and the memory. -/

/-- Base64 writes four characters for every three, begun ones included, of at most so
many. -/
def WritesFourForThree (ssl : OpenSsl) (limit : ℕ) : Prop :=
  ∀ bytes : Bytes, bytes.length ≤ limit →
    (ssl.base64Write bytes).length = (bytes.length + 2) / 3 * 4

/-- The filter over a memory `BIO` that takes what is made of `limit` characters.  Of more,
as many as an `int` can count, it takes what is made of a front. -/
structure MemoryBio (ssl : OpenSsl) (limit : ℕ) : Prop where
  readsBack : ssl.ReadsBack limit
  writes : WritesFourForThree ssl limit
  fillsUp : ∀ bytes : Bytes, limit < bytes.length → bytes.length < 2147483648 →
    ∃ front, front <+: bytes ∧ front.length ≤ limit ∧
      ssl.base64Write bytes = ssl.base64Write front

theorem tabulated_writesFourForThree (t : Tables) : WritesFourForThree t.tabulated t.memory := by
  intro bytes hle
  show (Base64.encode (bytes.take t.memory)).length = _
  rw [List.take_of_length_le hle, Base64.length_encode]

theorem tabulated_memoryBio (t : Tables) : MemoryBio t.tabulated t.memory where
  readsBack := t.tabulated_readsBack
  writes := tabulated_writesFourForThree t
  fillsUp := by
    intro bytes hfull hlt
    refine ⟨bytes.take t.memory, List.take_prefix _ _, List.length_take_le _ _, ?_⟩
    show Base64.encode (bytes.take t.memory) = Base64.encode ((bytes.take t.memory).take t.memory)
    rw [List.take_take, Nat.min_self]

/-! ## §2. A text that fits. -/

theorem staticCastInt_lt (n : ℕ) : staticCastInt n < 2147483648 := by
  unfold staticCastInt
  exact Int.bmod_lt (by decide)

section Fits

variable (hwrites : WritesFourForThree ssl limit)
include hwrites

/-- What is handed to the filter is as much of the text as the `int` says. -/
theorem encodeString_eq (data : Bytes) :
    encodeString ssl data = ssl.base64Write (data.take (staticCastInt data.length).toNat) := by
  unfold encodeString encode
  by_cases hpos : staticCastInt data.length ≤ 0
  · have hnil : ssl.base64Write [] = [] :=
      List.length_eq_zero_iff.mp (hwrites [] (Nat.zero_le limit))
    rw [if_pos hpos, Int.toNat_of_nonpos hpos, List.take_zero, hnil]
  · rw [if_neg hpos]

variable (hreads : ssl.ReadsBack limit)
include hreads

/-- What has been written is read back if its length is an `int`, and else thrown out. -/
theorem decodeString_written (hle : data.length ≤ limit) (hlt : data.length < 2147483648) :
    decodeString ssl (ssl.base64Write data) =
      if data.length ≤ 1610612733 then .ok data else .error (.thrown .badAlloc) := by
  have htext := hwrites data hle
  unfold decodeString decode
  rw [htext]
  by_cases hfits : data.length ≤ 1610612733
  · have hread := hreads data hle
    rw [htext] at hread
    rw [if_pos hfits, staticCastInt_of_lt (by omega), if_neg (by omega), Int.toNat_natCast,
      ← htext, List.take_length, htext, hread]
  · rw [if_neg hfits, if_pos (staticCastInt_neg (by omega) (by omega))]

/-- The same, of what has been encoded. -/
theorem decodeString_encodeString (hle : data.length ≤ limit) (hlt : data.length < 2147483648) :
    decodeString ssl (encodeString ssl data) =
      if data.length ≤ 1610612733 then .ok data else .error (.thrown .badAlloc) := by
  have hall : data.take (staticCastInt data.length).toNat = data := by
    rw [staticCastInt_of_lt hlt, Int.toNat_natCast, List.take_length]
  rw [encodeString_eq hwrites, hall, decodeString_written hwrites hreads hle hlt]

end Fits

/-! ## §3. Any text. -/

section Any

variable (hbio : MemoryBio ssl limit)
include hbio

/-- **What is encoded is a front of the text** that the memory takes and an `int` counts. -/
theorem encodeString_front (data : Bytes) :
    ∃ front, front <+: data ∧ front.length ≤ limit ∧ front.length < 2147483648 ∧
      encodeString ssl data = ssl.base64Write front := by
  have hint := staticCastInt_lt data.length
  have hlength := List.length_take_le (staticCastInt data.length).toNat data
  have hread := List.take_prefix (staticCastInt data.length).toNat data
  rw [encodeString_eq hbio.writes]
  by_cases hle : (data.take (staticCastInt data.length).toNat).length ≤ limit
  · exact ⟨_, hread, hle, by omega, rfl⟩
  · obtain ⟨front, hfront, hfits, hsame⟩ := hbio.fillsUp _ (Nat.lt_of_not_le hle) (by omega)
    have hshorter := hfront.length_le
    exact ⟨front, hfront.trans hread, hfits, by omega, hsame⟩

/-- **What comes back is a front of the text**, of at most 1610612733 characters. -/
theorem front_of_decodeString {front : Bytes}
    (h : decodeString ssl (encodeString ssl data) = .ok front) :
    front <+: data ∧ front.length ≤ limit ∧ front.length ≤ 1610612733 := by
  obtain ⟨front', hfront, hfits, hlt, hencoded⟩ := encodeString_front hbio data
  rw [hencoded, decodeString_written hbio.writes hbio.readsBack hfits hlt] at h
  split at h
  next hle =>
    rw [← Except.ok.inj h]
    exact ⟨hfront, hfits, hle⟩
  next => exact absurd h (by simp)

/-- **A text comes back exactly if the memory takes it and it has at most 1610612733
characters**; of any text nothing but a front comes back. -/
theorem round_trip_iff (data : Bytes) :
    (decodeString ssl (encodeString ssl data) = .ok data ↔
      data.length ≤ limit ∧ data.length ≤ 1610612733) ∧
    ∀ front, decodeString ssl (encodeString ssl data) = .ok front → front <+: data := by
  refine ⟨⟨?_, ?_⟩, ?_⟩
  · intro h
    exact (front_of_decodeString hbio h).2
  · intro h
    rw [decodeString_encodeString hbio.writes hbio.readsBack h.1 (by omega), if_pos h.2]
  · intro front h
    exact (front_of_decodeString hbio h).1

end Any

/-- Three characters. -/
theorem three_characters_come_back :
    (decodeString sample.tabulated (encodeString sample.tabulated [0, 255, 58])
        = .ok [0, 255, 58] ↔
      [(0 : UInt8), 255, 58].length ≤ sample.memory ∧
        [(0 : UInt8), 255, 58].length ≤ 1610612733) ∧
    ∀ front, decodeString sample.tabulated (encodeString sample.tabulated [0, 255, 58])
      = .ok front → front <+: [0, 255, 58] :=
  round_trip_iff (tabulated_memoryBio sample) [0, 255, 58]

end EzBakeCommon.Security.Base64Util
