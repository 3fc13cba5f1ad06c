/-
  EzBakeCommon.Timed.Lifetime — how long an entry is treated as unexpired.

  The timestamp of an entry is the whole second in which it was put, and the
  clock that it is compared with counts microseconds.  So an entry put in the
  middle of a second lives shorter than the expiration by the part of the second
  that had passed: a lookup treats it as unexpired exactly before the expiration
  after the START of that second (`session_lifetime`).
-/
import EzBakeCommon.Timed.Staleness

namespace EzBakeCommon.Timed

open Library
open EzBakeCommon.Lru (KeyView LRUCache WellFormed oldest)

variable {K V : Type*}

/-- The operation checks this entry against the clock, with the `m`th reading:
a lookup the oldest entry of the key, `getKey` every entry with the value up to
the first that is not expired. -/
def Examines [DecidableEq K] [DecidableEq V] (clock : Clock) (c : LRUTimedCache K V)
    (p : K × CacheValue V) (m : ℕ) : Op K V → Prop
  | .get k | .pop k => oldest k c.entries = some p ∧ m = c.readings
  | .getKey v => p.2.value = v ∧ ∃ passed rest, c.entries = passed ++ p :: rest ∧
      AllExpired clock c.expiration c.readings (holding v passed) ∧
      m = c.readings + (holding v passed).length
  | _ => False

/-- A lookup returns the value of the entry; `getKey` returns its key and looks
no further.  What is not popped is kept. -/
def TreatsAsUnexpired [DecidableEq K] [DecidableEq V] [LT K] [DecidableLT K] [LT V]
    [DecidableLT V] (clock : Clock) (c : LRUTimedCache K V) (p : K × CacheValue V) (m : ℕ)
    (call : Call K V) : Prop :=
  match call.op with
  | .get _ => (step clock c call).1 = .value (some p.2.value) ∧ p ∈ (step clock c call).2.entries
  | .pop _ => (step clock c call).1 = .value (some p.2.value)
  | .getKey _ => (step clock c call).1 = .key (some p.1) ∧
      (step clock c call).2.readings = m + 1 ∧ p ∈ (step clock c call).2.entries
  | _ => True

/-! ## §1. One examination. -/

section Lookup

variable [DecidableEq K] (clock : Clock) {c : LRUTimedCache K V} {p : K × CacheValue V}
  (view : KeyView K (CacheValue V))

theorem get_treats_iff [DecidableEq V] (hc : WellFormed c.toLRUCache) {k : K}
    (hp : oldest k c.entries = some p) :
    ((c.get clock view k).1 = some p.2.value ∧ p ∈ (c.get clock view k).2.entries) ↔
      (c.expired clock p.2.timestamp).1 = false := by
  cases he : (c.expired clock p.2.timestamp).1 with
  | true =>
      rw [get_expired clock view hp he]
      exact iff_of_false (fun h => absurd h.1 (by simp)) (by simp)
  | false =>
      refine iff_of_true ⟨?_, ?_⟩ rfl
      · rw [get_live clock view hp he]
      · rw [get_live_entries hc clock view hp he]
        exact ((c.asList hc).mem_renew_iff (Lru.oldest_mem hp)).mpr (Lru.oldest_mem hp)

theorem pop_treats_iff {k : K} (hp : oldest k c.entries = some p) :
    (c.pop clock view k).1 = some p.2.value ↔ (c.expired clock p.2.timestamp).1 = false := by
  rw [pop_some clock view hp]
  cases (c.expired clock p.2.timestamp).1 <;> simp

end Lookup

section Loop

variable [DecidableEq V] [LT K] [DecidableLT K] [LT V] [DecidableLT V] (clock : Clock)

/-- The loop passes entries that are all expired when it examines them. -/
theorem getKeyLoop_passes (v : V) (l : List (K × CacheValue V)) :
    ∀ (passed : List (K × CacheValue V)) (c : LRUTimedCache K V) (set : List (K × CacheValue V)),
      AllExpired clock c.expiration c.readings (holding v passed) →
      ∃ c' : LRUTimedCache K V, LRUTimedCache.getKeyLoop clock v (passed ++ l) c set
          = LRUTimedCache.getKeyLoop clock v l c' ((holding v passed).foldl
              (fun set entry => OrderedSet.insert LRUCache.entryLt entry set) set) ∧
        c'.toLRUCache = c.toLRUCache ∧ c'.expiration = c.expiration ∧
        c'.readings = c.readings + (holding v passed).length := by
  intro passed
  induction passed with
  | nil => exact fun c set _ => ⟨c, rfl, rfl, rfl, rfl⟩
  | cons entry passed ih =>
      intro c set hexp
      by_cases hv : entry.2.value = v
      · have hhold : holding v (entry :: passed) = entry :: holding v passed :=
          List.filter_cons_of_pos (by simpa using hv)
        rw [hhold] at hexp ⊢
        have he : (c.expired clock entry.2.timestamp).1 = true := hexp.1
        have hread := c.expired_reads clock entry.2.timestamp he
        -- one reading later, with `entry` collected
        obtain ⟨c', hloop, hbase, hE, hreadings⟩ := ih (c.expired clock entry.2.timestamp).2
          (OrderedSet.insert LRUCache.entryLt entry set)
          (by rw [LRUTimedCache.expired_expiration, hread]; exact hexp.2)
        rw [LRUTimedCache.expired_base] at hbase
        rw [LRUTimedCache.expired_expiration] at hE
        refine ⟨c', ?_, hbase, hE, ?_⟩
        · rw [List.cons_append, getKeyLoop_expired clock _ set c hv he, hloop]
          rfl
        · rw [hreadings, hread, List.length_cons]
          omega
      · have hhold : holding v (entry :: passed) = holding v passed :=
          List.filter_cons_of_neg (by simpa using hv)
        rw [hhold] at hexp ⊢
        rw [List.cons_append, getKeyLoop_other clock _ set c hv]
        exact ih c set hexp

/-- Past an expired entry it finds a key only by a later reading. -/
theorem getKeyLoop_goes_on {v : V} {p : K × CacheValue V} (rest set : List (K × CacheValue V))
    (c : LRUTimedCache K V) (h0 : c.expiration ≠ 0) (hv : p.2.value = v)
    (he : (c.expired clock p.2.timestamp).1 = true) {k : K}
    (hkey : (LRUTimedCache.getKeyLoop clock v (p :: rest) c set).1 = some k) :
    c.readings + 1 < (LRUTimedCache.getKeyLoop clock v (p :: rest) c set).2.2.readings := by
  rw [getKeyLoop_expired clock rest set c hv he] at hkey ⊢
  obtain ⟨passed, rest', hend⟩ := getKeyLoop_spec clock v rest
    (c.expired clock p.2.timestamp).2 (OrderedSet.insert LRUCache.entryLt p set)
  rcases hend.stop with ⟨-, hnone, -⟩ | ⟨q, l, -, -, -, -, hlater⟩
  · rw [hnone] at hkey
    exact absurd hkey (by simp)
  · rw [hlater, c.expired_reads clock p.2.timestamp he, LRUTimedCache.expired_expiration, if_neg h0]
    omega

variable [DecidableEq K] {c : LRUTimedCache K V} {p : K × CacheValue V}
  (view : KeyView K (CacheValue V)) {v : V} {passed rest : List (K × CacheValue V)}

theorem getKey_treats_iff (hc : WellFormed c.toLRUCache) (h0 : c.expiration ≠ 0)
    (hv : p.2.value = v) (hsplit : c.entries = passed ++ p :: rest)
    (hexp : AllExpired clock c.expiration c.readings (holding v passed)) :
    ((c.getKey clock view v).1 = some p.1 ∧
        (c.getKey clock view v).2.readings = c.readings + (holding v passed).length + 1 ∧
        p ∈ (c.getKey clock view v).2.entries) ↔
      LRUTimedCache.expiredAt clock.toPosixTime c.expiration p.2.timestamp
        (clock.reading (c.readings + (holding v passed).length)) = false := by
  obtain ⟨c', hloop, hbase, hE, hreadings⟩ :=
    getKeyLoop_passes clock v (p :: rest) passed c [] hexp
  rw [← hsplit] at hloop
  -- the check of `p`, by the loop as it has come there
  have hcheck : (c'.expired clock p.2.timestamp).1
      = LRUTimedCache.expiredAt clock.toPosixTime c.expiration p.2.timestamp
        (clock.reading (c.readings + (holding v passed).length)) := by
    rw [LRUTimedCache.expired_fst, hE, hreadings]
  rw [← hcheck, ← hreadings]
  show ((LRUTimedCache.getKeyLoop clock v c.entries c []).1 = some p.1 ∧
    (LRUTimedCache.getKeyLoop clock v c.entries c []).2.2.readings = c'.readings + 1 ∧
    p ∈ (c.getKey clock view v).2.toLRUCache.entries) ↔ _
  rw [(getKey_base clock c view v).1, removeEach_entries hc, hloop]
  cases he : (c'.expired clock p.2.timestamp).1 with
  | false =>
      rw [getKeyLoop_live clock rest _ c' hv he]
      refine iff_of_true ⟨rfl, ?_, ?_⟩ rfl
      · rw [LRUTimedCache.expired_readings, if_neg (hE ▸ h0)]
      · -- what is removed stands before `p`, and nothing stands there twice
        have hp : p ∈ c.entries := by simp [hsplit]
        refine List.mem_filter.mpr ⟨hp, decide_eq_true ?_⟩
        intro hset
        rcases OrderedSet.mem_of_mem_foldl_insert id (holding v passed) hset with ⟨q, hq, rfl⟩ | h
        · have hnd := hc.nodup
          rw [hsplit] at hnd
          exact (List.nodup_append.mp hnd).2.2 q (List.mem_of_mem_filter hq) q
            List.mem_cons_self rfl
        · exact absurd h List.not_mem_nil
  | true =>
      refine iff_of_false ?_ (by simp)
      intro h
      obtain ⟨hkey, hread, -⟩ := h
      have hlater := getKeyLoop_goes_on clock rest _ c' (hE ▸ h0) hv he hkey
      omega

end Loop

/-! ## §2. Runs. -/

section Runs

variable [DecidableEq K] [DecidableEq V] [LT K] [DecidableLT K] [LT V] [DecidableLT V]
  (clock : Clock) {c : LRUTimedCache K V} {p : K × CacheValue V} {m : ℕ}

/-- An entry that is examined is treated as the test says. -/
theorem treats_iff (hc : WellFormed c.toLRUCache) (h0 : c.expiration ≠ 0) {call : Call K V}
    (hex : Examines clock c p m call.op) :
    TreatsAsUnexpired clock c p m call ↔
      LRUTimedCache.expiredAt clock.toPosixTime c.expiration p.2.timestamp (clock.reading m)
        = false := by
  obtain ⟨view, op⟩ := call
  cases op with
  | get k =>
      obtain ⟨hp, rfl⟩ := hex
      rw [← LRUTimedCache.expired_fst, ← get_treats_iff clock view hc hp]
      show Answer.value (c.get clock view k).1 = _ ∧ _ ↔ _
      rw [Answer.value.injEq]
      rfl
  | pop k =>
      obtain ⟨hp, rfl⟩ := hex
      rw [← LRUTimedCache.expired_fst, ← pop_treats_iff clock view hp]
      show Answer.value (c.pop clock view k).1 = _ ↔ _
      rw [Answer.value.injEq]
  | getKey v =>
      obtain ⟨hv, passed, rest, hsplit, hexp, rfl⟩ := hex
      rw [← getKey_treats_iff clock view hc h0 hv hsplit hexp]
      show Answer.key (c.getKey clock view v).1 = _ ∧ _ ↔ _
      rw [Answer.key.injEq]
      rfl
  | _ => exact hex.elim

/-- **Whatever has happened since an entry was put, a call that examines it treats it
as unexpired exactly before the expiration after the whole second of the `put`.** -/
theorem session_lifetime (hT : clock.Counts) (capacity : UInt32) (expiration : UInt64)
    (h0 : expiration ≠ 0) (calls : List (Call K V)) (built : Instant)
    (hbuilt : Built clock (session clock capacity expiration calls).history p built)
    (hfit : 210866803200000000 + (built.micros / 1000000 + expiration.toNat) * 1000000
      < 9223372036854775808)
    (call : Call K V)
    (hex : Examines clock (session clock capacity expiration calls).state p m call.op) :
    TreatsAsUnexpired clock (session clock capacity expiration calls).state p m call ↔
      (clock.reading m).micros < (built.micros / 1000000 + expiration.toNat) * 1000000 := by
  have hr := session_reachable clock capacity expiration calls
  have hE : (session clock capacity expiration calls).state.expiration ≠ 0 := by
    rw [hr.expiration]
    exact h0
  rw [treats_iff clock hr.base.wellFormed hE hex, hr.expiration]
  obtain ⟨-, -, -, -, hcv⟩ := hbuilt
  have hts : p.2.timestamp.toNat = built.micros / 1000000 := by
    rw [hcv]
    exact new_timestamp_toNat hT built p.2.value
  rw [← hts] at hfit
  rw [← Bool.not_eq_true, expiredAt_iff hT h0 hfit (clock.reading m), hts, not_le]

end Runs

/-- A clock read at 0.9 s and then at 1.0 s. -/
def acrossTheSecond : Clock := Clock.ofGaps PosixTime.counting [900000, 100000] (by decide)

/-- A clock read at 0.9 s and then again in the same second. -/
def sameSecond : Clock := Clock.ofGaps PosixTime.counting [900000, 99999] (by decide)

/-- With an expiration of 1 s: a value put at 0.9 s. -/
def onePut : List (Call ℕ ℕ) := [⟨KeyView.listOrder, .put 1 7⟩]

/-- It is served until the second is over. -/
theorem served_in_the_same_second :
    TreatsAsUnexpired sameSecond (session sameSecond 0 1 onePut).state (1, ⟨0, 7⟩) 1
      ⟨KeyView.listOrder, .get 1⟩ :=
  (session_lifetime sameSecond PosixTime.counting_counts 0 1 (by decide) onePut
    (sameSecond.reading 0) ⟨_, List.mem_cons_self, rfl, rfl, rfl⟩ (by decide)
    ⟨KeyView.listOrder, .get 1⟩ ⟨rfl, rfl⟩).mpr (by decide)

/-- A tenth of a second after the `put` it is not: it has expired with the second. -/
theorem expires_a_tenth_later :
    ¬ ∀ (p : ℕ × CacheValue ℕ) (built : Instant) (m : ℕ) (call : Call ℕ ℕ),
      Built acrossTheSecond (session acrossTheSecond 0 1 onePut).history p built →
      Examines acrossTheSecond (session acrossTheSecond 0 1 onePut).state p m call.op →
      (acrossTheSecond.reading m).micros < built.micros + 1000000 →
      TreatsAsUnexpired acrossTheSecond (session acrossTheSecond 0 1 onePut).state p m call := by
  intro h
  have hget := h (1, ⟨0, 7⟩) (acrossTheSecond.reading 0) 1 ⟨KeyView.listOrder, .get 1⟩
    ⟨_, List.mem_cons_self, rfl, rfl, rfl⟩ ⟨rfl, rfl⟩ (by decide)
  have hnone : (Answer.value none : Answer ℕ ℕ) = .value (some 7) := hget.1
  rw [Answer.value.injEq] at hnone
  exact absurd hnone (by simp)

end EzBakeCommon.Timed
