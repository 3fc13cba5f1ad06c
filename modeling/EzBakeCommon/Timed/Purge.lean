/-
  EzBakeCommon.Timed.Purge — what getKey finds, and what it takes out.

  The loop examines the entries with the value one after another, each at a
  reading of its own, and stops at the first that is not expired.  What it has
  passed goes into a `std::set` and is removed through the key view afterwards,
  by equality of key, value and second.  No entry is held twice, so each removal
  hits the entry that was examined and no other (`session_getKey`).
-/
import EzBakeCommon.Timed.Views

namespace EzBakeCommon.Timed

open Library
open EzBakeCommon.Lru (KeyView LRUCache WellFormed)

variable {K V : Type*}

/-- The `i`th entry with the value is expired when the loop examines it, after
as many readings as there are entries before it. -/
def ExpiredWhenExamined (clock : Clock) (c : LRUTimedCache K V) (i : ℕ)
    (p : K × CacheValue V) : Prop :=
  LRUTimedCache.expiredAt clock.toPosixTime c.expiration p.2.timestamp
    (clock.reading (c.readings + i)) = true

theorem AllExpired.examined {clock : Clock} {expiration : UInt64} :
    ∀ {n : ℕ} {l : List (K × CacheValue V)}, AllExpired clock expiration n l →
      ∀ i p, l[i]? = some p →
        LRUTimedCache.expiredAt clock.toPosixTime expiration p.2.timestamp
          (clock.reading (n + i)) = true
  | _, [], _, i, p, hp => by simp at hp
  | n, q :: l, h, 0, p, hp => by
      obtain rfl : q = p := by simpa using hp
      exact h.1
  | n, q :: l, h, i + 1, p, hp => by
      have hrest := h.2.examined i p (by simpa using hp)
      rwa [show n + 1 + i = n + (i + 1) from by omega] at hrest

/-- The loop passes the first `m` entries with the value, all expired when
examined, and returns the key of the next, which is not, or nothing if there is
none.  The passed ones are gone and nothing else has moved. -/
structure GetKeyExact [DecidableEq K] [DecidableEq V] (clock : Clock) (c : LRUTimedCache K V)
    (v : V) (result : Option K × LRUTimedCache K V) (m : ℕ) : Prop where
  passed : ∀ i p, i < m → (holding v c.entries)[i]? = some p → ExpiredWhenExamined clock c i p
  stop : (result.1 = none ∧ m = (holding v c.entries).length) ∨
    ∃ p, (holding v c.entries)[m]? = some p ∧ ¬ ExpiredWhenExamined clock c m p ∧
      result.1 = some p.1
  none_iff : result.1 = none ↔
    ∀ i p, (holding v c.entries)[i]? = some p → ExpiredWhenExamined clock c i p
  entries : result.2.entries = c.entries.filter (fun p => p ∉ (holding v c.entries).take m)

section Exact

variable [LinearOrder K] [LinearOrder V] (clock : Clock) {c : LRUTimedCache K V}
  (view : KeyView K (CacheValue V)) {v : V} {passed rest : List (K × CacheValue V)}

/-- What `getKey` takes out is what the loop has passed. -/
theorem getKey_entries (hc : WellFormed c.toLRUCache)
    (h : LoopEnd clock v c c.entries [] (LRUTimedCache.getKeyLoop clock v c.entries c [])
      passed rest) :
    (c.getKey clock view v).2.entries = c.entries.filter (fun p => p ∉ holding v passed) := by
  have hlt : OrderedSet.StrictTotal
      (LRUCache.entryLt : K × CacheValue V → K × CacheValue V → Bool) :=
    OrderedSet.StrictTotal.pair OrderedSet.strictTotal_lt strictTotal_cacheValue
  -- the set holds what was collected, no more and no less
  have hmem : ∀ p, p ∈ (LRUTimedCache.getKeyLoop clock v c.entries c []).2.1 ↔
      p ∈ holding v passed := by
    intro p
    have hset := OrderedSet.mem_foldl_insert hlt (y := p) id (holding v passed) []
    rw [h.collected]
    simpa using hset
  rw [(getKey_base clock c view v).1, removeEach_entries hc]
  refine List.filter_congr (fun p _ => ?_)
  rw [decide_eq_decide, hmem]

theorem getKey_exact (hc : WellFormed c.toLRUCache)
    (h : LoopEnd clock v c c.entries [] (LRUTimedCache.getKeyLoop clock v c.entries c [])
      passed rest) :
    GetKeyExact clock c v (c.getKey clock view v) (holding v passed).length := by
  -- the entries with the value, those the loop has passed first
  have hsplit : holding v c.entries = holding v passed ++ holding v rest := by
    rw [h.split]
    exact List.filter_append ..
  have hpassed : ∀ i p, i < (holding v passed).length →
      (holding v c.entries)[i]? = some p → ExpiredWhenExamined clock c i p := by
    intro i p hi hp
    rw [hsplit, List.getElem?_append_left hi] at hp
    exact h.expired.examined i p hp
  have hkey : (c.getKey clock view v).1
      = (LRUTimedCache.getKeyLoop clock v c.entries c []).1 := rfl
  -- the loop ends with the list, or at an entry that is not expired
  have hstop : (holding v c.entries = holding v passed ∧ (c.getKey clock view v).1 = none) ∨
      ∃ p, (holding v c.entries)[(holding v passed).length]? = some p ∧
        ¬ ExpiredWhenExamined clock c (holding v passed).length p ∧
        (c.getKey clock view v).1 = some p.1 := by
    rcases h.stop with ⟨hrest, hnone, -⟩ | ⟨p, rest', hrest, hv, hsome, he, -⟩
    · refine Or.inl ⟨?_, hkey.trans hnone⟩
      rw [hsplit, hrest]
      exact List.append_nil _
    · have hhead : holding v (p :: rest') = p :: holding v rest' :=
        List.filter_cons_of_pos (by simpa using hv)
      refine Or.inr ⟨p, ?_, by simp [ExpiredWhenExamined, he], hkey.trans hsome⟩
      rw [hsplit, hrest, hhead]
      simp
  constructor
  case passed => exact hpassed
  case stop =>
    rcases hstop with ⟨hall, hnone⟩ | hstop
    · exact Or.inl ⟨hnone, congrArg List.length hall.symm⟩
    · exact Or.inr hstop
  case none_iff =>
    rcases hstop with ⟨hall, hnone⟩ | ⟨p, hp, hlive, hsome⟩
    · refine iff_of_true hnone (fun i q hq => hpassed i q ?_ hq)
      obtain ⟨hi, -⟩ := List.getElem?_eq_some_iff.mp hq
      rwa [hall] at hi
    · rw [hsome]
      exact iff_of_false (by simp) (fun hexp => hlive (hexp _ p hp))
  case entries =>
    rw [getKey_entries clock view hc h, hsplit, List.take_left]

end Exact

/-- **In every state of a session `getKey` is exact**: it returns the key of the
least recently used entry with the value that is unexpired when examined, and
purges the expired ones before it. -/
theorem session_getKey [LinearOrder K] [LinearOrder V] (clock : Clock) (capacity : UInt32)
    (expiration : UInt64) (calls : List (Call K V)) (view : KeyView K (CacheValue V)) (v : V) :
    ∃ m, GetKeyExact clock (session clock capacity expiration calls).state v
      ((session clock capacity expiration calls).state.getKey clock view v) m := by
  have hc := (session_reachable clock capacity expiration calls).base.wellFormed
  obtain ⟨passed, rest, h⟩ := getKeyLoop_spec clock v
    (session clock capacity expiration calls).state.entries
    (session clock capacity expiration calls).state []
  exact ⟨(holding v passed).length, getKey_exact clock view hc h⟩

end EzBakeCommon.Timed
