/-
  EzBakeCommon.Timed.Lookup — what a lookup serves when entries have expired.

  `get` and `pop` ask the base class for ONE entry, the least recently used of
  the key, and only then look at its timestamp; `getKey` goes on to the next
  entry instead.  So a lookup serves an unexpired entry whenever there is one
  exactly as long as the entry it asks for is one (`session_lookups`).  The
  order of use and the order of creation need not agree: a key put again later
  has its older entry first (`expired_entry_hides`).
-/
import EzBakeCommon.Timed.Refinement

namespace EzBakeCommon.Timed

open Library
open EzBakeCommon.Lru (KeyView LRUCache oldest)

variable {K V : Type*}

/-- Entry `(k, cv)` is in the cache and not expired at the next reading. -/
def Unexpired (clock : Clock) (c : LRUTimedCache K V) (k : K) (cv : CacheValue V) : Prop :=
  (k, cv) ∈ c.entries ∧ (c.expired clock cv.timestamp).1 = false

/-- The event looks up `k`. -/
def LooksUp (e : Event (LRUTimedCache K V) (Call K V) (Answer K V)) (k : K) : Prop :=
  e.call.op = .get k ∨ e.call.op = .pop k

/-- If the event looks up a key with an unexpired entry, it serves the value of
an unexpired entry. -/
def ServesUnexpired (clock : Clock) (e : Event (LRUTimedCache K V) (Call K V) (Answer K V)) :
    Prop :=
  ∀ k, LooksUp e k → (∃ cv, Unexpired clock e.before k cv) →
    ∃ cv, Unexpired clock e.before k cv ∧ e.answer = .value (some cv.value)

/-- If the event looks up a key with an unexpired entry, the least recently
used entry of the key is unexpired. -/
def OldestUnexpired [DecidableEq K] (clock : Clock)
    (e : Event (LRUTimedCache K V) (Call K V) (Answer K V)) : Prop :=
  ∀ k, LooksUp e k → (∃ cv, Unexpired clock e.before k cv) →
    ∃ cv, oldest k e.before.entries = some (k, cv) ∧
      (e.before.expired clock cv.timestamp).1 = false

variable [DecidableEq K] [DecidableEq V] [LT K] [DecidableLT K] [LT V] [DecidableLT V]
  (clock : Clock)

/-- One event: it serves an unexpired entry exactly if the oldest entry is one. -/
theorem event_serves_iff (c : LRUTimedCache K V) (call : Call K V) :
    ServesUnexpired clock ((machine clock K V).event c call) ↔
      OldestUnexpired clock ((machine clock K V).event c call) := by
  constructor
  · intro hserves k hk hlive
    obtain ⟨cv, -, hans⟩ := hserves k hk hlive
    -- the answer comes from the oldest entry, checked at this reading
    have hans : (step clock c call).1 = .value (some cv.value) := hans
    rw [(lookup_answer clock c call hk).1, Answer.value.injEq] at hans
    obtain ⟨⟨k', cv'⟩, hold, he, -⟩ := served_eq_some clock hans
    obtain rfl : k' = k := Lru.oldest_key hold
    exact ⟨cv', hold, he⟩
  · intro hold k hk hlive
    obtain ⟨cv, hcv, he⟩ := hold k hk hlive
    refine ⟨cv, ⟨Lru.oldest_mem hcv, he⟩, ?_⟩
    show (step clock c call).1 = _
    rw [(lookup_answer clock c call hk).1]
    unfold served
    have hcv : oldest k c.entries = some (k, cv) := hcv
    have he : (c.expired clock cv.timestamp).1 = false := he
    simp only [hcv, he, Bool.false_eq_true, if_false]

/-- **The lookups of a session are complete exactly if each of them finds an
unexpired entry at the front of its key.** -/
theorem session_lookups (capacity : UInt32) (expiration : UInt64) (calls : List (Call K V)) :
    (∀ e ∈ (session clock capacity expiration calls).history, ServesUnexpired clock e) ↔
      ∀ e ∈ (session clock capacity expiration calls).history, OldestUnexpired clock e := by
  exact (machine clock K V).history_iff (J := fun _ => True) trivial
    (fun c call _ => event_serves_iff clock c call) (fun _ _ _ _ => trivial) calls

/-- A clock read at 0 s, 10 s and 12 s. -/
def hidingClock : Clock := Clock.ofGaps PosixTime.counting [0, 10000000, 2000000] (by decide)

/-- With an expiration of 5 s: two values put under key 1 at 0 s and 10 s, and
a lookup at 12 s. -/
def hidingCalls : List (Call ℕ ℕ) :=
  [⟨KeyView.listOrder, .put 1 7⟩, ⟨KeyView.listOrder, .put 1 8⟩, ⟨KeyView.listOrder, .get 1⟩]

/-- The entry of 0 s hides the entry of 10 s. -/
theorem expired_entry_hides :
    ¬ ∀ e ∈ (session hidingClock 0 5 hidingCalls).history, ServesUnexpired hidingClock e := by
  intro h
  have hget := h _ List.mem_cons_self 1 (Or.inl rfl) ⟨⟨10, 8⟩, by decide, by decide⟩
  obtain ⟨cv, -, hans⟩ := hget
  have hnone : (Answer.value none : Answer ℕ ℕ) = .value (some cv.value) := hans
  rw [Answer.value.injEq] at hnone
  exact absurd hnone (by simp)

end EzBakeCommon.Timed
