/-
  EzBakeCommon.Timed.Duplicates — putting a pair that is held already.

  `LRUCache::put` replaces a duplicate pair, and finds it with `==`.  In the
  timed cache the values are `CacheValue`s, whose `==` compares timestamps too:
  a pair put again in a later second is no duplicate, and both entries stay,
  unless the cache is full and the older entry happens to be the one evicted.
  That is the only exception (`session_duplicates`).
-/
import EzBakeCommon.Timed.Refinement
import EzBakeCommon.Lru.Law

namespace EzBakeCommon.Timed

open Library
open EzBakeCommon.Lru (KeyView LRUCache WellFormed)

variable {K V : Type*}

/-- No pair of the user is held twice. -/
def Distinct (l : List (K × CacheValue V)) : Prop := (l.map userPair).Nodup

variable [DecidableEq K] [DecidableEq V]

/-- The contract of `put` after an event: no pair is held twice, and putting a
held pair has replaced its entry by the new one, at the end of the list, and
left all others where they were. -/
structure ReplacesDuplicate (clock : Clock)
    (e : Event (LRUTimedCache K V) (Call K V) (Answer K V)) : Prop where
  distinct : Distinct e.after.entries
  replaced : ∀ k v, e.call.op = .put k v → ∀ p ∈ e.before.entries, userPair p = (k, v) →
    e.after.entries = e.before.entries.filter (fun q => q ≠ p) ++
        [(k, CacheValue.new clock.toPosixTime (e.before.now clock) v)] ∧
      e.after.toLRUCache.size = e.before.toLRUCache.size

/-- Any entry of the pair that is put was made in the same second, or is the
one that a full cache evicts. -/
def SameSecondOrEvicted (clock : Clock)
    (e : Event (LRUTimedCache K V) (Call K V) (Answer K V)) : Prop :=
  ∀ k v, e.call.op = .put k v → ∀ p ∈ e.before.entries, userPair p = (k, v) →
    p.2.timestamp = (CacheValue.new clock.toPosixTime (e.before.now clock) v).timestamp ∨
      (e.before.toLRUCache.isFull = true ∧ e.before.entries.head? = some p)

/-! ## §1. One `put`. -/

section Put

variable {clock : Clock} {c : LRUTimedCache K V} (hc : WellFormed c.toLRUCache)
  (view : KeyView K (CacheValue V)) {k : K} {v : V} {p : K × CacheValue V}

omit [DecidableEq K] [DecidableEq V] in
theorem distinct_iff {l : List (K × CacheValue V)} (hl : l.Nodup) :
    Distinct l ↔ ∀ p ∈ l, ∀ q ∈ l, userPair p = userPair q → p = q :=
  List.nodup_map_iff_inj_on hl

omit [DecidableEq K] [DecidableEq V] in
/-- An entry of the pair with the timestamp of the new entry is the new entry. -/
theorem eq_new {cv : CacheValue V} (hup : userPair p = (k, cv.value))
    (hts : p.2.timestamp = cv.timestamp) : p = (k, cv) := by
  obtain ⟨k', ⟨ts, w⟩⟩ := p
  have hk : k' = k := congrArg Prod.fst hup
  have hw : w = cv.value := congrArg Prod.snd hup
  have hts : ts = cv.timestamp := hts
  rw [hk, hw, hts]

include hc

/-- A head that is dropped is filtered out. -/
theorem tail_eq_filter {l : List (K × CacheValue V)} (hl : c.entries = p :: l) :
    c.entries.tail = c.entries.filter (fun q => q ≠ p) := by
  have hnd := hc.nodup
  rw [hl] at hnd ⊢
  have hp : p ∉ l := (List.nodup_cons.mp hnd).1
  rw [List.tail_cons, List.filter_cons_of_neg (by simp)]
  symm
  refine List.filter_eq_self.mpr ?_
  intro q hq
  simp only [ne_eq, decide_not, Bool.not_eq_true', decide_eq_false_iff_not]
  intro hqp
  exact hp (hqp ▸ hq)

/-- **The condition is enough.** -/
theorem put_replaces (hd : Distinct c.entries) (hp : p ∈ c.entries)
    (hup : userPair p = (k, v))
    (hcond : p.2.timestamp = (CacheValue.new clock.toPosixTime (c.now clock) v).timestamp ∨
      (c.toLRUCache.isFull = true ∧ c.entries.head? = some p)) :
    (c.put clock view k v).entries = c.entries.filter (fun q => q ≠ p) ++
      [(k, CacheValue.new clock.toPosixTime (c.now clock) v)] := by
  rw [put_entries hc]
  by_cases hnew : (k, CacheValue.new clock.toPosixTime (c.now clock) v) ∈ c.entries
  · -- the base class finds a duplicate, and it can only be `p`
    have hpnew := (distinct_iff hc.nodup).mp hd p hp _ hnew hup
    rw [RecencyList.place_live _ hnew, ← hpnew]
    show (RecencyList.discard (c.asList hc) p).items ++ [p] = _
    rw [RecencyList.discard_eq_filter]
    rfl
  · rcases hcond with hts | ⟨hfull, hhead⟩
    · exact absurd (eq_new hup hts ▸ hp) hnew
    · -- the base class finds none, and evicts `p`
      obtain ⟨hcap, hle⟩ := (Lru.isFull_iff hc).mp hfull
      rw [RecencyList.place_full _ hnew hcap hle]
      obtain ⟨l, hl⟩ := List.head?_eq_some_iff.mp hhead
      show c.entries.tail ++ _ = _
      rw [tail_eq_filter hc hl]

/-- **The condition is necessary.** -/
theorem condition_of_put_replaces (hd : Distinct c.entries) (hp : p ∈ c.entries)
    (hup : userPair p = (k, v))
    (hput : (c.put clock view k v).entries = c.entries.filter (fun q => q ≠ p) ++
      [(k, CacheValue.new clock.toPosixTime (c.now clock) v)]) :
    p.2.timestamp = (CacheValue.new clock.toPosixTime (c.now clock) v).timestamp ∨
      (c.toLRUCache.isFull = true ∧ c.entries.head? = some p) := by
  by_cases hnew : (k, CacheValue.new clock.toPosixTime (c.now clock) v) ∈ c.entries
  · -- the new entry was held: it is the one entry of the pair
    left
    rw [(distinct_iff hc.nodup).mp hd p hp _ hnew hup]
  · right
    rw [put_entries hc] at hput
    have hlen := congrArg List.length hput
    by_cases hfull : c.capacity.toNat ≠ 0 ∧ c.capacity.toNat ≤ c.entries.length
    · -- `put` has dropped the head, so the head is what was replaced
      refine ⟨(Lru.isFull_iff hc).mpr hfull, ?_⟩
      rw [RecencyList.place_full _ hnew hfull.1 hfull.2] at hput
      have htail : c.entries.tail = c.entries.filter (fun q => q ≠ p) :=
        List.append_cancel_right hput
      cases hl : c.entries with
      | nil =>
          rw [hl] at hp
          exact absurd hp List.not_mem_nil
      | cons q l =>
          rw [List.head?_cons]
          by_contra hqp
          have hqp : q ≠ p := fun h => hqp (congrArg some h)
          -- the head would pass the filter, and it is not in the tail
          have hq : q ∈ c.entries.tail := by
            rw [htail, hl]
            exact List.mem_filter.mpr ⟨List.mem_cons_self, by simpa using hqp⟩
          have hnd := hc.nodup
          rw [hl] at hnd hq
          exact (List.nodup_cons.mp hnd).1 hq
    · -- with room for it the new entry makes the list longer
      exfalso
      rw [RecencyList.place_room _ hnew (fun h0 => not_le.mp (fun hle => hfull ⟨h0, hle⟩))] at hlen
      have hlt : (c.entries.filter (fun q => q ≠ p)).length < c.entries.length :=
        List.length_filter_lt_length_iff_exists.mpr ⟨p, hp, by simp⟩
      rw [List.length_append, List.length_append] at hlen
      have hitems : (c.asList hc).items.length = c.entries.length := rfl
      omega

/-- Replacing the entry of a pair does not hold it twice; nor does putting a
pair that is not held. -/
theorem put_distinct (hd : Distinct c.entries)
    (hput : ∀ p ∈ c.entries, userPair p = (k, v) →
      (c.put clock view k v).entries = c.entries.filter (fun q => q ≠ p) ++
        [(k, CacheValue.new clock.toPosixTime (c.now clock) v)]) :
    Distinct (c.put clock view k v).entries := by
  have hafter : (c.put clock view k v).entries.Nodup := by
    rw [put_entries hc]
    exact RecencyList.nodup _
  -- whatever the new list holds but the new entry is an entry of another pair
  have hother : ∀ q ∈ (c.put clock view k v).entries,
      q = (k, CacheValue.new clock.toPosixTime (c.now clock) v) ∨
        (q ∈ c.entries ∧ userPair q ≠ (k, v)) := by
    intro q hq
    by_cases hheld : ∃ p ∈ c.entries, userPair p = (k, v)
    · obtain ⟨p, hp, hup⟩ := hheld
      rw [hput p hp hup, List.mem_append, List.mem_singleton, List.mem_filter] at hq
      rcases hq with ⟨hq, hqp⟩ | hq
      · right
        refine ⟨hq, fun hqup => ?_⟩
        have hqp : q ≠ p := by simpa using hqp
        exact hqp ((distinct_iff hc.nodup).mp hd q hq p hp (hqup.trans hup.symm))
      · exact Or.inl hq
    · rw [put_entries hc] at hq
      rcases RecencyList.mem_of_mem_place _ hq with hq | hq
      · exact Or.inl hq
      · exact Or.inr ⟨hq, fun hqup => hheld ⟨q, hq, hqup⟩⟩
  rw [distinct_iff hafter]
  intro q hq q' hq' heq
  -- two entries of one pair are both new or both old
  rcases hother q hq with rfl | ⟨hq, hqup⟩
  · rcases hother q' hq' with rfl | ⟨-, hqup'⟩
    · rfl
    · exact absurd heq.symm hqup'
  · rcases hother q' hq' with rfl | ⟨hq', -⟩
    · exact absurd heq hqup
    · exact (distinct_iff hc.nodup).mp hd q hq q' hq' heq

/-- An entry replaced by another leaves the size as it was. -/
theorem replaced_size (hp : p ∈ c.entries) {new : K × CacheValue V}
    {c' : LRUTimedCache K V} (h : c'.entries = c.entries.filter (fun q => q ≠ p) ++ [new]) :
    c'.toLRUCache.size = c.toLRUCache.size := by
  have hlen := (c.asList hc).length_discard hp
  rw [RecencyList.discard_eq_filter] at hlen
  unfold LRUCache.size
  rw [h, List.length_append, List.length_singleton]
  exact congrArg UInt32.ofNat hlen

end Put

/-! ## §2. Runs. -/

variable [LT K] [DecidableLT K] [LT V] [DecidableLT V] (clock : Clock)

/-- One event, from a cache that holds no pair twice. -/
theorem event_replaces_iff {c : LRUTimedCache K V} (hc : WellFormed c.toLRUCache)
    (hafter : ∀ call : Call K V, WellFormed (step clock c call).2.toLRUCache)
    (hd : Distinct c.entries) (call : Call K V) :
    ReplacesDuplicate clock ((machine clock K V).event c call) ↔
      SameSecondOrEvicted clock ((machine clock K V).event c call) := by
  obtain ⟨view, op⟩ := call
  constructor
  · intro h k v hop p hp hup
    obtain rfl : op = .put k v := hop
    exact condition_of_put_replaces hc view hd hp hup (h.replaced k v rfl p hp hup).1
  · intro hcond
    have hput : ∀ k v, op = .put k v → ∀ p ∈ c.entries, userPair p = (k, v) →
        (c.put clock view k v).entries = c.entries.filter (fun q => q ≠ p) ++
          [(k, CacheValue.new clock.toPosixTime (c.now clock) v)] := by
      intro k v hop p hp hup
      exact put_replaces hc view hd hp hup (hcond k v hop p hp hup)
    refine ⟨?_, ?_⟩
    · show Distinct (step clock c ⟨view, op⟩).2.entries
      by_cases hop : ∃ k v, op = .put k v
      · obtain ⟨k, v, rfl⟩ := hop
        exact put_distinct hc view hd (hput k v rfl)
      · -- every other operation only takes entries out
        have hsub : ∀ p ∈ (step clock c ⟨view, op⟩).2.entries, p ∈ c.entries := by
          intro p hp
          rcases step_enters clock hc hp with hp | ⟨v, hput, -⟩
          · exact hp
          · exact absurd ⟨p.1, v, hput⟩ hop
        rw [distinct_iff (hafter _).nodup]
        intro p hp q hq
        exact (distinct_iff hc.nodup).mp hd p (hsub p hp) q (hsub q hq)
    · intro k v hop p hp hup
      obtain rfl : op = .put k v := hop
      exact ⟨hput k v rfl p hp hup, replaced_size hc hp (hput k v rfl p hp hup)⟩

/-- **A session keeps the contract of `put` exactly if every pair it puts again
is put again in the same second, or from the front of a full cache.** -/
theorem session_duplicates (capacity : UInt32) (expiration : UInt64) (calls : List (Call K V)) :
    (∀ e ∈ (session clock capacity expiration calls).history, ReplacesDuplicate clock e) ↔
      ∀ e ∈ (session clock capacity expiration calls).history, SameSecondOrEvicted clock e := by
  refine (machine clock K V).history_iff
    (J := fun c => Reachable capacity expiration c ∧ Distinct c.entries)
    ⟨Reachable.new, List.nodup_nil⟩ ?_ ?_ calls
  · intro c call hJ
    obtain ⟨hr, hd⟩ := hJ
    exact event_replaces_iff clock hr.base.wellFormed
      (fun call => (hr.step clock call).base.wellFormed) hd call
  · intro c call hJ h
    exact ⟨hJ.1.step clock call, h.distinct⟩

/-- A clock read at 0 s and at 1 s. -/
def secondLater : Clock := Clock.ofGaps PosixTime.counting [0, 1000000] (by decide)

/-- The same pair, put twice. -/
def putTwice : List (Call ℕ ℕ) :=
  [⟨KeyView.listOrder, .put 1 7⟩, ⟨KeyView.listOrder, .put 1 7⟩]

/-- One second later the pair is held twice. -/
theorem held_twice :
    ¬ ∀ e ∈ (session secondLater 0 5 putTwice).history, ReplacesDuplicate secondLater e := by
  intro h
  have hdistinct := (h _ List.mem_cons_self).distinct
  have htwice : ¬ ((session secondLater 0 5 putTwice).state.entries.map userPair).Nodup := by
    decide
  exact htwice hdistinct

end EzBakeCommon.Timed
