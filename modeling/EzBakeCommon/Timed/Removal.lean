/-
  EzBakeCommon.Timed.Removal — the removals of the timed cache.

  `remove(key)` is the one of the base class.  `remove(key, value)` cannot be:
  the value may be held under several timestamps.  It collects the entries in a
  set, ordered by value and then timestamp, and has the base class remove each.
  The set merges no two entries, so what is returned is what was taken out
  (`session_removals`).
-/
import EzBakeCommon.Lru.Removal
import EzBakeCommon.Timed.Views

namespace EzBakeCommon.Timed

open Library
open EzBakeCommon.Lru (KeyView LRUCache WellFormed underKey)

variable {K V : Type*}

/-- Both removals of the timed cache hand out exactly what they take, and change
nothing if nothing matches. -/
structure RemovesExactly [DecidableEq K] [DecidableEq V] [LT K] [DecidableLT K] [LT V]
    [DecidableLT V] (c : LRUTimedCache K V) : Prop where
  remove : ∀ (view : KeyView K (CacheValue V)) k, Removal (fun p => p.1 = k) c.entries
    ((c.remove view k).1.map (k, ·)) (c.remove view k).2.entries
  remove_absent : ∀ (view : KeyView K (CacheValue V)) k, (∀ p ∈ c.entries, p.1 ≠ k) →
    c.remove view k = ([], c)
  removeValue : ∀ (view : KeyView K (CacheValue V)) k v,
    Removal (fun p => userPair p = (k, v)) c.entries
      ((c.removeValue view k v).1.map (k, ·)) (c.removeValue view k v).2.entries
  removeValue_absent : ∀ (view : KeyView K (CacheValue V)) k v,
    (∀ p ∈ c.entries, userPair p ≠ (k, v)) → c.removeValue view k v = ([], c)

section Removals

variable [LinearOrder K] [LinearOrder V] (c : LRUTimedCache K V)
  (view : KeyView K (CacheValue V)) (k : K) (v : V)

/-- The key's entries with the value are the entries of the pair. -/
theorem filter_underKey (l : List (K × CacheValue V)) :
    (underKey k l).filter (fun p => p.2.value = v) = l.filter (fun p => userPair p = (k, v)) := by
  unfold underKey
  rw [List.filter_filter]
  refine List.filter_congr (fun p _ => ?_)
  rw [← Bool.decide_and]
  exact decide_eq_decide.mpr ((and_comm).trans (Prod.mk.injEq ..).symm.to_iff)

/-- **The set holds the entries of the pair, each of them once.** -/
theorem entriesToRemove_perm (hc : WellFormed c.toLRUCache) :
    (c.entriesToRemove view k v).Perm (c.entries.filter (fun p => userPair p = (k, v))) := by
  have horder : OrderedSet.StrictTotal
      (LRUCache.entryLt : K × CacheValue V → K × CacheValue V → Bool) :=
    OrderedSet.StrictTotal.pair OrderedSet.strictTotal_lt strictTotal_cacheValue
  -- the iterators that the loop keeps
  have hkept : (((c.toLRUCache.equalRange view k).filter
      (fun itr => (c.entries.get itr).2.value = v)).map c.entries.get).Perm
        (c.entries.filter (fun p => userPair p = (k, v))) := by
    rw [← filter_underKey]
    have hrange := (Lru.equalRange_perm c.toLRUCache view k).filter (fun p => p.2.value = v)
    rw [List.filter_map] at hrange
    exact hrange
  have hnodup := hkept.nodup_iff.mpr (hc.nodup.filter _)
  have hset := OrderedSet.foldl_insert_perm horder c.entries.get hnodup
  rw [List.foldl_filter] at hset
  simp only [decide_eq_true_eq] at hset
  exact hset.trans hkept

theorem removeValue_entries (hc : WellFormed c.toLRUCache) :
    (c.removeValue view k v).2.entries = c.entries.filter (fun p => ¬ userPair p = (k, v)) := by
  show (LRUTimedCache.removeEach view (c.entriesToRemove view k v) c.toLRUCache).entries = _
  rw [removeEach_entries hc]
  refine List.filter_congr (fun p hp => ?_)
  rw [decide_eq_decide, (entriesToRemove_perm c view k v hc).mem_iff, List.mem_filter]
  simp [hp]

theorem removeValue_removal (hc : WellFormed c.toLRUCache) :
    Removal (fun p => userPair p = (k, v)) c.entries
      ((c.removeValue view k v).1.map (k, ·)) (c.removeValue view k v).2.entries := by
  have hset := entriesToRemove_perm c view k v hc
  -- every entry of the set has the key
  have hkeys : ((c.removeValue view k v).1.map (k, ·)) = c.entriesToRemove view k v := by
    show ((c.entriesToRemove view k v).map Prod.snd).map (k, ·) = _
    rw [List.map_map]
    refine (List.map_congr_left ?_).trans (List.map_id _)
    intro p hp
    have hpair : userPair p = (k, v) := by simpa using List.of_mem_filter (hset.subset hp)
    show (k, p.2) = p
    rw [← show p.1 = k from congrArg Prod.fst hpair]
  rw [removeValue_entries c view k v hc, hkeys]
  exact removal_filter hset

theorem removeValue_of_absent (hc : WellFormed c.toLRUCache)
    (h : ∀ p ∈ c.entries, userPair p ≠ (k, v)) : c.removeValue view k v = ([], c) := by
  obtain ⟨hnil, -⟩ := (removeValue_removal c view k v hc).unmatched h
  have hset : c.entriesToRemove view k v = [] :=
    List.map_eq_nil_iff.mp (List.map_eq_nil_iff.mp hnil)
  unfold LRUTimedCache.removeValue
  rw [hset]
  rfl

end Removals

/-- **In every reachable state of either cache the removals return exactly what
they take out.** -/
theorem session_removals [LinearOrder K] [LinearOrder V] (clock : Clock) (capacity : UInt32)
    (expiration : UInt64) (calls : List (Lru.Call K V)) (timedCalls : List (Call K V)) :
    Lru.RemovesExactly (Lru.session capacity calls).state ∧
      RemovesExactly (session clock capacity expiration timedCalls).state := by
  have hbase := Lru.session_reachable capacity calls
  have htimed := session_reachable clock capacity expiration timedCalls
  have hc := htimed.base.wellFormed
  have hremoves := Lru.removesExactly hc
  refine ⟨Lru.removesExactly hbase.wellFormed, ?_⟩
  constructor
  case remove => exact hremoves.remove
  case remove_absent =>
    intro view k h
    unfold LRUTimedCache.remove
    rw [hremoves.remove_absent view k h]
    rfl
  case removeValue => exact fun view k v => removeValue_removal _ view k v hc
  case removeValue_absent => exact fun view k v => removeValue_of_absent _ view k v hc

end EzBakeCommon.Timed
