/-
  EzBakeCommon.Timed.WithoutExpiration — with expiration 0 the timed cache is an LRUCache.

  Strip the timestamps of a timed cache whose expiration is 0, and an `LRUCache`
  of the user's pairs is left.  As long as `put` keeps its contract (no pair is
  put again in a later second while it is held, except from the front of a full
  cache), a timed session and the session of an `LRUCache` that makes the same
  calls stay in step, whatever the clock and whatever key views either meets:
  same pairs in the same order, same answers (`session_without_expiration`).
-/
import EzBakeCommon.Timed.Duplicates
import EzBakeCommon.Timed.Removal
import EzBakeCommon.Timed.Staleness

namespace EzBakeCommon.Timed

open Library
open EzBakeCommon.Lru (KeyView LRUCache oldest underKey WellFormed)

variable {K V : Type*}

/-! ## §1. The same calls and the same answers. -/

/-- The operation of the base class on the user's pairs; `expiration()` has no
counterpart. -/
def Op.asBase : Op K V → Option (Lru.Op K V)
  | .put k v => some (.put k v)
  | .get k => some (.get k)
  | .pop k => some (.pop k)
  | .remove k => some (.remove k)
  | .removeValue k v => some (.removeValue k v)
  | .clear => some .clear
  | .containsKey k => some (.containsKey k)
  | .containsValue v => some (.containsValue v)
  | .getKey v => some (.getKey v)
  | .entrySet => some .entrySet
  | .valueSet k => some (.valueSet k)
  | .isEmpty => some .isEmpty
  | .isFull => some .isFull
  | .size => some .size
  | .valueRange k => some (.valueRange k)
  | .capacity => some .capacity
  | .expiration => none

/-- The answers say the same of the user's pairs.  Lists of removed values are
compared as multisets, sets by their members; `remove(key, value)` returns a
list here and at most one value there. -/
def Answer.Strips : Answer K V → Lru.Answer K V → Prop
  | .done, .done => True
  | .value v, .value w => v = w
  | .values vs, .values ws => (vs.map CacheValue.value).Perm ws
  | .values vs, .value w => vs.map CacheValue.value = w.toList
  | .key k, .key l => k = l
  | .flag b, .flag b' => b = b'
  | .number n, .number m => n = m
  | .entrySet s, .entrySet s' => ∀ p, p ∈ s ↔ p ∈ s'
  | .valueSet s, .valueSet s' => (s = none ↔ s' = none) ∧
      ∀ vs ws, s = some vs → s' = some ws → ∀ v, v ∈ vs ↔ v ∈ ws
  | _, _ => False

/-- One cache without its timestamps is the other. -/
structure Stripped (c : LRUTimedCache K V) (c' : LRUCache K V) : Prop where
  capacity : c.capacity = c'.capacity
  entries : c.entries.map userPair = c'.entries

/-! ## §2. Lists without their timestamps. -/

section Lists

variable {l : List (K × CacheValue V)} {p : K × CacheValue V}

theorem map_filter_distinct [DecidableEq K] [DecidableEq V] (hd : Distinct l) (hp : p ∈ l) :
    (l.filter (fun q => q ≠ p)).map userPair
      = (l.map userPair).filter (fun q => q ≠ userPair p) := by
  rw [List.filter_map]
  refine congrArg (List.map userPair) (List.filter_congr (fun q hq => ?_))
  have hinj : userPair q = userPair p → q = p :=
    fun h => (List.nodup_map_iff_inj_on (List.Nodup.of_map _ hd)).mp hd q hq p hp h
  refine decide_eq_decide.mpr ⟨fun h => ?_, fun h => ?_⟩
  · exact fun hup => h (hinj hup)
  · exact fun hqp => h (congrArg userPair hqp)

theorem oldest_map [DecidableEq K] (k : K) :
    oldest k (l.map userPair) = (oldest k l).map userPair := List.find?_map ..

theorem underKey_map [DecidableEq K] (k : K) :
    underKey k (l.map userPair) = (underKey k l).map userPair := List.filter_map ..

end Lists

/-! ## §3. One operation. -/

section Operation

variable [DecidableEq K] [DecidableEq V] {c : LRUTimedCache K V} {c' : LRUCache K V}
  (hc : WellFormed c.toLRUCache) (hc' : WellFormed c') (hs : Stripped c c')
  (hd : Distinct c.entries) {k : K} {p : K × CacheValue V}
include hc hc' hs hd

theorem discard_strips (hp : p ∈ c.entries) :
    ((c.asList hc).discard p).items.map userPair
      = ((c'.asList hc').discard (userPair p)).items := by
  rw [RecencyList.discard_eq_filter, RecencyList.discard_eq_filter]
  refine (map_filter_distinct hd hp).trans ?_
  rw [hs.entries]
  rfl

theorem renew_strips (hp : p ∈ c.entries) :
    ((c.asList hc).renew p).items.map userPair = ((c'.asList hc').renew (userPair p)).items := by
  have hp' : userPair p ∈ c'.entries := hs.entries ▸ List.mem_map_of_mem hp
  rw [RecencyList.renew_live _ hp, RecencyList.renew_live _ hp', List.map_append]
  exact congrArg (· ++ [userPair p]) (discard_strips hc hc' hs hd hp)

/-- A `put` that keeps its contract is the `put` of the user's pair. -/
theorem put_strips (clock : Clock) (view : KeyView K (CacheValue V)) (v : V)
    (hcond : ∀ p ∈ c.entries, userPair p = (k, v) →
      p.2.timestamp = (CacheValue.new clock.toPosixTime (c.now clock) v).timestamp ∨
        (c.toLRUCache.isFull = true ∧ c.entries.head? = some p)) :
    (c.put clock view k v).entries.map userPair = ((c'.asList hc').place (k, v)).items := by
  by_cases hheld : ∃ p ∈ c.entries, userPair p = (k, v)
  · -- the entry of the pair is replaced
    obtain ⟨p, hp, hup⟩ := hheld
    have hp' : (k, v) ∈ c'.entries := by
      rw [← hs.entries, ← hup]
      exact List.mem_map_of_mem hp
    rw [put_replaces hc view hd hp hup (hcond p hp hup), RecencyList.place_live _ hp',
      List.map_append, map_filter_distinct hd hp, hup, hs.entries]
    have hdiscard := (c'.asList hc').discard_eq_filter (p := (k, v))
    exact congrArg (· ++ [(k, v)]) hdiscard.symm
  · -- there is none, and a full cache evicts the same entry
    have hnew : (k, CacheValue.new clock.toPosixTime (c.now clock) v) ∉ c.entries :=
      fun h => hheld ⟨_, h, rfl⟩
    have hnew' : (k, v) ∉ c'.entries := by
      rw [← hs.entries]
      intro h
      obtain ⟨p, hp, hup⟩ := List.mem_map.mp h
      exact hheld ⟨p, hp, hup⟩
    have hlength : c'.entries.length = c.entries.length := by
      rw [← hs.entries, List.length_map]
    rw [put_entries hc]
    by_cases hfull : c.capacity.toNat ≠ 0 ∧ c.capacity.toNat ≤ c.entries.length
    · have hfull' : c'.capacity.toNat ≠ 0 ∧ c'.capacity.toNat ≤ c'.entries.length := by
        rw [← hs.capacity, hlength]
        exact hfull
      rw [RecencyList.place_full _ hnew hfull.1 hfull.2,
        RecencyList.place_full _ hnew' hfull'.1 hfull'.2, List.map_append]
      show c.entries.tail.map userPair ++ _ = c'.entries.tail ++ _
      rw [← hs.entries, List.map_tail]
      rfl
    · have hroom : c.capacity.toNat ≠ 0 → c.entries.length < c.capacity.toNat :=
        fun h0 => Nat.lt_of_not_le (fun hle => hfull ⟨h0, hle⟩)
      have hroom' : c'.capacity.toNat ≠ 0 → c'.entries.length < c'.capacity.toNat := by
        rw [← hs.capacity, hlength]
        exact hroom
      rw [RecencyList.place_room _ hnew hroom, RecencyList.place_room _ hnew' hroom',
        List.map_append]
      exact congrArg (· ++ [(k, v)]) hs.entries

end Operation

/-! ## §4. One call. -/

section Call

variable [LinearOrder K] [LinearOrder V] {clock : Clock} {c : LRUTimedCache K V}
  {c' : LRUCache K V} (hs : Stripped c c')

section Lookups

variable (hc : WellFormed c.toLRUCache) (hc' : WellFormed c') (h0 : c.expiration = 0)
  (hd : Distinct c.entries) (view : KeyView K (CacheValue V)) (view' : KeyView K V) (k : K)
include hs h0

omit [LinearOrder K] [LinearOrder V] hs in
/-- No check finds anything expired. -/
theorem live_of_zero (timestamp : UInt64) : (c.expired clock timestamp).1 = false := by
  rw [LRUTimedCache.expired_fst, h0]
  exact LRUTimedCache.expiredAt_zero timestamp _ _

omit [LinearOrder V] in
/-- What is served is the value of the oldest entry. -/
theorem served_strips : served clock c k = (oldest k c'.entries).map Prod.snd := by
  rw [← hs.entries, oldest_map]
  unfold served
  cases hp : oldest k c.entries with
  | none => rfl
  | some p =>
      simp only [live_of_zero h0, Bool.false_eq_true, if_false]
      rfl

include hc hc' hd

theorem get_strips : (c.get clock view k).2.entries.map userPair
    = (Lru.Op.apply (c'.asList hc') (.get k)).items := by
  have hold : oldest k (c'.asList hc').items = (oldest k c.entries).map userPair := by
    rw [← oldest_map, hs.entries]
    rfl
  cases hp : oldest k c.entries with
  | none =>
      rw [hp] at hold
      rw [get_none_entries hc clock view hp, Lru.apply_get_none hold]
      exact hs.entries
  | some p =>
      rw [hp] at hold
      rw [get_live_entries hc clock view hp (live_of_zero h0 _), Lru.apply_get_some hold]
      exact renew_strips hc hc' hs hd (Lru.oldest_mem hp)

omit h0 in
theorem pop_strips : (c.pop clock view k).2.entries.map userPair
    = (Lru.Op.apply (c'.asList hc') (.pop k)).items := by
  have hold : oldest k (c'.asList hc').items = (oldest k c.entries).map userPair := by
    rw [← oldest_map, hs.entries]
    rfl
  cases hp : oldest k c.entries with
  | none =>
      rw [hp] at hold
      rw [pop_none_entries hc clock view hp, Lru.apply_pop_none hold]
      exact hs.entries
  | some p =>
      rw [hp] at hold
      rw [pop_some_entries hc clock view hp, Lru.apply_pop_some hold]
      exact discard_strips hc hc' hs hd (Lru.oldest_mem hp)

end Lookups

/-- What a call leaves, without its timestamps. -/
theorem entries_strips (hs : Stripped c c') (hc : WellFormed c.toLRUCache) (hc' : WellFormed c')
    (h0 : c.expiration = 0) (hd : Distinct c.entries) {call : Call K V}
    {call' : Lru.Call K V} (hop : call.op.asBase = some call'.op)
    (hcond : SameSecondOrEvicted clock ((machine clock K V).event c call)) :
    (step clock c call).2.entries.map userPair = (Lru.step c' call').2.entries := by
  rw [(Lru.step_refines hc' call').2]
  obtain ⟨view, op⟩ := call
  obtain ⟨view', op'⟩ := call'
  cases op with
  | put k v =>
      obtain rfl : Lru.Op.put k v = op' := Option.some.inj hop
      exact put_strips hc hc' hs hd clock view v (hcond k v rfl)
  | get k =>
      obtain rfl : Lru.Op.get k = op' := Option.some.inj hop
      exact get_strips hs hc hc' h0 hd view k
  | pop k =>
      obtain rfl : Lru.Op.pop k = op' := Option.some.inj hop
      exact pop_strips hs hc hc' hd view k
  | remove k =>
      obtain rfl : Lru.Op.remove k = op' := Option.some.inj hop
      show (c.entries.filter _).map userPair = c'.entries.filter _
      rw [← hs.entries, List.filter_map]
      rfl
  | removeValue k v =>
      obtain rfl : Lru.Op.removeValue k v = op' := Option.some.inj hop
      show (c.removeValue view k v).2.entries.map userPair
        = ((c'.asList hc').discard (k, v)).items
      rw [removeValue_entries c view k v hc, RecencyList.discard_eq_filter]
      show _ = c'.entries.filter _
      rw [← hs.entries, List.filter_map]
      rfl
  | clear =>
      obtain rfl : Lru.Op.clear = op' := Option.some.inj hop
      rfl
  | getKey v =>
      obtain rfl : Lru.Op.getKey v = op' := Option.some.inj hop
      show (c.getKey clock view v).2.entries.map userPair = c'.entries
      rw [(getKey_of_zero clock h0 view v).2, hs.entries]
  | containsValue v =>
      obtain rfl : Lru.Op.containsValue v = op' := Option.some.inj hop
      show (c.getKey clock view v).2.entries.map userPair = c'.entries
      rw [(getKey_of_zero clock h0 view v).2, hs.entries]
  | expiration => exact absurd hop (by simp [Op.asBase])
  | _ =>
      obtain rfl := Option.some.inj hop
      exact hs.entries

section Reads

variable (k : K)
include hs

omit [LinearOrder V] in
theorem underKey_strips : underKey k c'.entries = (underKey k c.entries).map userPair := by
  rw [← hs.entries, underKey_map]

theorem removeValue_strips (hc : WellFormed c.toLRUCache) (hd : Distinct c.entries)
    (view : KeyView K (CacheValue V)) (view' : KeyView K V) (v : V) :
    (c.removeValue view k v).1.map CacheValue.value = (c'.removeValue view' k v).1.toList := by
  have hset := (entriesToRemove_perm c view k v hc).map userPair
  -- at most one entry has the pair
  have hone : (c.entries.filter (fun p => userPair p = (k, v))).map userPair
      = if (k, v) ∈ c'.entries then [(k, v)] else [] := by
    rw [← Lru.filter_pair (hs.entries ▸ hd) (k, v), ← hs.entries, List.filter_map]
    rfl
  rw [hone] at hset
  have hvalues : (c.removeValue view k v).1.map CacheValue.value
      = ((c.entriesToRemove view k v).map userPair).map Prod.snd := by
    show ((c.entriesToRemove view k v).map Prod.snd).map _ = _
    rw [List.map_map, List.map_map]
    rfl
  rw [hvalues, Lru.removeValue_answer]
  by_cases hkv : (k, v) ∈ c'.entries
  · rw [if_pos hkv] at hset ⊢
    rw [List.perm_singleton.mp hset]
    rfl
  · rw [if_neg hkv] at hset ⊢
    rw [List.perm_nil.mp hset]
    rfl

theorem valueSet_strips (view : KeyView K (CacheValue V)) (view' : KeyView K V) :
    (Answer.valueSet (c.valueSet view k)).Strips
      (.valueSet (c'.valueSet view' k) : Lru.Answer K V) := by
  have hmem : ∀ v, (∃ cv, (k, cv) ∈ c.entries ∧ cv.value = v) ↔ (k, v) ∈ c'.entries := by
    intro v
    rw [← hs.entries, List.mem_map]
    constructor
    · rintro ⟨cv, hcv, rfl⟩
      exact ⟨(k, cv), hcv, rfl⟩
    · rintro ⟨⟨k', cv⟩, hcv, heq⟩
      obtain ⟨rfl, hv⟩ : k' = k ∧ cv.value = v := Prod.mk.inj heq
      exact ⟨cv, hcv, hv⟩
  by_cases hk : ∃ cv, (k, cv) ∈ c.entries
  · obtain ⟨set, hset, hin⟩ := mem_valueSet c view hk
    obtain ⟨cv, hcv⟩ := hk
    obtain ⟨set', hset', hin'⟩ := Lru.valueSet_of_held c' view'
      (OrderedSet.strictTotal_lt (α := V)) ⟨cv.value, (hmem _).mp ⟨cv, hcv, rfl⟩⟩
    rw [hset, hset']
    refine ⟨by simp, ?_⟩
    rintro vs ws hvs hws v
    obtain rfl := Option.some.inj hvs
    obtain rfl := Option.some.inj hws
    rw [hin, hin', hmem]
  · have hk' : ∀ v, (k, v) ∉ c'.entries := by
      intro v hv
      obtain ⟨cv, hcv, -⟩ := (hmem v).mpr hv
      exact hk ⟨cv, hcv⟩
    rw [valueSet_of_absent c view (fun cv hcv => hk ⟨cv, hcv⟩),
      Lru.valueSet_of_absent c' view' hk']
    exact ⟨by simp, fun vs ws hvs => absurd hvs (by simp)⟩

theorem entrySet_strips (view : KeyView K (CacheValue V)) (view' : KeyView K V) (p : K × V) :
    p ∈ c.entrySet view ↔ p ∈ c'.entrySet view' := by
  obtain ⟨k, v⟩ := p
  rw [mem_entrySet, Lru.mem_entrySet c' view' (OrderedSet.StrictTotal.pair
    OrderedSet.strictTotal_lt OrderedSet.strictTotal_lt), ← hs.entries, List.mem_map]
  constructor
  · rintro ⟨cv, hcv, rfl⟩
    exact ⟨(k, cv), hcv, rfl⟩
  · rintro ⟨⟨k', cv⟩, hcv, heq⟩
    obtain ⟨rfl, hv⟩ : k' = k ∧ cv.value = v := Prod.mk.inj heq
    exact ⟨cv, hcv, hv⟩

theorem getKey_strips (h0 : c.expiration = 0) (view : KeyView K (CacheValue V)) (v : V) :
    (c.getKey clock view v).1 = c'.getKey v := by
  rw [(getKey_of_zero clock h0 view v).1]
  unfold LRUCache.getKey
  rw [← hs.entries, List.find?_map, Option.map_map]
  rfl

omit [LinearOrder K] [LinearOrder V] in
theorem size_strips : c.toLRUCache.size = c'.size := by
  unfold LRUCache.size
  rw [← hs.entries, List.length_map]

end Reads

/-- The two answers say the same. -/
theorem answer_strips (hs : Stripped c c') (hc : WellFormed c.toLRUCache)
    (h0 : c.expiration = 0) (hd : Distinct c.entries) {call : Call K V}
    {call' : Lru.Call K V} (hop : call.op.asBase = some call'.op) :
    (step clock c call).1.Strips (Lru.step c' call').1 := by
  obtain ⟨view, op⟩ := call
  obtain ⟨view', op'⟩ := call'
  cases op with
  | put k v =>
      obtain rfl : Lru.Op.put k v = op' := Option.some.inj hop
      trivial
  | get k =>
      obtain rfl : Lru.Op.get k = op' := Option.some.inj hop
      show (c.get clock view k).1 = (c'.get view' k).1
      rw [get_answer, Lru.get_answer, served_strips hs h0]
  | pop k =>
      obtain rfl : Lru.Op.pop k = op' := Option.some.inj hop
      show (c.pop clock view k).1 = (c'.pop view' k).1
      rw [pop_answer, Lru.pop_answer, served_strips hs h0]
  | remove k =>
      obtain rfl : Lru.Op.remove k = op' := Option.some.inj hop
      have hbase := (Lru.remove_answer c.toLRUCache view k).map CacheValue.value
      have huser := Lru.remove_answer c' view' k
      rw [underKey_strips hs, List.map_map] at huser
      rw [List.map_map] at hbase
      exact hbase.trans huser.symm
  | removeValue k v =>
      obtain rfl : Lru.Op.removeValue k v = op' := Option.some.inj hop
      exact removeValue_strips hs k hc hd view view' v
  | clear =>
      obtain rfl : Lru.Op.clear = op' := Option.some.inj hop
      trivial
  | containsKey k =>
      obtain rfl : Lru.Op.containsKey k = op' := Option.some.inj hop
      show c.toLRUCache.containsKey view k = c'.containsKey view' k
      rw [Lru.containsKey_answer, Lru.containsKey_answer, underKey_strips hs, List.isEmpty_map]
  | containsValue v =>
      obtain rfl : Lru.Op.containsValue v = op' := Option.some.inj hop
      show (c.getKey clock view v).1.isSome = (c'.getKey v).isSome
      rw [getKey_strips hs h0]
  | getKey v =>
      obtain rfl : Lru.Op.getKey v = op' := Option.some.inj hop
      exact getKey_strips hs h0 view v
  | entrySet =>
      obtain rfl : Lru.Op.entrySet = op' := Option.some.inj hop
      exact entrySet_strips hs view view'
  | valueSet k =>
      obtain rfl : Lru.Op.valueSet k = op' := Option.some.inj hop
      exact valueSet_strips hs k view view'
  | isEmpty =>
      obtain rfl : Lru.Op.isEmpty = op' := Option.some.inj hop
      show c.toLRUCache.isEmpty = c'.isEmpty
      unfold LRUCache.isEmpty
      rw [size_strips hs]
  | isFull =>
      obtain rfl : Lru.Op.isFull = op' := Option.some.inj hop
      show c.toLRUCache.isFull = c'.isFull
      unfold LRUCache.isFull
      rw [size_strips hs, hs.capacity]
  | size =>
      obtain rfl : Lru.Op.size = op' := Option.some.inj hop
      exact size_strips hs
  | valueRange k =>
      obtain rfl : Lru.Op.valueRange k = op' := Option.some.inj hop
      show c.toLRUCache.valueRange view k = c'.valueRange view' k
      rw [Lru.valueRange_answer, Lru.valueRange_answer, underKey_strips hs, List.length_map]
  | capacity =>
      obtain rfl : Lru.Op.capacity = op' := Option.some.inj hop
      exact hs.capacity
  | expiration => exact absurd hop (by simp [Op.asBase])

end Call

/-! ## §5. Two sessions. -/

section Sessions

variable [LinearOrder K] [LinearOrder V] (clock : Clock)

/-- A call of the timed session and the same call of the other. -/
structure SameCall
    (e : Event (LRUTimedCache K V) (Call K V) (Answer K V))
    (e' : Event (LRUCache K V) (Lru.Call K V) (Lru.Answer K V)) : Prop where
  same : e.call.op.asBase = some e'.call.op
  answer : e.answer.Strips e'.answer
  after : e.after.entries.map userPair = e'.after.entries

/-- The events that have a counterpart. -/
def shared (h : List (Event (LRUTimedCache K V) (Call K V) (Answer K V))) :
    List (Event (LRUTimedCache K V) (Call K V) (Answer K V)) :=
  h.filter (fun e => e.call.op.asBase.isSome)

/-- The relation between the two sessions. -/
structure InStep (capacity : UInt32) (r : Session (LRUTimedCache K V) (Call K V) (Answer K V))
    (r' : Session (LRUCache K V) (Lru.Call K V) (Lru.Answer K V)) : Prop where
  reach : Reachable capacity 0 r.state
  reach' : Lru.Reachable capacity r'.state
  distinct : Distinct r.state.entries
  stripped : r.state.entries.map userPair = r'.state.entries
  events : List.Forall₂ SameCall (shared r.history) r'.history

variable {clock} {capacity : UInt32} {r : Session (LRUTimedCache K V) (Call K V) (Answer K V)}
  {r' : Session (LRUCache K V) (Lru.Call K V) (Lru.Answer K V)} {call : Call K V}

/-- A call that keeps the contract of `put` keeps the pairs distinct. -/
theorem InStep.next_distinct (h : InStep capacity r r')
    (hcond : SameSecondOrEvicted clock ((machine clock K V).event r.state call)) :
    Distinct (step clock r.state call).2.entries :=
  ((event_replaces_iff clock h.reach.base.wellFormed
    (fun call => (h.reach.step clock call).base.wellFormed) h.distinct call).mpr hcond).distinct

/-- A shared call is made in both sessions. -/
theorem InStep.extend (h : InStep capacity r r') {call' : Lru.Call K V}
    (hop : call.op.asBase = some call'.op)
    (hcond : SameSecondOrEvicted clock ((machine clock K V).event r.state call)) :
    InStep capacity ((machine clock K V).extend r call)
      ((Lru.machine K V).extend r' call') := by
  have hs : Stripped r.state r'.state :=
    ⟨h.reach.base.capacity.trans h.reach'.capacity.symm, h.stripped⟩
  have hafter := entries_strips hs h.reach.base.wellFormed h.reach'.wellFormed
    h.reach.expiration h.distinct hop hcond
  refine ⟨h.reach.step clock call, h.reach'.step call', h.next_distinct hcond, hafter, ?_⟩
  show List.Forall₂ SameCall (shared (_ :: r.history)) (_ :: r'.history)
  unfold shared
  rw [List.filter_cons_of_pos (by simp [Machine.event, hop])]
  exact List.Forall₂.cons ⟨hop, answer_strips hs h.reach.base.wellFormed h.reach.expiration
    h.distinct hop, hafter⟩ h.events

/-- `expiration()` is asked in the timed session only. -/
theorem InStep.extend_other (h : InStep capacity r r') (hop : call.op.asBase = none) :
    InStep capacity ((machine clock K V).extend r call) r' := by
  obtain ⟨view, op⟩ := call
  cases op with
  | expiration =>
      refine ⟨h.reach.step clock _, h.reach', h.distinct, h.stripped, ?_⟩
      show List.Forall₂ SameCall (shared (_ :: r.history)) _
      unfold shared
      rw [List.filter_cons_of_neg (by simp [Machine.event, Op.asBase])]
      exact h.events
  | _ => exact absurd hop (by simp [Op.asBase])

/-- **With expiration 0, and as long as `put` keeps its contract, the timed cache
is an LRUCache of the user's pairs.** -/
theorem session_without_expiration (clock : Clock) (capacity : UInt32)
    (calls : List (Call K V)) (baseCalls : List (Lru.Call K V))
    (hsame : (calls.filter (fun call => call.op.asBase.isSome)).map (fun call => call.op.asBase)
      = baseCalls.map (fun call => some call.op))
    (hcond : ∀ e ∈ (session clock capacity 0 calls).history, SameSecondOrEvicted clock e) :
    (session clock capacity 0 calls).state.entries.map userPair
        = (Lru.session capacity baseCalls).state.entries ∧
    List.Forall₂ SameCall (shared (session clock capacity 0 calls).history)
      (Lru.session capacity baseCalls).history := by
  have hcalls := Machine.forall₂_of_map_eq hsame (P := fun _ => True) (fun _ _ => trivial)
  suffices key : InStep capacity (session clock capacity 0 calls)
      (Lru.session capacity baseCalls) from ⟨key.stripped, key.events⟩
  refine (machine clock K V).run_project (Lru.machine K V)
    (R := fun r r' => (∀ e ∈ r.history, SameSecondOrEvicted clock e) → InStep capacity r r')
    (fun call => call.op.asBase.isSome)
    (fun _ => ⟨Reachable.new, ⟨rfl, Lru.new_wellFormed _⟩, List.nodup_nil, rfl,
      List.Forall₂.nil⟩) ?_ ?_ calls baseCalls hcalls hcond
  · intro r r' call call' _ hop hR hcond
    have h := hR (fun e he => hcond e (List.mem_cons_of_mem _ he))
    exact h.extend hop.1 (hcond _ List.mem_cons_self)
  · intro r r' call hop hR hcond
    have h := hR (fun e he => hcond e (List.mem_cons_of_mem _ he))
    exact h.extend_other (by simpa using hop)

/-- Two puts of different keys, a second apart, and a get, under different key views. -/
theorem without_expiration_in_step :
    (session secondLater 1 0 [⟨KeyView.listOrder, .put (1 : ℕ) (7 : ℕ)⟩,
        ⟨KeyView.newestFirst, .expiration⟩, ⟨KeyView.newestFirst, .put 2 8⟩,
        ⟨KeyView.newestFirst, .get 2⟩]).state.entries.map userPair
      = (Lru.session 1 [⟨KeyView.newestFirst, .put (1 : ℕ) (7 : ℕ)⟩,
          ⟨KeyView.listOrder, .put 2 8⟩, ⟨KeyView.listOrder, .get 2⟩]).state.entries := by
  refine (session_without_expiration secondLater 1 _ _ rfl ?_).1
  intro e he k v hop p hp hup
  -- newest first; each pair is put when its key holds nothing
  rcases List.mem_cons.mp he with rfl | he
  · exact absurd hop (by simp [Machine.event])
  · rcases List.mem_cons.mp he with rfl | he
    · obtain ⟨rfl, rfl⟩ : 2 = k ∧ 8 = v := by simpa [Machine.event] using hop
      rw [List.mem_singleton.mp hp] at hup
      exact absurd hup (by decide)
    · rcases List.mem_cons.mp he with rfl | he
      · exact absurd hop (by simp [Machine.event])
      · rw [List.mem_singleton.mp he] at hp
        exact absurd hp List.not_mem_nil

end Sessions

end EzBakeCommon.Timed
