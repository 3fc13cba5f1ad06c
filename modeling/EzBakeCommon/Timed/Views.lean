/-
  EzBakeCommon.Timed.Views — what the reading operations say about one cache.

  `get`, `pop`, `getKey` and `containsValue` check the expiration.  The other
  reading operations do not: `entrySet` and `valueSet` strip the timestamps of
  whatever the base class holds, `containsKey` and `valueRange` are inherited.
  They agree with the checking ones about a reading of the clock exactly if
  nothing that is held is expired then (`session_views`), up to the wrapping
  32-bit count of `valueRange`.  `valueSet` also has to be called on a key that
  is there (`session_valueSet`), in this class as in its base.
-/
import EzBakeCommon.Lru.Queries
import EzBakeCommon.Timed.Refinement

namespace EzBakeCommon.Timed

open Library
open EzBakeCommon.Lru (KeyView LRUCache underKey)

variable {K V : Type*}

/-! ## §1. The order of wrapped values. -/

theorem strictTotal_timestamp :
    OrderedSet.StrictTotal (fun s t : UInt64 => decide (s < t)) := by
  have h := OrderedSet.StrictTotal.comap (OrderedSet.strictTotal_lt (α := ℕ))
    (fun s t : UInt64 => UInt64.toNat_inj.mp)
  have heq : (fun s t : UInt64 => decide (s < t)) = fun s t => decide (s.toNat < t.toNat) := by
    funext s t
    exact decide_eq_decide.mpr UInt64.lt_iff_toNat_lt
  rw [heq]
  exact h

/-- `operator<` of `CacheValue` is the order of pairs, value first. -/
theorem cacheValue_lt_eq [LinearOrder V] (lhs rhs : CacheValue V) :
    LRUCache.valueLt lhs rhs = OrderedSet.pairLt (fun v w : V => decide (v < w))
      (fun s t : UInt64 => decide (s < t))
      (lhs.value, lhs.timestamp) (rhs.value, rhs.timestamp) := by
  show decide (if lhs.value = rhs.value then lhs.timestamp < rhs.timestamp
    else lhs.value < rhs.value) = _
  unfold OrderedSet.pairLt
  by_cases hv : lhs.value = rhs.value
  · simp [hv]
  · rcases lt_or_gt_of_ne hv with hlt | hgt
    · simp [hv, hlt]
    · simp [hv, hgt, not_lt_of_gt hgt]

theorem strictTotal_cacheValue [LinearOrder V] :
    OrderedSet.StrictTotal (LRUCache.valueLt : CacheValue V → CacheValue V → Bool) := by
  have hpair := OrderedSet.StrictTotal.pair (OrderedSet.strictTotal_lt (α := V))
    strictTotal_timestamp
  have h := hpair.comap (f := fun cv : CacheValue V => (cv.value, cv.timestamp)) (by
    intro x y hxy
    obtain ⟨s, v⟩ := x
    obtain ⟨t, w⟩ := y
    obtain ⟨rfl, rfl⟩ : v = w ∧ s = t := Prod.mk.inj hxy
    rfl)
  have heq : (LRUCache.valueLt : CacheValue V → CacheValue V → Bool)
      = fun x y => OrderedSet.pairLt (fun v w : V => decide (v < w))
        (fun s t : UInt64 => decide (s < t)) (x.value, x.timestamp) (y.value, y.timestamp) := by
    funext x y
    exact cacheValue_lt_eq x y
  rw [heq]
  exact h

/-! ## §2. What the operations say. -/

section Says

variable [LinearOrder K] [LinearOrder V] (c : LRUTimedCache K V)
  (view : KeyView K (CacheValue V))

/-- `entrySet` holds the pair of every entry. -/
theorem mem_entrySet {k : K} {v : V} :
    (k, v) ∈ c.entrySet view ↔ ∃ cv, (k, cv) ∈ c.entries ∧ cv.value = v := by
  have hbase : OrderedSet.StrictTotal
      (LRUCache.entryLt : K × CacheValue V → K × CacheValue V → Bool) :=
    OrderedSet.StrictTotal.pair OrderedSet.strictTotal_lt strictTotal_cacheValue
  have huser : OrderedSet.StrictTotal (LRUCache.entryLt : K × V → K × V → Bool) :=
    OrderedSet.StrictTotal.pair OrderedSet.strictTotal_lt OrderedSet.strictTotal_lt
  unfold LRUTimedCache.entrySet
  rw [OrderedSet.mem_foldl_insert huser
    (fun entry : K × CacheValue V => (entry.1, entry.2.value))]
  constructor
  · intro h
    rcases h with ⟨⟨k', cv⟩, hmem, heq⟩ | h
    · obtain ⟨rfl, rfl⟩ : k' = k ∧ cv.value = v := Prod.mk.inj heq
      exact ⟨cv, (Lru.mem_entrySet c.toLRUCache view hbase).mp hmem, rfl⟩
    · exact absurd h List.not_mem_nil
  · intro h
    obtain ⟨cv, hmem, rfl⟩ := h
    exact Or.inl ⟨(k, cv), (Lru.mem_entrySet c.toLRUCache view hbase).mpr hmem, rfl⟩

/-- For a key with entries, `valueSet` holds the value of each. -/
theorem mem_valueSet {k : K} (hk : ∃ cv, (k, cv) ∈ c.entries) :
    ∃ set, c.valueSet view k = some set ∧
      ∀ v, v ∈ set ↔ ∃ cv, (k, cv) ∈ c.entries ∧ cv.value = v := by
  have huser : OrderedSet.StrictTotal (LRUCache.valueLt : V → V → Bool) :=
    OrderedSet.strictTotal_lt
  obtain ⟨values, hvalues, hmem⟩ :=
    Lru.valueSet_of_held c.toLRUCache view strictTotal_cacheValue hk
  unfold LRUTimedCache.valueSet
  rw [hvalues]
  refine ⟨_, rfl, ?_⟩
  intro v
  rw [OrderedSet.mem_foldl_insert huser CacheValue.value]
  constructor
  · intro h
    rcases h with ⟨cv, hcv, hv⟩ | h
    · exact ⟨cv, (hmem cv).mp hcv, hv⟩
    · exact absurd h List.not_mem_nil
  · intro h
    obtain ⟨cv, hcv, hv⟩ := h
    exact Or.inl ⟨cv, (hmem cv).mpr hcv, hv⟩

/-- For any other key the base class reads past the range, and so does this. -/
theorem valueSet_of_absent {k : K} (hk : ∀ cv, (k, cv) ∉ c.entries) :
    c.valueSet view k = none := by
  unfold LRUTimedCache.valueSet
  rw [Lru.valueSet_of_absent c.toLRUCache view hk]
  rfl

theorem valueSet_exact_iff (k : K) :
    (∃ set, c.valueSet view k = some set ∧
      ∀ v, v ∈ set ↔ ∃ cv, (k, cv) ∈ c.entries ∧ cv.value = v) ↔
    ∃ cv, (k, cv) ∈ c.entries := by
  constructor
  · intro h
    by_contra hk
    obtain ⟨set, hset, -⟩ := h
    rw [valueSet_of_absent c view (fun cv hcv => hk ⟨cv, hcv⟩)] at hset
    exact absurd hset (by simp)
  · exact mem_valueSet c view

/-- While the clock stands still, `containsValue` finds an unexpired entry if
there is one. -/
theorem containsValue_still (T : PosixTime) (now : Instant) {v : V} :
    (c.containsValue (Clock.still T now) view v).1 = true ↔
      ∃ p ∈ c.entries, p.2.value = v ∧
        LRUTimedCache.expiredAt T c.expiration p.2.timestamp now = false := by
  obtain ⟨passed, rest, h⟩ := getKeyLoop_spec (Clock.still T now) v c.entries c []
  -- the key that the loop has found
  have hkey : (c.containsValue (Clock.still T now) view v).1
      = (LRUTimedCache.getKeyLoop (Clock.still T now) v c.entries c []).1.isSome := rfl
  rw [hkey]
  rcases h.stop with ⟨hrest, hnone, -⟩ | ⟨p, rest', hrest, hv, hsome, he, -⟩
  · rw [hnone]
    constructor
    · intro h
      exact absurd h (by simp)
    · intro hlive
      obtain ⟨p, hp, hpv, he⟩ := hlive
      -- the loop has passed the whole list, so it has found every entry expired
      rw [h.split, hrest, List.append_nil] at hp
      have hhold : p ∈ holding v passed := List.mem_filter.mpr ⟨hp, by simpa using hpv⟩
      obtain ⟨m, -, -, hexp⟩ := h.expired.reading hhold
      have hexp : LRUTimedCache.expiredAt T c.expiration p.2.timestamp now = true := hexp
      rw [he] at hexp
      exact Bool.noConfusion hexp
  · rw [hsome]
    constructor
    · intro _
      refine ⟨p, ?_, hv, he⟩
      rw [h.split, hrest]
      exact List.mem_append_right _ List.mem_cons_self
    · intro _
      rfl

end Says

/-! ## §3. Where `valueSet` is defined. -/

/-- `valueSet` returns, and what it returns are the values of the entries. -/
def ValueSetExact {W : Type*} (result : Option (List V)) (value : W → V)
    (entries : List (K × W)) (k : K) : Prop :=
  ∃ set, result = some set ∧ ∀ v, v ∈ set ↔ ∃ w, (k, w) ∈ entries ∧ value w = v

/-- **In every state of a session, of either class, `valueSet` is defined and
exact on a key if and only if the key has an entry.** -/
theorem session_valueSet [LinearOrder K] [LinearOrder V] (clock : Clock) (capacity : UInt32)
    (expiration : UInt64) (calls : List (Lru.Call K V)) (timedCalls : List (Call K V))
    (view : KeyView K V) (timedView : KeyView K (CacheValue V)) (k : K) :
    (ValueSetExact ((Lru.session capacity calls).state.valueSet view k) id
        (Lru.session capacity calls).state.entries k ↔
      ∃ v, (k, v) ∈ (Lru.session capacity calls).state.entries) ∧
    (ValueSetExact ((session clock capacity expiration timedCalls).state.valueSet timedView k)
        CacheValue.value (session clock capacity expiration timedCalls).state.entries k ↔
      ∃ cv, (k, cv) ∈ (session clock capacity expiration timedCalls).state.entries) := by
  constructor
  · have h := Lru.valueSet_exact_iff (Lru.session capacity calls).state view
      OrderedSet.strictTotal_lt k
    simpa [ValueSetExact] using h
  · exact valueSet_exact_iff (session clock capacity expiration timedCalls).state timedView k

/-- A cache that holds key 1 only, asked for the values of key 2. -/
theorem absent_key_undefined :
    let c := (Lru.session 0 [⟨KeyView.listOrder, .put (1 : ℕ) (7 : ℕ)⟩]).state
    ¬ ValueSetExact (c.valueSet KeyView.listOrder 2) id c.entries 2 := by
  intro c h
  obtain ⟨set, hset, -⟩ := h
  exact absurd (show (none : Option (List ℕ)) = some set from hset) (by simp)

/-! ## §4. One view. -/

section OneView

variable [LinearOrder K] [LinearOrder V] (T : PosixTime) (now : Instant) (c : LRUTimedCache K V)

/-- The entry is in the cache and not expired at this reading. -/
def LiveAt (p : K × CacheValue V) : Prop :=
  p ∈ c.entries ∧ LRUTimedCache.expiredAt T c.expiration p.2.timestamp now = false

/-- How many entries of the key are not expired. -/
def liveCount (k : K) : ℕ :=
  ((underKey k c.entries).filter
    (fun p => LRUTimedCache.expiredAt T c.expiration p.2.timestamp now = false)).length

/-- The reading operations report exactly the unexpired entries, and agree. -/
structure ReadsAgree : Prop where
  entrySet : ∀ view k v, (k, v) ∈ c.entrySet view ↔
    ∃ cv, LiveAt T now c (k, cv) ∧ cv.value = v
  valueSet : ∀ view k, (∃ cv, (k, cv) ∈ c.entries) →
    ∃ set, c.valueSet view k = some set ∧
      ∀ v, v ∈ set ↔ ∃ cv, LiveAt T now c (k, cv) ∧ cv.value = v
  containsKey : ∀ view k, c.toLRUCache.containsKey view k = true ↔ ∃ cv, LiveAt T now c (k, cv)
  valueRange : ∀ view k, (c.toLRUCache.valueRange view k).toNat = liveCount T now c k
  containsValue : ∀ view v, (c.containsValue (Clock.still T now) view v).1 = true ↔
    ∃ k, (k, v) ∈ c.entrySet view

/-- Nothing expired can be seen: the pair of every expired entry is held by an
unexpired one too, and the 32-bit count of a key's entries is the count of its
unexpired ones. -/
structure SeesNothingExpired : Prop where
  shadowed : ∀ p ∈ c.entries, ∃ q, LiveAt T now c q ∧ userPair q = userPair p
  counted : ∀ k, (underKey k c.entries).length % UInt32.size = liveCount T now c k

variable {T now c}

omit [LinearOrder V] in
/-- An entry of the pair may be taken to be unexpired. -/
theorem SeesNothingExpired.live_iff (h : SeesNothingExpired T now c) {k : K} {v : V} :
    (∃ cv, (k, cv) ∈ c.entries ∧ cv.value = v) ↔
      ∃ cv, LiveAt T now c (k, cv) ∧ cv.value = v := by
  constructor
  · intro hcv
    obtain ⟨cv, hmem, rfl⟩ := hcv
    obtain ⟨⟨k', cv'⟩, hq, heq⟩ := h.shadowed _ hmem
    obtain ⟨rfl, hv⟩ : k' = k ∧ cv'.value = cv.value := Prod.mk.inj heq
    exact ⟨cv', hq, hv⟩
  · intro hcv
    obtain ⟨cv, hq, hv⟩ := hcv
    exact ⟨cv, hq.1, hv⟩

theorem readsAgree_iff : ReadsAgree T now c ↔ SeesNothingExpired T now c := by
  constructor
  · intro h
    constructor
    case shadowed =>
      -- `entrySet` shows the pair
      intro p hp
      have hmem := (mem_entrySet c KeyView.listOrder).mpr ⟨p.2, hp, rfl⟩
      obtain ⟨cv, hlive, hv⟩ := (h.entrySet _ _ _).mp hmem
      exact ⟨(p.1, cv), hlive, Prod.ext rfl hv⟩
    case counted =>
      -- `valueRange` counts them
      intro k
      have hcount := h.valueRange KeyView.listOrder k
      rw [Lru.valueRange_answer, UInt32.toNat_ofNat'] at hcount
      exact hcount
  · intro h
    constructor
    case entrySet =>
      intro view k v
      rw [mem_entrySet]
      exact h.live_iff
    case valueSet =>
      intro view k hk
      obtain ⟨set, hset, hmem⟩ := mem_valueSet c view hk
      exact ⟨set, hset, fun v => (hmem v).trans h.live_iff⟩
    case containsKey =>
      intro view k
      rw [Lru.containsKey_answer, Bool.not_eq_true', List.isEmpty_eq_false_iff_exists_mem]
      constructor
      · intro hk
        obtain ⟨p, hp⟩ := hk
        obtain ⟨hmem, hpk⟩ := List.mem_filter.mp hp
        obtain rfl : p.1 = k := by simpa using hpk
        obtain ⟨cv, hq, -⟩ := h.live_iff.mp ⟨p.2, hmem, rfl⟩
        exact ⟨cv, hq⟩
      · intro hk
        obtain ⟨cv, hq⟩ := hk
        exact ⟨(k, cv), List.mem_filter.mpr ⟨hq.1, by simp⟩⟩
    case valueRange =>
      intro view k
      rw [Lru.valueRange_answer, UInt32.toNat_ofNat']
      exact h.counted k
    case containsValue =>
      intro view v
      rw [containsValue_still]
      constructor
      · intro hp
        obtain ⟨p, hp, hv, -⟩ := hp
        exact ⟨p.1, (mem_entrySet c view).mpr ⟨p.2, hp, hv⟩⟩
      · intro hk
        obtain ⟨k, hk⟩ := hk
        obtain ⟨cv, hq, hv⟩ := h.live_iff.mp ((mem_entrySet c view).mp hk)
        exact ⟨(k, cv), hq.1, hv, hq.2⟩

/-- No entry of the key is expired.  Only for a key with 2^32 entries or more
can the operations agree otherwise: the count of `valueRange` wraps to the
number of unexpired ones, and each expired one has an unexpired double. -/
def NothingExpired (T : PosixTime) (now : Instant) (c : LRUTimedCache K V) (k : K) : Prop :=
  if (underKey k c.entries).length < UInt32.size then ∀ p ∈ underKey k c.entries, LiveAt T now c p
  else (underKey k c.entries).length % UInt32.size = liveCount T now c k ∧
    ∀ p ∈ underKey k c.entries, ∃ q, LiveAt T now c q ∧ userPair q = userPair p

omit [LinearOrder V] in
theorem mem_underKey_self {p : K × CacheValue V} (hp : p ∈ c.entries) :
    p ∈ underKey p.1 c.entries :=
  List.mem_filter.mpr ⟨hp, by simp⟩

omit [LinearOrder V] in
theorem seesNothingExpired_iff :
    SeesNothingExpired T now c ↔ ∀ k, NothingExpired T now c k := by
  constructor
  · intro h k
    unfold NothingExpired
    have hcount := h.counted k
    split
    next hsmall =>
      -- the filter of `liveCount` has dropped none of the key's entries
      rw [Nat.mod_eq_of_lt hsmall] at hcount
      intro p hp
      have hall := List.length_filter_eq_length_iff.mp hcount.symm
      exact ⟨List.mem_of_mem_filter hp, by simpa using hall p hp⟩
    next =>
      exact ⟨hcount, fun p hp => h.shadowed p (List.mem_of_mem_filter hp)⟩
  · intro h
    constructor
    · intro p hp
      have hk := h p.1
      unfold NothingExpired at hk
      split at hk
      next => exact ⟨p, hk p (mem_underKey_self hp), rfl⟩
      next => exact hk.2 p (mem_underKey_self hp)
    · intro k
      have hk := h k
      unfold NothingExpired at hk
      split at hk
      next hsmall =>
        rw [Nat.mod_eq_of_lt hsmall]
        symm
        refine List.length_filter_eq_length_iff.mpr ?_
        intro p hp
        simpa using (hk p hp).2
      next => exact hk.1

end OneView

/-- **In every state of a session and for every reading, the reading operations
agree exactly if nothing that is held is expired.** -/
theorem session_views [LinearOrder K] [LinearOrder V] (clock : Clock) (capacity : UInt32)
    (expiration : UInt64) (calls : List (Call K V)) (now : Instant) :
    ReadsAgree clock.toPosixTime now (session clock capacity expiration calls).state ↔
      ∀ k, NothingExpired clock.toPosixTime now
        (session clock capacity expiration calls).state k :=
  readsAgree_iff.trans seesNothingExpired_iff

/-- An entry put at 0 s, read at 2 s under an expiration of 1 s: `containsKey`
still says that the key has one. -/
theorem expired_entry_seen :
    ¬ ReadsAgree PosixTime.counting ⟨2000000, by decide⟩
      (session (Clock.still PosixTime.counting ⟨0, by decide⟩) 0 1
        [⟨KeyView.listOrder, .put (1 : ℕ) (7 : ℕ)⟩]).state := by
  intro h
  obtain ⟨cv, hmem, he⟩ := (h.containsKey KeyView.listOrder 1).mp rfl
  have hexpired : ∀ p ∈ (session (Clock.still PosixTime.counting ⟨0, by decide⟩) 0 1
      [⟨KeyView.listOrder, .put (1 : ℕ) (7 : ℕ)⟩]).state.entries,
      LRUTimedCache.expiredAt PosixTime.counting 1 p.2.timestamp ⟨2000000, by decide⟩ = true := by
    decide
  have hcv := hexpired _ hmem
  have he : LRUTimedCache.expiredAt PosixTime.counting 1 cv.timestamp ⟨2000000, by decide⟩
    = false := he
  rw [he] at hcv
  exact Bool.noConfusion hcv

end EzBakeCommon.Timed
