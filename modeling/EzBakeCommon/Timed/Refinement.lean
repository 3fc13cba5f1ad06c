/-
  EzBakeCommon.Timed.Refinement — the timed cache is a client of the base class.

  Whatever a call on the timed cache does, it does to the list view by calls of
  the base class (`step_client`), so every invariant of the base class holds
  along every timed session.  The rest of the file says which calls these are:
  one spec lemma for each operation, in the terms of the bounded list.

  Main results:
    * `step_client` / `session_client` — one call is a few calls of the base
      class, a session a session of it.
    * `get_answer` / `pop_answer` — both serve the oldest entry of the key or
      nothing.
    * `getKeyLoop_spec` — what the loop of `getKey` passes, and where it stops.
-/
import EzBakeCommon.Timed.Cache
import EzBakeCommon.Lru.Refinement

namespace EzBakeCommon.Timed

open Library
open EzBakeCommon.Lru (KeyView LRUCache oldest underKey WellFormed)

variable {K V : Type*}

/-! ## §1. Fields. -/

namespace LRUTimedCache

variable (clock : Clock) (c : LRUTimedCache K V) (base : LRUCache K (CacheValue V))
  (timestamp : UInt64)

@[simp] theorem withBase_expiration : (c.withBase base).expiration = c.expiration := rfl

theorem expiredAt_zero (T : PosixTime) (now : Instant) : expiredAt T 0 timestamp now = false :=
  if_pos rfl

theorem expired_fst : (c.expired clock timestamp).1
    = expiredAt clock.toPosixTime c.expiration timestamp (clock.reading c.readings) := rfl

@[simp] theorem expired_base : (c.expired clock timestamp).2.toLRUCache = c.toLRUCache := by
  show (if c.expiration = 0 then c else c.tick).toLRUCache = _
  split <;> rfl

@[simp] theorem expired_expiration :
    (c.expired clock timestamp).2.expiration = c.expiration := by
  show (if c.expiration = 0 then c else c.tick).expiration = _
  split <;> rfl

theorem expired_readings : (c.expired clock timestamp).2.readings
    = if c.expiration = 0 then c.readings else c.readings + 1 := by
  show (if c.expiration = 0 then c else c.tick).readings = _
  split <;> rfl

/-- A check that finds an entry expired has read the clock. -/
theorem expired_reads (he : (c.expired clock timestamp).1 = true) :
    (c.expired clock timestamp).2.readings = c.readings + 1 := by
  rw [expired_readings, if_neg]
  intro h0
  rw [expired_fst, h0, expiredAt_zero] at he
  exact Bool.noConfusion he

end LRUTimedCache

/-! ## §2. The two lookups. -/

section Lookup

variable [DecidableEq K] (clock : Clock) {c : LRUTimedCache K V}
  (view : KeyView K (CacheValue V)) {k : K} {p : K × CacheValue V}

/-- What the lookups of the base class return is the oldest entry of the key. -/
theorem base_get (c : LRUTimedCache K V) : c.toLRUCache.get view k
    = ((oldest k c.entries).map Prod.snd, (c.toLRUCache.get view k).2) :=
  Prod.ext (Lru.get_answer view c.toLRUCache k) rfl

theorem base_pop (c : LRUTimedCache K V) : c.toLRUCache.pop view k
    = ((oldest k c.entries).map Prod.snd, (c.toLRUCache.pop view k).2) :=
  Prod.ext (Lru.pop_answer view c.toLRUCache k) rfl

theorem pop_none (h : oldest k c.entries = none) :
    c.pop clock view k = (none, c.withBase (c.toLRUCache.pop view k).2) := by
  unfold LRUTimedCache.pop
  rw [base_pop view c, h]
  rfl

theorem pop_some (h : oldest k c.entries = some p) :
    c.pop clock view k =
      (if (c.expired clock p.2.timestamp).1 then none else some p.2.value,
        ((c.withBase (c.toLRUCache.pop view k).2).expired clock p.2.timestamp).2) := by
  unfold LRUTimedCache.pop
  rw [base_pop view c, h]
  rfl

variable [DecidableEq V]

theorem get_none (h : oldest k c.entries = none) :
    c.get clock view k = (none, c.withBase (c.toLRUCache.get view k).2) := by
  unfold LRUTimedCache.get
  rw [base_get view c, h]
  rfl

/-- An entry that is found expired is expunged by a second call. -/
theorem get_expired (h : oldest k c.entries = some p)
    (he : (c.expired clock p.2.timestamp).1 = true) :
    c.get clock view k = (none,
      (((c.withBase (c.toLRUCache.get view k).2).expired clock p.2.timestamp).2).withBase
        ((c.toLRUCache.get view k).2.removeValue view k p.2).2) := by
  unfold LRUTimedCache.get
  rw [base_get view c, h]
  show (if (c.expired clock p.2.timestamp).1 = true then _ else _) = _
  rw [if_pos he, LRUTimedCache.expired_base]
  rfl

theorem get_live (h : oldest k c.entries = some p)
    (he : (c.expired clock p.2.timestamp).1 = false) :
    c.get clock view k = (some p.2.value,
      ((c.withBase (c.toLRUCache.get view k).2).expired clock p.2.timestamp).2) := by
  unfold LRUTimedCache.get
  rw [base_get view c, h]
  show (if (c.expired clock p.2.timestamp).1 = true then _ else _) = _
  rw [if_neg (by simp [he])]

omit [DecidableEq V] in
/-- What a lookup serves: the oldest entry of the key, or nothing if it is
expired. -/
def served (clock : Clock) (c : LRUTimedCache K V) (k : K) : Option V :=
  match oldest k c.entries with
  | some p => if (c.expired clock p.2.timestamp).1 then none else some p.2.value
  | none => none

omit [DecidableEq V] in
theorem served_eq_some {v : V} (h : served clock c k = some v) :
    ∃ p, oldest k c.entries = some p ∧ (c.expired clock p.2.timestamp).1 = false ∧
      p.2.value = v := by
  unfold served at h
  cases hp : oldest k c.entries with
  | none =>
      rw [hp] at h
      exact absurd h (by simp)
  | some p =>
      simp only [hp] at h
      cases he : (c.expired clock p.2.timestamp).1 with
      | true => simp [he] at h
      | false =>
          simp only [he, Bool.false_eq_true, if_false, Option.some.injEq] at h
          exact ⟨p, rfl, he, h⟩

theorem get_answer (c : LRUTimedCache K V) (k : K) :
    (c.get clock view k).1 = served clock c k := by
  unfold served
  cases h : oldest k c.entries with
  | none => rw [get_none clock view h]
  | some p =>
      cases he : (c.expired clock p.2.timestamp).1 with
      | true =>
          rw [get_expired clock view h he]
          simp only [he, if_true]
      | false =>
          rw [get_live clock view h he]
          simp only [he, Bool.false_eq_true, if_false]

omit [DecidableEq V] in
theorem pop_answer (c : LRUTimedCache K V) (k : K) :
    (c.pop clock view k).1 = served clock c k := by
  unfold served
  cases h : oldest k c.entries with
  | none => rw [pop_none clock view h]
  | some p => rw [pop_some clock view h]

end Lookup

/-! ## §3. The loop of `getKey`. -/

/-- The pair the user put. -/
def userPair (p : K × CacheValue V) : K × V := (p.1, p.2.value)

/-- The entries with this value, least recently used first. -/
def holding [DecidableEq V] (v : V) (l : List (K × CacheValue V)) : List (K × CacheValue V) :=
  l.filter (fun p => p.2.value = v)

/-- Checked one after another from the `n`th reading on, every entry is expired. -/
def AllExpired (clock : Clock) (expiration : UInt64) : ℕ → List (K × CacheValue V) → Prop
  | _, [] => True
  | n, p :: l =>
      LRUTimedCache.expiredAt clock.toPosixTime expiration p.2.timestamp (clock.reading n) = true ∧
        AllExpired clock expiration (n + 1) l

/-- Each of them was checked by one of these readings. -/
theorem AllExpired.reading {clock : Clock} {expiration : UInt64} {p : K × CacheValue V} :
    ∀ {n : ℕ} {l : List (K × CacheValue V)}, AllExpired clock expiration n l → p ∈ l →
      ∃ m, n ≤ m ∧ m < n + l.length ∧
        LRUTimedCache.expiredAt clock.toPosixTime expiration p.2.timestamp (clock.reading m) = true
  | n, q :: l, h, hp => by
      rw [List.length_cons]
      rcases List.mem_cons.mp hp with rfl | hp
      · exact ⟨n, le_refl n, by omega, h.1⟩
      · obtain ⟨m, hlo, hhi, he⟩ := h.2.reading hp
        exact ⟨m, by omega, by omega, he⟩

section Loop

variable [DecidableEq V] [LT K] [DecidableLT K] [LT V] [DecidableLT V]
  (clock : Clock) (v : V)

/-- How the loop ends: it has passed a part of the list in which every entry
with the value was expired when examined, and stops at the end of the list or
at the first entry with the value that was not. -/
structure LoopEnd (c : LRUTimedCache K V) (l : List (K × CacheValue V))
    (set : List (K × CacheValue V))
    (result : Option K × List (K × CacheValue V) × LRUTimedCache K V)
    (passed rest : List (K × CacheValue V)) : Prop where
  split : l = passed ++ rest
  expired : AllExpired clock c.expiration c.readings (holding v passed)
  collected : result.2.1 = (holding v passed).foldl
    (fun set entry => OrderedSet.insert LRUCache.entryLt entry set) set
  base : result.2.2.toLRUCache = c.toLRUCache
  expiration : result.2.2.expiration = c.expiration
  stop : (rest = [] ∧ result.1 = none ∧
      result.2.2.readings = c.readings + (holding v passed).length) ∨
    ∃ p rest', rest = p :: rest' ∧ p.2.value = v ∧ result.1 = some p.1 ∧
      LRUTimedCache.expiredAt clock.toPosixTime c.expiration p.2.timestamp
        (clock.reading (c.readings + (holding v passed).length)) = false ∧
      result.2.2.readings = c.readings + (holding v passed).length +
        (if c.expiration = 0 then 0 else 1)

section Equations

variable {v : V} {entry : K × CacheValue V} (l set : List (K × CacheValue V))
  (c : LRUTimedCache K V)

theorem getKeyLoop_other (hv : entry.2.value ≠ v) :
    LRUTimedCache.getKeyLoop clock v (entry :: l) c set
      = LRUTimedCache.getKeyLoop clock v l c set := by
  rw [LRUTimedCache.getKeyLoop, if_neg hv]

theorem getKeyLoop_live (hv : entry.2.value = v)
    (he : (c.expired clock entry.2.timestamp).1 = false) :
    LRUTimedCache.getKeyLoop clock v (entry :: l) c set
      = (some entry.1, set, (c.expired clock entry.2.timestamp).2) := by
  rw [LRUTimedCache.getKeyLoop, if_pos hv]
  simp only [he, Bool.false_eq_true, if_false]

theorem getKeyLoop_expired (hv : entry.2.value = v)
    (he : (c.expired clock entry.2.timestamp).1 = true) :
    LRUTimedCache.getKeyLoop clock v (entry :: l) c set
      = LRUTimedCache.getKeyLoop clock v l (c.expired clock entry.2.timestamp).2
          (OrderedSet.insert LRUCache.entryLt entry set) := by
  rw [LRUTimedCache.getKeyLoop, if_pos hv]
  simp only [he, if_true]

end Equations

theorem getKeyLoop_spec (l : List (K × CacheValue V)) :
    ∀ (c : LRUTimedCache K V) (set : List (K × CacheValue V)), ∃ passed rest,
      LoopEnd clock v c l set (LRUTimedCache.getKeyLoop clock v l c set) passed rest := by
  induction l with
  | nil =>
      intro c set
      exact ⟨[], [], rfl, trivial, rfl, rfl, rfl, Or.inl ⟨rfl, rfl, rfl⟩⟩
  | cons entry l ih =>
      intro c set
      by_cases hv : entry.2.value = v
      · -- an entry with the value is checked with the next reading
        have hhold : ∀ l', holding v (entry :: l') = entry :: holding v l' := fun l' =>
          List.filter_cons_of_pos (by simpa using hv)
        cases he : (c.expired clock entry.2.timestamp).1 with
        | false =>
            -- the loop stops before `entry`
            rw [getKeyLoop_live clock l set c hv he]
            refine ⟨[], entry :: l, rfl, trivial, rfl, ?_, ?_,
              Or.inr ⟨entry, l, rfl, hv, rfl, he, ?_⟩⟩
            · simp
            · simp
            · show (c.expired clock entry.2.timestamp).2.readings = c.readings + 0 + _
              rw [LRUTimedCache.expired_readings]
              split <;> rfl
        | true =>
            -- it goes on one reading later, with `entry` collected
            rw [getKeyLoop_expired clock l set c hv he]
            obtain ⟨passed, rest, h⟩ := ih (c.expired clock entry.2.timestamp).2
              (OrderedSet.insert LRUCache.entryLt entry set)
            obtain ⟨hsplit, hexp, hcol, hbase, hE, hstop⟩ := h
            rw [c.expired_reads clock _ he] at hexp hstop
            rw [LRUTimedCache.expired_expiration] at hexp hE hstop
            rw [LRUTimedCache.expired_base] at hbase
            refine ⟨entry :: passed, rest, by rw [hsplit]; rfl, ?_, ?_, hbase, hE, ?_⟩
            · rw [hhold]
              exact ⟨he, hexp⟩
            · rw [hhold]
              exact hcol
            · rw [hhold, List.length_cons, show c.readings + ((holding v passed).length + 1)
                = c.readings + 1 + (holding v passed).length from by omega]
              exact hstop
      · -- any other entry is passed without a reading
        have hhold : ∀ l', holding v (entry :: l') = holding v l' := fun l' =>
          List.filter_cons_of_neg (by simpa using hv)
        rw [getKeyLoop_other clock l set c hv]
        obtain ⟨passed, rest, h⟩ := ih c set
        obtain ⟨hsplit, hexp, hcol, hbase, hE, hstop⟩ := h
        rw [← hhold passed] at hexp hcol hstop
        exact ⟨entry :: passed, rest, by rw [hsplit]; rfl, hexp, hcol, hbase, hE, hstop⟩

end Loop

/-! ## §4. The list view. -/

section Entries

variable [DecidableEq K] [DecidableEq V] {c : LRUTimedCache K V} (hc : WellFormed c.toLRUCache)
  (clock : Clock) (view : KeyView K (CacheValue V)) {k : K} {p : K × CacheValue V}
include hc

theorem get_none_entries (h : oldest k c.entries = none) :
    (c.get clock view k).2.entries = c.entries := by
  rw [get_none clock view h]
  show (c.toLRUCache.get view k).2.entries = _
  rw [Lru.get_entries hc, Lru.apply_get_none h]
  rfl

theorem get_live_entries (h : oldest k c.entries = some p)
    (he : (c.expired clock p.2.timestamp).1 = false) :
    (c.get clock view k).2.entries = ((c.asList hc).renew p).items := by
  rw [get_live clock view h he, LRUTimedCache.expired_base]
  show (c.toLRUCache.get view k).2.entries = _
  rw [Lru.get_entries hc, Lru.apply_get_some h]

theorem pop_none_entries (h : oldest k c.entries = none) :
    (c.pop clock view k).2.entries = c.entries := by
  rw [pop_none clock view h]
  show (c.toLRUCache.pop view k).2.entries = _
  rw [Lru.pop_entries hc, Lru.apply_pop_none h]
  rfl

/-- An expired entry is popped like any other. -/
theorem pop_some_entries (h : oldest k c.entries = some p) :
    (c.pop clock view k).2.entries = ((c.asList hc).discard p).items := by
  rw [pop_some clock view h, LRUTimedCache.expired_base]
  show (c.toLRUCache.pop view k).2.entries = _
  rw [Lru.pop_entries hc, Lru.apply_pop_some h]

theorem put_entries (v : V) : (c.put clock view k v).entries
    = ((c.asList hc).place (k, CacheValue.new clock.toPosixTime (c.now clock) v)).items :=
  Lru.put_entries hc view k _

variable [LT K] [DecidableLT K] [LT V] [DecidableLT V]

/-- The entry that was found expired is gone, and nothing else has moved. -/
theorem get_expired_entries (h : oldest k c.entries = some p)
    (he : (c.expired clock p.2.timestamp).1 = true) :
    (c.get clock view k).2.entries = ((c.asList hc).discard p).items := by
  have hbase : WellFormed (c.toLRUCache.get view k).2 := Lru.step_wellFormed hc ⟨view, .get k⟩
  have hget : (c.toLRUCache.get view k).2.entries = ((c.asList hc).renew p).items := by
    rw [Lru.get_entries hc, Lru.apply_get_some h]
  rw [get_expired clock view h he]
  show ((c.toLRUCache.get view k).2.removeValue view k p.2).2.entries = _
  rw [Lru.removeValue_entries hbase]
  -- what is expunged is what was found
  obtain rfl := Lru.oldest_key h
  have hdiscard : (((c.toLRUCache.get view p.1).2.asList hbase).discard p).items
      = (((c.asList hc).renew p).discard p).items := RecencyList.discard_congr hget
  exact hdiscard.trans ((c.asList hc).discard_renew)

/-- Taking out the entries of a set, one by one. -/
theorem removeEach_entries (es : List (K × CacheValue V)) :
    (LRUTimedCache.removeEach view es c.toLRUCache).entries
      = c.entries.filter (fun p => p ∉ es) := by
  suffices key : ∀ (es : List (K × CacheValue V)) (base : LRUCache K (CacheValue V)),
      WellFormed base → (LRUTimedCache.removeEach view es base).entries
        = base.entries.filter (fun p => p ∉ es) from key es _ hc
  -- every removal leaves a cache that keeps the laws
  intro es
  induction es with
  | nil =>
      intro base _
      symm
      refine List.filter_eq_self.mpr ?_
      simp
  | cons e es ih =>
      intro base hbase
      have hbase' : WellFormed (base.removeValue view e.1 e.2).2 :=
        Lru.step_wellFormed hbase ⟨view, .removeValue e.1 e.2⟩
      show (LRUTimedCache.removeEach view es (base.removeValue view e.1 e.2).2).entries = _
      rw [ih _ hbase', Lru.removeValue_entries hbase]
      show (((base.asList hbase).discard e).items).filter _ = (base.asList hbase).items.filter _
      rw [RecencyList.discard_eq_filter, List.filter_filter]
      refine List.filter_congr (fun q _ => ?_)
      simp [Bool.and_comm]

end Entries

/-! ## §5. A client of the base class. -/

section Client

variable [DecidableEq K] [DecidableEq V] [LT K] [DecidableLT K] [LT V] [DecidableLT V]
  (clock : Clock) (c : LRUTimedCache K V)

/-- One call of the base class. -/
theorem base_call (base : LRUCache K (CacheValue V)) (call : Lru.Call K (CacheValue V)) :
    (Lru.machine K (CacheValue V)).Reaches base (Lru.step base call).2 :=
  Machine.Reaches.call call

theorem removeEach_client (view : KeyView K (CacheValue V)) (es : List (K × CacheValue V)) :
    ∀ base : LRUCache K (CacheValue V), (Lru.machine K (CacheValue V)).Reaches base
      (LRUTimedCache.removeEach view es base) := by
  induction es with
  | nil => exact fun _ => Machine.Reaches.refl
  | cons e es ih =>
      intro base
      exact (base_call base ⟨view, .removeValue e.1 e.2⟩).trans (ih _)

/-- `getKey` only takes entries out, after reading the clock. -/
theorem getKey_base (view : KeyView K (CacheValue V)) (v : V) :
    (c.getKey clock view v).2.toLRUCache = LRUTimedCache.removeEach view
        (LRUTimedCache.getKeyLoop clock v c.entries c []).2.1 c.toLRUCache ∧
      (c.getKey clock view v).2.expiration = c.expiration := by
  obtain ⟨passed, rest, h⟩ := getKeyLoop_spec clock v c.entries c []
  constructor
  · show LRUTimedCache.removeEach view _
      (LRUTimedCache.getKeyLoop clock v c.entries c []).2.2.toLRUCache = _
    rw [h.base]
  · exact h.expiration

section Calls

variable (view : KeyView K (CacheValue V))

theorem get_client (k : K) :
    (Lru.machine K (CacheValue V)).Reaches c.toLRUCache (c.get clock view k).2.toLRUCache ∧
      (c.get clock view k).2.expiration = c.expiration := by
  have hget := base_call c.toLRUCache ⟨view, .get k⟩
  cases h : oldest k c.entries with
  | none =>
      rw [get_none clock view h]
      exact ⟨hget, rfl⟩
  | some p =>
      cases he : (c.expired clock p.2.timestamp).1 with
      | false =>
          rw [get_live clock view h he, LRUTimedCache.expired_base,
            LRUTimedCache.expired_expiration]
          exact ⟨hget, rfl⟩
      | true =>
          -- the base `get`, then the base `remove`
          rw [get_expired clock view h he]
          refine ⟨hget.trans (base_call _ ⟨view, .removeValue k p.2⟩), ?_⟩
          rw [LRUTimedCache.withBase_expiration, LRUTimedCache.expired_expiration]
          rfl

theorem pop_client (k : K) :
    (Lru.machine K (CacheValue V)).Reaches c.toLRUCache (c.pop clock view k).2.toLRUCache ∧
      (c.pop clock view k).2.expiration = c.expiration := by
  have hpop := base_call c.toLRUCache ⟨view, .pop k⟩
  cases h : oldest k c.entries with
  | none =>
      rw [pop_none clock view h]
      exact ⟨hpop, rfl⟩
  | some p =>
      rw [pop_some clock view h, LRUTimedCache.expired_base, LRUTimedCache.expired_expiration]
      exact ⟨hpop, rfl⟩

theorem getKey_client (v : V) :
    (Lru.machine K (CacheValue V)).Reaches c.toLRUCache (c.getKey clock view v).2.toLRUCache ∧
      (c.getKey clock view v).2.expiration = c.expiration := by
  obtain ⟨hbase, hE⟩ := getKey_base clock c view v
  refine ⟨?_, hE⟩
  rw [hbase]
  exact removeEach_client view _ _

end Calls

/-- **One call is a few calls of the base class**, and leaves the expiration
alone. -/
theorem step_client (call : Call K V) :
    (Lru.machine K (CacheValue V)).Reaches c.toLRUCache (step clock c call).2.toLRUCache ∧
      (step clock c call).2.expiration = c.expiration := by
  obtain ⟨view, op⟩ := call
  cases op with
  | put k v => exact ⟨base_call c.toLRUCache ⟨view, .put k _⟩, rfl⟩
  | get k => exact get_client clock c view k
  | pop k => exact pop_client clock c view k
  | remove k => exact ⟨base_call c.toLRUCache ⟨view, .remove k⟩, rfl⟩
  | removeValue k v => exact ⟨removeEach_client view _ _, rfl⟩
  | clear => exact ⟨base_call c.toLRUCache ⟨view, .clear⟩, rfl⟩
  | containsValue v => exact getKey_client clock c view v
  | getKey v => exact getKey_client clock c view v
  | _ => exact ⟨Machine.Reaches.refl, rfl⟩

/-- Both lookups answer with what is served, after one reading of the clock if
something is. -/
theorem lookup_answer (call : Call K V) {k : K} (h : call.op = .get k ∨ call.op = .pop k) :
    (step clock c call).1 = .value (served clock c k) ∧
      (served clock c k ≠ none → c.expiration ≠ 0 →
        (step clock c call).2.readings = c.readings + 1) := by
  obtain ⟨view, op⟩ := call
  rcases h with h | h
  · obtain rfl : op = .get k := h
    constructor
    · show Answer.value (c.get clock view k).1 = _
      rw [get_answer]
    · intro hsome hE
      obtain ⟨v, hv⟩ := Option.ne_none_iff_exists'.mp hsome
      obtain ⟨p, hp, he, -⟩ := served_eq_some clock hv
      show (c.get clock view k).2.readings = _
      rw [get_live clock view hp he, LRUTimedCache.expired_readings]
      exact if_neg hE
  · obtain rfl : op = .pop k := h
    constructor
    · show Answer.value (c.pop clock view k).1 = _
      rw [pop_answer]
    · intro hsome hE
      obtain ⟨v, hv⟩ := Option.ne_none_iff_exists'.mp hsome
      obtain ⟨p, hp, -, -⟩ := served_eq_some clock hv
      show (c.pop clock view k).2.readings = _
      rw [pop_some clock view hp, LRUTimedCache.expired_readings]
      exact if_neg hE

end Client

/-! ## §6. Along runs. -/

section Runs

variable [DecidableEq K] [DecidableEq V] [LT K] [DecidableLT K] [LT V] [DecidableLT V]
  (clock : Clock) {capacity : UInt32} {expiration : UInt64} {c : LRUTimedCache K V}

/-- What every call keeps. -/
structure Reachable (capacity : UInt32) (expiration : UInt64) (c : LRUTimedCache K V) : Prop where
  base : Lru.Reachable capacity c.toLRUCache
  expiration : c.expiration = expiration

omit [DecidableEq K] [DecidableEq V] [LT K] [DecidableLT K] [LT V] [DecidableLT V] in
theorem Reachable.new : Reachable capacity expiration
    (LRUTimedCache.new capacity expiration : LRUTimedCache K V) :=
  ⟨⟨rfl, Lru.new_wellFormed capacity⟩, rfl⟩

theorem Reachable.step (h : Reachable capacity expiration c) (call : Call K V) :
    Reachable capacity expiration (step clock c call).2 := by
  obtain ⟨hreach, hE⟩ := step_client clock c call
  exact ⟨hreach.invariant (fun _ call h => h.step call) h.base, hE.trans h.expiration⟩

theorem session_reachable (capacity : UInt32) (expiration : UInt64) (calls : List (Call K V)) :
    Reachable capacity expiration (session clock capacity expiration calls).state :=
  (machine clock K V).state_induction Reachable.new (fun _ call h => h.step clock call) calls

/-- **A timed session is a session of the base class.** -/
theorem session_client (capacity : UInt32) (expiration : UInt64) (calls : List (Call K V)) :
    (Lru.machine K (CacheValue V)).Reaches (LRUCache.new capacity)
      (session clock capacity expiration calls).state.toLRUCache :=
  (machine clock K V).state_induction (s := LRUTimedCache.new capacity expiration)
    (I := fun c => (Lru.machine K (CacheValue V)).Reaches (LRUCache.new capacity) c.toLRUCache)
    Machine.Reaches.refl (fun c call h => h.trans (step_client clock c call).1) calls

section Enters

variable (hc : WellFormed c.toLRUCache) (view : KeyView K (CacheValue V)) {p : K × CacheValue V}
include hc

theorem mem_of_mem_get {k : K} (hp : p ∈ (c.get clock view k).2.entries) : p ∈ c.entries := by
  cases h : oldest k c.entries with
  | none => rwa [get_none_entries hc clock view h] at hp
  | some q =>
      cases he : (c.expired clock q.2.timestamp).1 with
      | false =>
          rw [get_live_entries hc clock view h he] at hp
          exact (RecencyList.mem_renew_iff (c.asList hc) (Lru.oldest_mem h)).mp hp
      | true =>
          rw [get_expired_entries hc clock view h he] at hp
          exact (RecencyList.mem_discard_iff _).mp hp |>.2

omit [LT K] [DecidableLT K] [LT V] [DecidableLT V] in
theorem mem_of_mem_pop {k : K} (hp : p ∈ (c.pop clock view k).2.entries) : p ∈ c.entries := by
  cases h : oldest k c.entries with
  | none => rwa [pop_none_entries hc clock view h] at hp
  | some q =>
      rw [pop_some_entries hc clock view h] at hp
      exact (RecencyList.mem_discard_iff _).mp hp |>.2

theorem mem_of_mem_getKey {v : V} (hp : p ∈ (c.getKey clock view v).2.entries) :
    p ∈ c.entries := by
  rw [(getKey_base clock c view v).1, removeEach_entries hc] at hp
  exact List.mem_of_mem_filter hp

omit [LT K] [DecidableLT K] [LT V] [DecidableLT V] in
theorem mem_of_mem_put {k : K} {v : V} (hp : p ∈ (c.put clock view k v).entries) :
    p ∈ c.entries ∨ p = (k, CacheValue.new clock.toPosixTime (c.now clock) v) := by
  rw [put_entries hc] at hp
  exact (RecencyList.mem_of_mem_place _ hp).symm

end Enters

/-- An entry gets into the cache only by being put. -/
theorem step_enters (hc : WellFormed c.toLRUCache) {call : Call K V} {p : K × CacheValue V}
    (hp : p ∈ (Timed.step clock c call).2.entries) :
    p ∈ c.entries ∨ ∃ v, call.op = .put p.1 v ∧
      p.2 = CacheValue.new clock.toPosixTime (c.now clock) v := by
  obtain ⟨view, op⟩ := call
  cases op with
  | put k v =>
      rcases mem_of_mem_put clock hc view hp with hp | rfl
      · exact Or.inl hp
      · exact Or.inr ⟨v, rfl, rfl⟩
  | get k => exact Or.inl (mem_of_mem_get clock hc view hp)
  | pop k => exact Or.inl (mem_of_mem_pop clock hc view hp)
  | remove k => exact Or.inl (List.mem_of_mem_filter hp)
  | removeValue k v =>
      left
      have hp : p ∈ (LRUTimedCache.removeEach view _ c.toLRUCache).entries := hp
      rw [removeEach_entries hc] at hp
      exact List.mem_of_mem_filter hp
  | clear => exact absurd hp List.not_mem_nil
  | containsValue v => exact Or.inl (mem_of_mem_getKey clock hc view hp)
  | getKey v => exact Or.inl (mem_of_mem_getKey clock hc view hp)
  | _ => exact Or.inl hp

end Runs

end EzBakeCommon.Timed
