/-
  EzBakeCommon.Timed.Staleness — no call serves a stale value.

  Every entry of a reachable cache was put there by a `put` of the session, and
  carries the second of the reading that `put` took (`session_built`).  Each of
  the four reading paths checks an entry before it reports it, and the reading
  it checks with lies less than the expiration after that one
  (`session_fresh`); the fraction of the second that the timestamp has lost
  only shortens an entry's life.
-/
import EzBakeCommon.Timed.Expiry
import EzBakeCommon.Timed.Refinement

namespace EzBakeCommon.Timed

open Library
open EzBakeCommon.Lru (KeyView LRUCache oldest)

variable {K V : Type*}

/-- A `put` of the history built the value of this entry at instant `built`. -/
def Built (clock : Clock) (h : List (Event (LRUTimedCache K V) (Call K V) (Answer K V)))
    (p : K × CacheValue V) (built : Instant) : Prop :=
  ∃ e ∈ h, e.call.op = .put p.1 p.2.value ∧ e.before.now clock = built ∧
    p.2 = CacheValue.new clock.toPosixTime built p.2.value

/-- The cache holds this entry, it was built, and less than the expiration has
passed since then at the `n`th reading. -/
structure FreshAt (clock : Clock) (r : Session (LRUTimedCache K V) (Call K V) (Answer K V))
    (p : K × CacheValue V) (n : ℕ) : Prop where
  held : p ∈ r.state.entries
  built : ∃ b, Built clock r.history p b
  fresh : ∀ b, Built clock r.history p b →
    (clock.reading n).micros < b.micros + r.state.expiration.toNat * 1000000

variable [DecidableEq K] [DecidableEq V] [LT K] [DecidableLT K] [LT V] [DecidableLT V]

/-- Whatever the next call reports is fresh at the last reading it takes. -/
structure ServesFresh (clock : Clock) (r : Session (LRUTimedCache K V) (Call K V) (Answer K V)) :
    Prop where
  lookup : ∀ call k v, (call.op = .get k ∨ call.op = .pop k) →
    (step clock r.state call).1 = .value (some v) →
    (step clock r.state call).2.readings = r.state.readings + 1 ∧
      ∃ cv, cv.value = v ∧ FreshAt clock r (k, cv) r.state.readings
  getKey : ∀ call v k, call.op = .getKey v → (step clock r.state call).1 = .key (some k) →
    ∃ n, (step clock r.state call).2.readings = n + 1 ∧
      ∃ cv, cv.value = v ∧ FreshAt clock r (k, cv) n
  containsValue : ∀ call v, call.op = .containsValue v →
    (step clock r.state call).1 = .flag true →
    ∃ n, (step clock r.state call).2.readings = n + 1 ∧
      ∃ k cv, cv.value = v ∧ FreshAt clock r (k, cv) n

/-- No check finds an entry expired, and nothing is kept back or taken out for
having expired. -/
structure NeverExpires (clock : Clock)
    (r : Session (LRUTimedCache K V) (Call K V) (Answer K V)) : Prop where
  check : ∀ timestamp, (r.state.expired clock timestamp).1 = false
  lookup : ∀ call k, (call.op = .get k ∨ call.op = .pop k) →
    (step clock r.state call).1
      = .value ((oldest k r.state.entries).map (fun p => p.2.value))
  getKey : ∀ call v, call.op = .getKey v →
    (step clock r.state call).1
        = .key ((r.state.entries.find? (fun p => p.2.value = v)).map Prod.fst) ∧
      (step clock r.state call).2.entries = r.state.entries
  containsValue : ∀ call v, call.op = .containsValue v →
    (step clock r.state call).1 = .flag (r.state.entries.any (fun p => p.2.value = v)) ∧
      (step clock r.state call).2.entries = r.state.entries

/-! ## §1. Where the entries come from. -/

section Built

variable (clock : Clock) (capacity : UInt32) (expiration : UInt64)

/-- **Every entry was built by a `put` of the session.** -/
theorem session_built (calls : List (Call K V)) :
    ∀ p ∈ (session clock capacity expiration calls).state.entries,
      ∃ b, Built clock (session clock capacity expiration calls).history p b := by
  have key : Reachable capacity expiration (session clock capacity expiration calls).state ∧
      ∀ p ∈ (session clock capacity expiration calls).state.entries,
        ∃ b, Built clock (session clock capacity expiration calls).history p b := by
    refine (machine clock K V).run_induction (I := fun r =>
      Reachable capacity expiration r.state ∧ ∀ p ∈ r.state.entries, ∃ b, Built clock r.history p b)
      ⟨Reachable.new, fun p hp => absurd hp List.not_mem_nil⟩ ?_ calls
    intro r call ih
    obtain ⟨hr, hbuilt⟩ := ih
    refine ⟨hr.step clock call, ?_⟩
    intro p hp
    rcases step_enters clock hr.base.wellFormed hp with hp | ⟨v, hop, hcv⟩
    · -- an earlier call has put it
      obtain ⟨b, e, he, hb⟩ := hbuilt p hp
      exact ⟨b, e, List.mem_cons_of_mem _ he, hb⟩
    · -- this call has put it
      have hv : p.2.value = v := by rw [hcv]; rfl
      refine ⟨r.state.now clock, _, List.mem_cons_self, ?_, rfl, ?_⟩
      · show call.op = _
        rw [hop, hv]
      · rw [hv]
        exact hcv
  exact key.2

end Built

/-! ## §2. What a check proves. -/

section Check

variable (clock : Clock) {r : Session (LRUTimedCache K V) (Call K V) (Answer K V)}

omit [DecidableEq K] [DecidableEq V] [LT K] [DecidableLT K] [LT V] [DecidableLT V] in
/-- An entry that passes the check at the `n`th reading is fresh then. -/
theorem fresh_of_check (hclock : clock.Counts) (hfit : Fits r.state.expiration)
    (h0 : r.state.expiration ≠ 0) {p : K × CacheValue V} (hp : p ∈ r.state.entries)
    (hbuilt : ∃ b, Built clock r.history p b) {n : ℕ}
    (he : LRUTimedCache.expiredAt clock.toPosixTime r.state.expiration p.2.timestamp
      (clock.reading n) = false) : FreshAt clock r p n := by
  refine ⟨hp, hbuilt, ?_⟩
  intro b hb
  obtain ⟨-, -, -, -, hcv⟩ := hb
  rw [hcv] at he
  have hnot : ¬ (b.micros / 1000000 + r.state.expiration.toNat) * 1000000
      ≤ (clock.reading n).micros := by
    rw [← expiredAt_new hclock h0 hfit b (clock.reading n) p.2.value, he]
    simp
  -- the timestamp is the second in which `b` lies
  omega

/-- What `getKey` reports has passed the check at its last reading. -/
theorem getKey_checked {c : LRUTimedCache K V} (h0 : c.expiration ≠ 0)
    (view : KeyView K (CacheValue V)) {v : V} {k : K} (h : (c.getKey clock view v).1 = some k) :
    ∃ cv n, (k, cv) ∈ c.entries ∧ cv.value = v ∧ (c.getKey clock view v).2.readings = n + 1 ∧
      LRUTimedCache.expiredAt clock.toPosixTime c.expiration cv.timestamp (clock.reading n)
        = false := by
  obtain ⟨passed, rest, hend⟩ := getKeyLoop_spec clock v c.entries c []
  have hkey : (LRUTimedCache.getKeyLoop clock v c.entries c []).1 = some k := h
  -- a key is reported only where the loop has stopped early
  rcases hend.stop with ⟨-, hnone, -⟩ | ⟨p, rest', hrest, hv, hsome, he, hread⟩
  · rw [hnone] at hkey
    exact absurd hkey (by simp)
  · rw [hsome, Option.some.injEq] at hkey
    subst hkey
    refine ⟨p.2, c.readings + (holding v passed).length, ?_, hv, ?_, he⟩
    · rw [hend.split, hrest]
      exact List.mem_append_right _ List.mem_cons_self
    · rw [if_neg h0] at hread
      exact hread

omit [DecidableEq K] [DecidableEq V] [LT K] [DecidableLT K] [LT V] [DecidableLT V] in
/-- Without an expiration the loop of `getKey` passes no entry with the value. -/
theorem holding_passed_of_zero {l : List (K × CacheValue V)} {n : ℕ}
    (h : AllExpired clock 0 n l) : l = [] := by
  cases l with
  | nil => rfl
  | cons p l =>
      have hp := h.1
      rw [LRUTimedCache.expiredAt_zero] at hp
      exact Bool.noConfusion hp

/-- Without an expiration `getKey` is the one of the base class, on user values. -/
theorem getKey_of_zero {c : LRUTimedCache K V} (h0 : c.expiration = 0)
    (view : KeyView K (CacheValue V)) (v : V) :
    (c.getKey clock view v).1 = (c.entries.find? (fun p => p.2.value = v)).map Prod.fst ∧
      (c.getKey clock view v).2.entries = c.entries := by
  obtain ⟨passed, rest, hend⟩ := getKeyLoop_spec clock v c.entries c []
  have hexp := hend.expired
  rw [h0] at hexp
  have hpassed : holding v passed = [] := holding_passed_of_zero clock hexp
  constructor
  · show (LRUTimedCache.getKeyLoop clock v c.entries c []).1 = _
    have hnone : passed.find? (fun p => p.2.value = v) = none := by
      rw [List.find?_eq_none]
      exact List.filter_eq_nil_iff.mp hpassed
    rcases hend.stop with ⟨hrest, hkey, -⟩ | ⟨p, rest', hrest, hv, hkey, -, -⟩
    · rw [hkey, hend.split, hrest, List.append_nil, hnone]
      rfl
    · rw [hkey, hend.split, hrest, List.find?_append, hnone, Option.none_or,
        List.find?_cons_of_pos (by simpa using hv)]
      rfl
  · rw [(getKey_base clock c view v).1, hend.collected, hpassed]
    rfl

end Check

/-! ## §3. Every session. -/

theorem servesFresh {clock : Clock} (hclock : clock.Counts) {capacity : UInt32}
    {expiration : UInt64} (h1 : 1 ≤ expiration) (hfit : Fits expiration)
    (calls : List (Call K V)) : ServesFresh clock (session clock capacity expiration calls) := by
  have hr := session_reachable clock capacity expiration calls
  have hbuilt := session_built clock capacity expiration calls
  generalize session clock capacity expiration calls = r at hr hbuilt
  have h0 : r.state.expiration ≠ 0 := by
    rw [hr.expiration]
    intro h
    rw [h] at h1
    exact absurd h1 (by decide)
  have hfit : Fits r.state.expiration := by rwa [hr.expiration]
  constructor
  case lookup =>
    intro call k v hop hans
    obtain ⟨hserved, hread⟩ := lookup_answer clock r.state call hop
    rw [hserved, Answer.value.injEq] at hans
    obtain ⟨⟨k', cv⟩, hp, he, hv⟩ := served_eq_some clock hans
    obtain rfl : k' = k := Lru.oldest_key hp
    refine ⟨hread (by simp [hans]) h0, cv, hv, ?_⟩
    exact fresh_of_check clock hclock hfit h0 (Lru.oldest_mem hp) (hbuilt _ (Lru.oldest_mem hp)) he
  case getKey =>
    intro call v k hop hans
    obtain ⟨view, op⟩ := call
    obtain rfl : op = .getKey v := hop
    have hkey : (r.state.getKey clock view v).1 = some k := Answer.key.inj hans
    obtain ⟨cv, n, hmem, hv, hread, he⟩ := getKey_checked clock h0 view hkey
    exact ⟨n, hread, cv, hv, fresh_of_check clock hclock hfit h0 hmem (hbuilt _ hmem) he⟩
  case containsValue =>
    intro call v hop hans
    obtain ⟨view, op⟩ := call
    obtain rfl : op = .containsValue v := hop
    have hflag : (r.state.getKey clock view v).1.isSome = true := Answer.flag.inj hans
    obtain ⟨k, hkey⟩ := Option.isSome_iff_exists.mp hflag
    obtain ⟨cv, n, hmem, hv, hread, he⟩ := getKey_checked clock h0 view hkey
    exact ⟨n, hread, k, cv, hv, fresh_of_check clock hclock hfit h0 hmem (hbuilt _ hmem) he⟩

theorem neverExpires {clock : Clock} {capacity : UInt32} (calls : List (Call K V)) :
    NeverExpires clock (session clock capacity 0 calls) := by
  have hr := session_reachable clock capacity 0 calls
  generalize session clock capacity 0 calls = r at hr
  have h0 := hr.expiration
  have hcheck : ∀ timestamp, (r.state.expired clock timestamp).1 = false := by
    intro timestamp
    rw [LRUTimedCache.expired_fst, h0]
    exact LRUTimedCache.expiredAt_zero timestamp _ _
  constructor
  case check => exact hcheck
  case lookup =>
    intro call k hop
    rw [(lookup_answer clock r.state call hop).1]
    unfold served
    cases hp : oldest k r.state.entries with
    | none => rfl
    | some p =>
        simp only [hcheck, Bool.false_eq_true, if_false]
        rfl
  case getKey =>
    intro call v hop
    obtain ⟨view, op⟩ := call
    obtain rfl : op = .getKey v := hop
    obtain ⟨hkey, hent⟩ := getKey_of_zero clock h0 view v
    exact ⟨congrArg Answer.key hkey, hent⟩
  case containsValue =>
    intro call v hop
    obtain ⟨view, op⟩ := call
    obtain rfl : op = .containsValue v := hop
    obtain ⟨hkey, hent⟩ := getKey_of_zero clock h0 view v
    refine ⟨?_, hent⟩
    show Answer.flag (r.state.getKey clock view v).1.isSome = _
    rw [hkey, Option.isSome_map, List.isSome_find?]

/-- **No session serves a stale value; without an expiration nothing expires.** -/
theorem session_fresh (clock : Clock) (hclock : clock.Counts) (capacity : UInt32)
    (expiration : UInt64) (hfit : Fits expiration) (calls : List (Call K V)) :
    (1 ≤ expiration → ServesFresh clock (session clock capacity expiration calls)) ∧
    (expiration = 0 → NeverExpires clock (session clock capacity expiration calls)) := by
  constructor
  · intro h1
    exact servesFresh hclock h1 hfit calls
  · intro h0
    subst h0
    exact neverExpires calls

/-- A clock read at 1.9 s and at 5.8 s. -/
def lateInTheSecond : Clock :=
  Clock.ofGaps PosixTime.counting [1900000, 3900000] (by decide)

/-- A value put late in second 1 is served in second 5 under an expiration of
5 s, and the law holds there. -/
theorem fresh_late_in_the_second :
    (step lateInTheSecond
      (session lateInTheSecond 2 5 [⟨KeyView.listOrder, .put (1 : ℕ) (7 : ℕ)⟩]).state
      ⟨KeyView.listOrder, .get 1⟩).1 = .value (some 7) ∧
    ServesFresh lateInTheSecond
      (session lateInTheSecond 2 5 [⟨KeyView.listOrder, .put (1 : ℕ) (7 : ℕ)⟩]) :=
  ⟨rfl, (session_fresh lateInTheSecond PosixTime.counting_counts 2 5 (by unfold Fits; decide)
    [⟨KeyView.listOrder, .put 1 7⟩]).1 (by decide)⟩

end EzBakeCommon.Timed
