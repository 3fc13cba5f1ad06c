/-
  EzBakeCommon.Timed.Serial — a schedule of threads is one session of the base class.

  A thread touches the shared cache only inside its critical sections, and a
  critical section is a few calls of the base class.  Put one after another, in
  the order in which the lock is taken, the sections of a schedule are a list of
  calls of ONE `LRUCache` (`serialCalls`), each with the thread that makes it.

  Main results:
    * `interleaving_serial` — whatever the schedule, the shared cache is the
      cache after that list of calls, it keeps the laws of the base class, and
      what a thread has found is the answer of its own last call in the list.
-/
import EzBakeCommon.Timed.Concurrency

namespace EzBakeCommon.Timed

open Library
open EzBakeCommon.Lru (KeyView LRUCache oldest WellFormed)

variable {Tid K V : Type*}

/-! ## §1. The calls that are made under the lock. -/

/-- The removals of the entries of a set. -/
def removals (view : KeyView K (CacheValue V)) (es : List (K × CacheValue V)) :
    List (Lru.Call K (CacheValue V)) :=
  es.map (fun entry => ⟨view, .removeValue entry.1 entry.2⟩)

section Sections

variable [DecidableEq K] [DecidableEq V] [LT K] [DecidableLT K] [LT V] [DecidableLT V]

/-- What an operation does to the base class when it begins.  `put` takes the
lock only later; the queries change nothing. -/
def firstSection (clock : Clock) (c : LRUTimedCache K V) (call : Call K V) :
    List (Lru.Call K (CacheValue V)) :=
  match call.op with
  | .get k => [⟨call.view, .get k⟩]
  | .pop k => [⟨call.view, .pop k⟩]
  | .remove k => [⟨call.view, .remove k⟩]
  | .removeValue k v => removals call.view (c.entriesToRemove call.view k v)
  | .clear => [⟨call.view, .clear⟩]
  | .containsValue v =>
      removals call.view (LRUTimedCache.getKeyLoop clock v c.entries c []).2.1
  | .getKey v => removals call.view (LRUTimedCache.getKeyLoop clock v c.entries c []).2.1
  | _ => []

/-- What the next step of an operation does to the base class. -/
def nextSection (view : KeyView K (CacheValue V)) :
    Pc K V → List (Lru.Call K (CacheValue V))
  | .putting k cv => [⟨view, .put k cv⟩]
  | .expunging k cv => [⟨view, .removeValue k cv⟩]
  | _ => []

/-- The calls of the base class that one action makes. -/
def sections (T : PosixTime) (expiration : UInt64) (w : World Tid K V) :
    Action Tid K V → List (Tid × Lru.Call K (CacheValue V))
  | .tick _ => []
  | .invoke t call clock =>
      match w.pc t with
      | .idle _ => (firstSection ⟨T, clock.reading, clock.steady⟩ ⟨w.base, expiration, 0⟩ call).map
          (fun base => (t, base))
      | _ => []
  | .proceed t view => (nextSection view (w.pc t)).map (fun base => (t, base))

/-- The base class, called by several threads in turn. -/
def turns (Tid K V : Type*) [DecidableEq K] [DecidableEq V] [LT K] [DecidableLT K] [LT V]
    [DecidableLT V] : Machine (LRUCache K (CacheValue V)) (Tid × Lru.Call K (CacheValue V))
      (Lru.Answer K (CacheValue V)) := ⟨fun base c => Lru.step base c.2⟩

variable [DecidableEq Tid]

/-- A schedule with all its worlds. -/
def scheduleSession (T : PosixTime) (capacity : UInt32) (expiration : UInt64) (start : Instant)
    (schedule : List (Action Tid K V)) : Session (World Tid K V) (Action Tid K V) Unit :=
  (threads T expiration Tid K V).run ⟨LRUCache.new capacity, start, fun _ => .idle none⟩ schedule

/-- The calls of the base class that were made, in the order in which the lock
was taken. -/
def serialCalls (T : PosixTime) (expiration : UInt64)
    (h : List (Event (World Tid K V) (Action Tid K V) Unit)) :
    List (Tid × Lru.Call K (CacheValue V)) :=
  h.reverse.flatMap (fun e => sections T expiration e.before e.call)

/-- The base class answering these calls, one after another. -/
def serialSession (T : PosixTime) (capacity : UInt32) (expiration : UInt64)
    (h : List (Event (World Tid K V) (Action Tid K V) Unit)) :
    Session (LRUCache K (CacheValue V)) (Tid × Lru.Call K (CacheValue V))
      (Lru.Answer K (CacheValue V)) :=
  (turns Tid K V).run (LRUCache.new capacity) (serialCalls T expiration h)

/-- The last call that thread `t` has made. -/
def lastOf (t : Tid) (h : List (Event (LRUCache K (CacheValue V))
    (Tid × Lru.Call K (CacheValue V)) (Lru.Answer K (CacheValue V)))) :
    Option (Lru.Op K (CacheValue V) × Lru.Answer K (CacheValue V)) :=
  (h.find? (fun e => e.call.1 = t)).map (fun e => (e.call.2.op, e.answer))

end Sections

/-! ## §2. One action. -/

/-- The thread that moves. -/
def Action.thread : Action Tid K V → Option Tid
  | .tick _ => none
  | .invoke t _ _ => some t
  | .proceed t _ => some t

section Step

variable [DecidableEq Tid] [DecidableEq K] [DecidableEq V] (T : PosixTime) (expiration : UInt64)
  (w : World Tid K V)

omit [DecidableEq K] [DecidableEq V] in
theorem goto_other {t t' : Tid} (h : t ≠ t') (base : LRUCache K (CacheValue V)) (pc : Pc K V) :
    (w.goto t' base pc).pc t = w.pc t := Function.update_of_ne h _ _

theorem proceed_other {t t' : Tid} (h : t ≠ t') (view : KeyView K (CacheValue V)) :
    (proceed T expiration w t' view).pc t = w.pc t := by
  unfold proceed
  cases w.pc t' with
  | idle a => rfl
  | putting k cv => exact goto_other w h _ _
  | checking k cv =>
      dsimp only
      split <;> exact goto_other w h _ _
  | expunging k cv => exact goto_other w h _ _
  | popped cv => exact goto_other w h _ _

variable [LT K] [DecidableLT K] [LT V] [DecidableLT V]

theorem invoke_other {t t' : Tid} (h : t ≠ t') (call : Call K V) (clock : Clock) :
    (invoke T expiration w t' call clock).pc t = w.pc t := by
  obtain ⟨view, op⟩ := call
  cases op with
  | get k =>
      rw [invoke_get]
      exact goto_other w h _ _
  | pop k =>
      rw [invoke_pop]
      exact goto_other w h _ _
  | _ => exact goto_other w h _ _

/-- An action that is not possible does nothing. -/
theorem act_refused {t : Tid} (h : ∀ a, w.pc t ≠ .idle a) (call : Call K V) (clock : Clock) :
    act T expiration w (.invoke t call clock) = w := by
  unfold act
  dsimp only
  split
  next a hpc => exact absurd hpc (h a)
  next => rfl

/-- A thread moves on without moving the others. -/
theorem act_other {t : Tid} {a : Action Tid K V} (h : a.thread ≠ some t) :
    (act T expiration w a).pc t = w.pc t := by
  cases a with
  | tick later =>
      unfold act
      dsimp only
      split <;> rfl
  | invoke t' call clock =>
      have ht : t ≠ t' := fun e => h (congrArg some e.symm)
      cases hpc : w.pc t' with
      | idle a =>
          rw [act_invoke hpc]
          exact invoke_other T expiration w ht call clock
      | _ => rw [act_refused T expiration w (by simp [hpc])]
  | proceed t' view =>
      have ht : t ≠ t' := fun e => h (congrArg some e.symm)
      exact proceed_other T expiration w ht view

omit [DecidableEq Tid] in
theorem sections_idle {t : Tid} {a : Option V} (h : w.pc t = .idle a) (call : Call K V)
    (clock : Clock) : sections T expiration w (.invoke t call clock)
      = (firstSection ⟨T, clock.reading, clock.steady⟩ ⟨w.base, expiration, 0⟩ call).map
          (fun base => (t, base)) := by
  unfold sections
  dsimp only
  rw [h]

omit [DecidableEq Tid] in
theorem sections_refused {t : Tid} (h : ∀ a, w.pc t ≠ .idle a) (call : Call K V) (clock : Clock) :
    sections T expiration w (.invoke t call clock) = [] := by
  unfold sections
  dsimp only
  split
  next a hpc => exact absurd hpc (h a)
  next => rfl

omit [DecidableEq Tid] in
theorem sections_thread {a : Action Tid K V} {c : Tid × Lru.Call K (CacheValue V)}
    (hc : c ∈ sections T expiration w a) : a.thread = some c.1 := by
  cases a with
  | tick later => exact absurd hc List.not_mem_nil
  | invoke t call clock =>
      unfold sections at hc
      dsimp only at hc
      split at hc
      · obtain ⟨base, -, rfl⟩ := List.mem_map.mp hc
        rfl
      · exact absurd hc List.not_mem_nil
  | proceed t view =>
      obtain ⟨base, -, rfl⟩ := List.mem_map.mp hc
      rfl

/-! ### The shared cache. -/

omit [DecidableEq Tid] in
/-- The removals of a set are what `removeEach` does. -/
theorem turns_removals (base : LRUCache K (CacheValue V)) (t : Tid)
    (view : KeyView K (CacheValue V)) (es : List (K × CacheValue V)) :
    ((turns Tid K V).run base ((removals view es).map (fun c => (t, c)))).state
      = LRUTimedCache.removeEach view es base := by
  unfold removals
  rw [Machine.run_state, List.map_map, List.foldl_map]
  rfl

theorem invoke_base (t : Tid) (call : Call K V) (clock : Clock) :
    (invoke T expiration w t call clock).base = ((turns Tid K V).run w.base
      ((firstSection ⟨T, clock.reading, clock.steady⟩ ⟨w.base, expiration, 0⟩ call).map
        (fun base => (t, base)))).state := by
  obtain ⟨view, op⟩ := call
  cases op with
  | get k =>
      rw [invoke_get]
      rfl
  | pop k =>
      rw [invoke_pop]
      rfl
  | removeValue k v => exact (turns_removals w.base t view _).symm
  | getKey v =>
      refine Eq.trans ?_ (turns_removals w.base t view _).symm
      exact (getKey_base ⟨T, clock.reading, clock.steady⟩ ⟨w.base, expiration, 0⟩ view v).1
  | containsValue v =>
      refine Eq.trans ?_ (turns_removals w.base t view _).symm
      exact (getKey_base ⟨T, clock.reading, clock.steady⟩ ⟨w.base, expiration, 0⟩ view v).1
  | _ => rfl

/-- **One action leaves the shared cache as its sections do.** -/
theorem act_base (a : Action Tid K V) : (act T expiration w a).base
    = ((turns Tid K V).run w.base (sections T expiration w a)).state := by
  cases a with
  | tick later =>
      unfold act
      dsimp only
      split <;> rfl
  | invoke t call clock =>
      cases hpc : w.pc t with
      | idle a =>
          rw [act_invoke hpc, sections_idle T expiration w hpc]
          exact invoke_base T expiration w t call clock
      | _ =>
          rw [act_refused T expiration w (by simp [hpc]),
            sections_refused T expiration w (by simp [hpc])]
          rfl
  | proceed t view =>
      show (proceed T expiration w t view).base
        = ((turns Tid K V).run w.base ((nextSection view (w.pc t)).map _)).state
      unfold proceed
      cases w.pc t with
      | checking k cv =>
          dsimp only
          split <;> rfl
      | _ => rfl

/-! ### What a thread has found. -/

/-- A thread that has found something got it from its own last call. -/
def Found (t : Tid) (h : List (Event (LRUCache K (CacheValue V))
    (Tid × Lru.Call K (CacheValue V)) (Lru.Answer K (CacheValue V)))) : Pc K V → Prop
  | .checking k cv => lastOf t h = some (.get k, .value (some cv))
  | .expunging k cv => lastOf t h = some (.get k, .value (some cv))
  | .popped cv => ∃ k, lastOf t h = some (.pop k, .value (some cv))
  | _ => True

omit [DecidableEq K] [DecidableEq V] [LT K] [DecidableLT K] [LT V] [DecidableLT V] in
/-- What other threads call does not matter. -/
theorem lastOf_other {t : Tid} {h h' : List (Event (LRUCache K (CacheValue V))
    (Tid × Lru.Call K (CacheValue V)) (Lru.Answer K (CacheValue V)))}
    (hother : ∀ e ∈ h', e.call.1 ≠ t) : lastOf t (h' ++ h) = lastOf t h := by
  have hnone : h'.find? (fun e => e.call.1 = t) = none := by
    rw [List.find?_eq_none]
    intro e he
    simpa using hother e he
  unfold lastOf
  rw [List.find?_append, hnone, Option.none_or]

omit [DecidableEq Tid] in
/-- The events of the sections of one action. -/
theorem sections_events {a : Action Tid K V} (base : LRUCache K (CacheValue V)) :
    ∀ e ∈ ((turns Tid K V).run base (sections T expiration w a)).history,
      a.thread = some e.call.1 := by
  intro e he
  refine sections_thread T expiration w (a := a) ?_
  rw [← List.mem_reverse, ← (turns Tid K V).run_history_calls base]
  exact List.mem_map_of_mem he

/-- What a lookup of the base class answers is what the thread goes on with. -/
theorem found_invoke {t : Tid} {a : Option V} (hpc : w.pc t = .idle a) (call : Call K V)
    (clock : Clock) (h : List (Event (LRUCache K (CacheValue V))
      (Tid × Lru.Call K (CacheValue V)) (Lru.Answer K (CacheValue V)))) :
    Found t (((turns Tid K V).run w.base
        (sections T expiration w (.invoke t call clock))).history ++ h)
      ((invoke T expiration w t call clock).pc t) := by
  rw [sections_idle T expiration w hpc]
  obtain ⟨view, op⟩ := call
  cases op with
  | get k =>
      have hanswer := Lru.get_answer view w.base k
      rw [invoke_get, goto_pc]
      cases hp : oldest k w.base.entries with
      | none => trivial
      | some p =>
          rw [hp] at hanswer
          show ((List.find? _ (_ :: h)).map _) = _
          rw [List.find?_cons_of_pos (by simp [Machine.event])]
          exact congrArg (fun v => some (Lru.Op.get k, Lru.Answer.value v)) hanswer
  | pop k =>
      have hanswer := Lru.pop_answer view w.base k
      rw [invoke_pop, goto_pc]
      cases hp : oldest k w.base.entries with
      | none => trivial
      | some p =>
          rw [hp] at hanswer
          refine ⟨k, ?_⟩
          show ((List.find? _ (_ :: h)).map _) = _
          rw [List.find?_cons_of_pos (by simp [Machine.event])]
          exact congrArg (fun v => some (Lru.Op.pop k, Lru.Answer.value v)) hanswer
  | put k v =>
      show Found t _ ((w.goto t _ _).pc t)
      rw [goto_pc]
      trivial
  | _ =>
      show Found t _ ((w.goto t _ _).pc t)
      rw [goto_pc]
      trivial

/-- The next step of an operation forgets what was found, or keeps it. -/
theorem found_proceed {t : Tid} (view : KeyView K (CacheValue V))
    {h : List (Event (LRUCache K (CacheValue V)) (Tid × Lru.Call K (CacheValue V))
      (Lru.Answer K (CacheValue V)))} (hf : Found t h (w.pc t)) :
    Found t (((turns Tid K V).run w.base
        (sections T expiration w (.proceed t view))).history ++ h)
      ((proceed T expiration w t view).pc t) := by
  show Found t (((turns Tid K V).run w.base
    ((nextSection view (w.pc t)).map (fun base => (t, base)))).history ++ h) _
  cases hpc : w.pc t with
  | idle a =>
      rw [proceed_idle view hpc, hpc]
      trivial
  | putting k cv =>
      rw [proceed_putting view hpc, goto_pc]
      trivial
  | checking k cv =>
      rw [hpc] at hf
      cases he : LRUTimedCache.expiredAt T expiration cv.timestamp w.now with
      | true =>
          -- found expired: what it found stays, and no call is made
          rw [proceed_expired view hpc he, goto_pc]
          exact hf
      | false =>
          rw [proceed_live view hpc he, goto_pc]
          trivial
  | expunging k cv =>
      rw [proceed_expunging view hpc, goto_pc]
      trivial
  | popped cv =>
      rw [proceed_popped view hpc, goto_pc]
      trivial

theorem found_act (a : Action Tid K V) {h : List (Event (LRUCache K (CacheValue V))
      (Tid × Lru.Call K (CacheValue V)) (Lru.Answer K (CacheValue V)))}
    (hf : ∀ t, Found t h (w.pc t)) (t : Tid) :
    Found t (((turns Tid K V).run w.base (sections T expiration w a)).history ++ h)
      ((act T expiration w a).pc t) := by
  by_cases ha : a.thread = some t
  · -- the thread itself
    cases a with
    | tick later => exact absurd ha (by simp [Action.thread])
    | invoke t' call clock =>
        obtain rfl : t' = t := Option.some.inj ha
        cases hpc : w.pc t' with
        | idle a =>
            rw [act_invoke hpc]
            exact found_invoke T expiration w hpc call clock h
        | _ =>
            rw [act_refused T expiration w (by simp [hpc]),
              sections_refused T expiration w (by simp [hpc])]
            exact hf t'
    | proceed t' view =>
        obtain rfl : t' = t := Option.some.inj ha
        exact found_proceed T expiration w view (hf t')
  · -- another one: neither its place nor its last call is touched
    rw [act_other T expiration w ha]
    have hlast : lastOf t (((turns Tid K V).run w.base (sections T expiration w a)).history ++ h)
        = lastOf t h := by
      refine lastOf_other (fun e he ht => ha ?_)
      rw [sections_events T expiration w w.base e he, ht]
    have hft := hf t
    cases hpc : w.pc t with
    | idle a => trivial
    | putting k cv => trivial
    | popped cv =>
        rw [hpc] at hft
        obtain ⟨k, hk⟩ := hft
        exact ⟨k, hlast.trans hk⟩
    | _ =>
        rw [hpc] at hft
        exact hlast.trans hft

end Step

/-! ## §3. Every schedule. -/

section Schedules

variable [DecidableEq Tid] [DecidableEq K] [DecidableEq V] [LT K] [DecidableLT K] [LT V]
  [DecidableLT V]

/-- The shared cache is the cache of one session of the base class, it keeps
the laws of the base class, and every thread goes on with what its own last
call of that session has answered. -/
structure Serialised (T : PosixTime) (capacity : UInt32) (expiration : UInt64)
    (r : Session (World Tid K V) (Action Tid K V) Unit) : Prop where
  base : r.state.base = (serialSession T capacity expiration r.history).state
  laws : Lru.Reachable capacity r.state.base
  found : ∀ t, Found t (serialSession T capacity expiration r.history).history (r.state.pc t)

/-- The serial calls after one more action. -/
theorem serialCalls_extend (T : PosixTime) (expiration : UInt64)
    (r : Session (World Tid K V) (Action Tid K V) Unit) (a : Action Tid K V) :
    serialCalls T expiration ((threads T expiration Tid K V).extend r a).history
      = serialCalls T expiration r.history ++ sections T expiration r.state a := by
  show List.flatMap _ (List.reverse (_ :: r.history)) = _
  rw [List.reverse_cons, List.flatMap_append, List.flatMap_singleton]
  rfl

omit [DecidableEq Tid] in
/-- The base class keeps its laws, whoever calls it. -/
theorem turns_reachable (capacity : UInt32) (cs : List (Tid × Lru.Call K (CacheValue V))) :
    Lru.Reachable capacity ((turns Tid K V).run (LRUCache.new capacity) cs).state :=
  (turns Tid K V).state_induction (I := Lru.Reachable capacity)
    ⟨rfl, Lru.new_wellFormed capacity⟩ (fun _ c h => h.step c.2) cs

/-- **Every schedule is serialised by its lock.** -/
theorem interleaving_serial (T : PosixTime) (capacity : UInt32) (expiration : UInt64)
    (start : Instant) (schedule : List (Action Tid K V)) :
    Serialised T capacity expiration
      (scheduleSession T capacity expiration start schedule) := by
  suffices key : (scheduleSession T capacity expiration start schedule).state.base
        = (serialSession T capacity expiration
            (scheduleSession T capacity expiration start schedule).history).state ∧
      ∀ t, Found t (serialSession T capacity expiration
          (scheduleSession T capacity expiration start schedule).history).history
        ((scheduleSession T capacity expiration start schedule).state.pc t) by
    refine ⟨key.1, ?_, key.2⟩
    rw [key.1]
    exact turns_reachable capacity _
  refine (threads T expiration Tid K V).run_induction
    (s := ⟨LRUCache.new capacity, start, fun _ => .idle none⟩) (I := fun r =>
    r.state.base = (serialSession T capacity expiration r.history).state ∧
      ∀ t, Found t (serialSession T capacity expiration r.history).history (r.state.pc t))
    ⟨rfl, fun _ => trivial⟩ ?_ schedule
  intro r a ih
  obtain ⟨hbase, hfound⟩ := ih
  obtain ⟨hstate, hhist⟩ := (turns Tid K V).run_append (LRUCache.new capacity)
    (serialCalls T expiration r.history) (sections T expiration r.state a)
  unfold serialSession at *
  rw [serialCalls_extend, hstate, hhist, ← hbase]
  exact ⟨act_base T expiration r.state a, found_act T expiration r.state a hfound⟩

end Schedules

end EzBakeCommon.Timed
