/-
  EzBakeCommon.Timed.Concurrency — threads that share a timed cache.

  The mutex is held for one call of the base class at a time, and for the whole
  of `getKey`, `containsValue` and `remove(key, value)`.  `put` takes its timestamp
  before the lock; `get` and `pop` check what they found after it, and `get` may
  take the lock again to expunge it.  A schedule is a list of actions: the clock
  moves on, a thread starts an operation, or a thread does the next step of its
  own.  Every list of actions is a schedule; an action that is not possible
  does nothing.

  The expunging step of a `get` takes out at most one entry, and only an entry
  that is expired at that moment (`expunge_safe`): whatever the others did in
  between, an entry EQUAL to the one that was found has its timestamp, and its
  deadline has passed.
-/
import EzBakeCommon.Timed.Expiry
import EzBakeCommon.Timed.Refinement
import Mathlib.Logic.Function.Basic

namespace EzBakeCommon.Timed

open Library
open EzBakeCommon.Lru (KeyView LRUCache oldest)

/-! ## §1. Threads. -/

/-- Where a thread is. -/
inductive Pc (K V : Type*) where
  /-- Between operations; the last lookup returned this. -/
  | idle (answer : Option V)
  /-- In `put`: the value is wrapped, the lock not taken. -/
  | putting (key : K) (cacheValue : CacheValue V)
  /-- In `get`: this was found, and is not checked. -/
  | checking (key : K) (cacheValue : CacheValue V)
  /-- In `get`: this was found expired, the lock not taken again. -/
  | expunging (key : K) (cacheValue : CacheValue V)
  /-- In `pop`: this was taken out, and is not checked. -/
  | popped (cacheValue : CacheValue V)

/-- The shared cache, the time, and every thread. -/
structure World (Tid K V : Type*) where
  base : LRUCache K (CacheValue V)
  now : Instant
  pc : Tid → Pc K V

/-- What may happen next.  An operation that reads the clock under the lock
takes its readings from a clock of its own: other threads read theirs in between. -/
inductive Action (Tid K V : Type*) where
  | tick (later : Instant)
  | invoke (t : Tid) (call : Call K V) (clock : Clock)
  | proceed (t : Tid) (view : KeyView K (CacheValue V))

variable {Tid K V : Type*} [DecidableEq Tid]

/-- Thread `t` moves on, and leaves the shared cache like this. -/
def World.goto (w : World Tid K V) (t : Tid) (base : LRUCache K (CacheValue V)) (pc : Pc K V) :
    World Tid K V :=
  { w with base := base, pc := Function.update w.pc t pc }

variable [DecidableEq K] [DecidableEq V]

section Steps

variable (T : PosixTime) (expiration : UInt64) (w : World Tid K V) (t : Tid)
  (view : KeyView K (CacheValue V))

/-- The next step of an operation that has begun. -/
def proceed : World Tid K V :=
  match w.pc t with
  | .idle _ => w
  | .putting k cv => w.goto t (w.base.put view k cv) (.idle none)
  -- the check reads the clock outside the lock
  | .checking k cv =>
      if LRUTimedCache.expiredAt T expiration cv.timestamp w.now then
        w.goto t w.base (.expunging k cv)
      else w.goto t w.base (.idle (some cv.value))
  | .expunging k cv => w.goto t (w.base.removeValue view k cv).2 (.idle none)
  | .popped cv =>
      w.goto t w.base (.idle
        (if LRUTimedCache.expiredAt T expiration cv.timestamp w.now then none
        else some cv.value))

variable [LT K] [DecidableLT K] [LT V] [DecidableLT V]

/-- The first step of an operation; the last one too, if the operation holds
the lock throughout. -/
def invoke (call : Call K V) (clock : Clock) : World Tid K V :=
  match call.op with
  | .put k v => w.goto t w.base (.putting k (CacheValue.new T w.now v))
  | .get k =>
      match w.base.get call.view k with
      | (some cv, base) => w.goto t base (.checking k cv)
      | (none, base) => w.goto t base (.idle none)
  | .pop k =>
      match w.base.pop call.view k with
      | (some cv, base) => w.goto t base (.popped cv)
      | (none, base) => w.goto t base (.idle none)
  -- one critical section from beginning to end
  | _ =>
      w.goto t (step ⟨T, clock.reading, clock.steady⟩ ⟨w.base, expiration, 0⟩ call).2.toLRUCache
        (.idle none)

/-- One action. -/
def act : Action Tid K V → World Tid K V
  -- the clock is never set back
  | .tick later => if w.now.micros ≤ later.micros then { w with now := later } else w
  | .invoke t call clock =>
      match w.pc t with
      | .idle _ => invoke T expiration w t call clock
      | _ => w
  | .proceed t view => proceed T expiration w t view

end Steps

variable [LT K] [DecidableLT K] [LT V] [DecidableLT V]

/-- The threads as one machine. -/
def threads (T : PosixTime) (expiration : UInt64) (Tid K V : Type*) [DecidableEq Tid]
    [DecidableEq K] [DecidableEq V] [LT K] [DecidableLT K] [LT V] [DecidableLT V] :
    Machine (World Tid K V) (Action Tid K V) Unit := ⟨fun w a => ((), act T expiration w a)⟩

/-- The world that a schedule leads to, from an empty cache and idle threads. -/
def interleaving (T : PosixTime) (capacity : UInt32) (expiration : UInt64) (start : Instant)
    (schedule : List (Action Tid K V)) : World Tid K V :=
  ((threads T expiration Tid K V).run
    ⟨LRUCache.new capacity, start, fun _ => .idle none⟩ schedule).state

/-! ### The steps of a thread. -/

section StepLemmas

variable {T : PosixTime} {expiration : UInt64} {w : World Tid K V} {t : Tid}
  (view : KeyView K (CacheValue V)) {k : K} {cv : CacheValue V}

omit [DecidableEq K] [DecidableEq V] [LT K] [DecidableLT K] [LT V] [DecidableLT V] in
@[simp] theorem goto_pc (base : LRUCache K (CacheValue V)) (pc : Pc K V) :
    (w.goto t base pc).pc t = pc := Function.update_self _ _ _

theorem act_invoke {a : Option V} (h : w.pc t = .idle a) (call : Call K V) (clock : Clock) :
    act T expiration w (.invoke t call clock) = invoke T expiration w t call clock := by
  show (match w.pc t with
    | .idle _ => invoke T expiration w t call clock
    | _ => w) = _
  rw [h]

theorem invoke_get (clock : Clock) : invoke T expiration w t ⟨view, .get k⟩ clock
    = w.goto t (w.base.get view k).2 (match oldest k w.base.entries with
      | some p => .checking k p.2
      | none => .idle none) := by
  show (match w.base.get view k with
    | (some cv, base) => w.goto t base (.checking k cv)
    | (none, base) => w.goto t base (.idle none)) = _
  rw [base_get view (⟨w.base, expiration, 0⟩ : LRUTimedCache K V)]
  cases oldest k w.base.entries <;> rfl

theorem invoke_pop (clock : Clock) : invoke T expiration w t ⟨view, .pop k⟩ clock
    = w.goto t (w.base.pop view k).2 (match oldest k w.base.entries with
      | some p => .popped p.2
      | none => .idle none) := by
  show (match w.base.pop view k with
    | (some cv, base) => w.goto t base (.popped cv)
    | (none, base) => w.goto t base (.idle none)) = _
  rw [base_pop view (⟨w.base, expiration, 0⟩ : LRUTimedCache K V)]
  cases oldest k w.base.entries <;> rfl

omit [LT K] [DecidableLT K] [LT V] [DecidableLT V]

theorem proceed_idle {a : Option V} (h : w.pc t = .idle a) :
    proceed T expiration w t view = w := by
  unfold proceed
  rw [h]

theorem proceed_putting (h : w.pc t = .putting k cv) :
    proceed T expiration w t view = w.goto t (w.base.put view k cv) (.idle none) := by
  unfold proceed
  rw [h]

theorem proceed_expired (h : w.pc t = .checking k cv)
    (he : LRUTimedCache.expiredAt T expiration cv.timestamp w.now = true) :
    proceed T expiration w t view = w.goto t w.base (.expunging k cv) := by
  unfold proceed
  rw [h]
  exact if_pos he

theorem proceed_live (h : w.pc t = .checking k cv)
    (he : LRUTimedCache.expiredAt T expiration cv.timestamp w.now = false) :
    proceed T expiration w t view = w.goto t w.base (.idle (some cv.value)) := by
  unfold proceed
  rw [h]
  exact if_neg (by simp [he])

theorem proceed_expunging (h : w.pc t = .expunging k cv) :
    proceed T expiration w t view
      = w.goto t (w.base.removeValue view k cv).2 (.idle none) := by
  unfold proceed
  rw [h]

theorem proceed_popped (h : w.pc t = .popped cv) :
    proceed T expiration w t view = w.goto t w.base (.idle
      (if LRUTimedCache.expiredAt T expiration cv.timestamp w.now then none
      else some cv.value)) := by
  unfold proceed
  rw [h]

end StepLemmas

/-- **An operation that is not interrupted is the operation of the sequential
cache**, read with a clock that stands still. -/
theorem uninterrupted (T : PosixTime) (expiration : UInt64) {w : World Tid K V} {t : Tid}
    {a : Option V} (h : w.pc t = .idle a) (call : Call K V) :
    (proceed T expiration (proceed T expiration
        (act T expiration w (.invoke t call (Clock.still T w.now))) t call.view) t call.view).base
      = (step (Clock.still T w.now) ⟨w.base, expiration, 0⟩ call).2.toLRUCache := by
  obtain ⟨view, op⟩ := call
  rw [act_invoke h]
  -- the cache of the sequential model, and what it finds
  let c : LRUTimedCache K V := ⟨w.base, expiration, 0⟩
  cases op with
  | put k v =>
      show (proceed T expiration (proceed T expiration (w.goto t w.base
        (.putting k (CacheValue.new T w.now v))) t view) t view).base = _
      rw [proceed_putting view (goto_pc _ _), proceed_idle view (goto_pc _ _)]
      rfl
  | get k =>
      show _ = (c.get (Clock.still T w.now) view k).2.toLRUCache
      rw [invoke_get]
      cases hp : oldest k c.entries with
      | none =>
          rw [get_none _ view hp, proceed_idle view (goto_pc _ _), proceed_idle view (goto_pc _ _)]
          rfl
      | some p =>
          show (proceed T expiration (proceed T expiration (w.goto t (w.base.get view k).2
            (.checking k p.2)) t view) t view).base = _
          cases he : (c.expired (Clock.still T w.now) p.2.timestamp).1 with
          | true =>
              have he' : LRUTimedCache.expiredAt T expiration p.2.timestamp w.now = true := he
              rw [get_expired _ view hp he, proceed_expired view (goto_pc _ _) he',
                proceed_expunging view (goto_pc _ _)]
              rfl
          | false =>
              have he' : LRUTimedCache.expiredAt T expiration p.2.timestamp w.now = false := he
              rw [get_live _ view hp he, LRUTimedCache.expired_base,
                proceed_live view (goto_pc _ _) he', proceed_idle view (goto_pc _ _)]
              rfl
  | pop k =>
      show _ = (c.pop (Clock.still T w.now) view k).2.toLRUCache
      rw [invoke_pop]
      cases hp : oldest k c.entries with
      | none =>
          rw [pop_none _ view hp, proceed_idle view (goto_pc _ _), proceed_idle view (goto_pc _ _)]
          rfl
      | some p =>
          rw [pop_some _ view hp, LRUTimedCache.expired_base, proceed_popped view (goto_pc _ _),
            proceed_idle view (goto_pc _ _)]
          rfl
  | _ =>
      show (proceed T expiration (proceed T expiration (w.goto t _ (.idle none)) t view)
        t view).base = _
      rw [proceed_idle view (goto_pc _ _), proceed_idle view (goto_pc _ _)]
      rfl

/-! ## §2. The invariant. -/

/-- What a thread is about to expunge is expired. -/
def Doomed (T : PosixTime) (expiration : UInt64) (now : Instant) : Pc K V → Prop
  | .expunging _ cv => LRUTimedCache.expiredAt T expiration cv.timestamp now = true
  | _ => True

/-- Every thread that is about to expunge something has found it expired. -/
def Inv (T : PosixTime) (expiration : UInt64) (w : World Tid K V) : Prop :=
  ∀ t, Doomed T expiration w.now (w.pc t)

section Invariant

variable {T : PosixTime} {expiration : UInt64} {w : World Tid K V}

omit [DecidableEq K] [DecidableEq V] [LT K] [DecidableLT K] [LT V] [DecidableLT V] in
/-- A thread moves on without disturbing the others. -/
theorem inv_goto (hw : Inv T expiration w) (t : Tid) (base : LRUCache K (CacheValue V))
    {pc : Pc K V} (hpc : Doomed T expiration w.now pc) :
    Inv T expiration (w.goto t base pc) := by
  intro t'
  show Doomed T expiration w.now (Function.update w.pc t pc t')
  -- the thread itself, and the others, whose place and time are as before
  by_cases h : t' = t
  · subst h
    rw [Function.update_self]
    exact hpc
  · rw [Function.update_of_ne h]
    exact hw t'

omit [DecidableEq Tid] [DecidableEq K] [DecidableEq V] [LT K] [DecidableLT K] [LT V]
  [DecidableLT V] in
/-- What is expired stays expired while the clock moves on. -/
theorem inv_tick (hT : T.Counts) (hw : Inv T expiration w) {later : Instant}
    (hle : w.now.micros ≤ later.micros) : Inv T expiration { w with now := later } := by
  intro t
  have ht := hw t
  show Doomed T expiration later (w.pc t)
  cases hpc : w.pc t with
  | expunging k cv =>
      rw [hpc] at ht
      exact expiredAt_mono hT hle ht
  | _ => trivial

omit [LT K] [DecidableLT K] [LT V] [DecidableLT V] in
theorem inv_proceed (hw : Inv T expiration w) (t : Tid) (view : KeyView K (CacheValue V)) :
    Inv T expiration (proceed T expiration w t view) := by
  unfold proceed
  cases w.pc t with
  | idle a => exact hw
  | putting k cv => exact inv_goto hw t _ trivial
  | checking k cv =>
      -- the only way into `expunging` is through the check
      show Inv T expiration (if LRUTimedCache.expiredAt T expiration cv.timestamp w.now = true
        then w.goto t w.base (.expunging k cv) else w.goto t w.base (.idle (some cv.value)))
      split
      next he => exact inv_goto hw t _ he
      next => exact inv_goto hw t _ trivial
  | expunging k cv => exact inv_goto hw t _ trivial
  | popped cv => exact inv_goto hw t _ trivial

theorem inv_invoke (hw : Inv T expiration w) (t : Tid) (call : Call K V) (clock : Clock) :
    Inv T expiration (invoke T expiration w t call clock) := by
  obtain ⟨view, op⟩ := call
  cases op with
  | get k =>
      show Inv T expiration (match w.base.get view k with
        | (some cv, base) => w.goto t base (.checking k cv)
        | (none, base) => w.goto t base (.idle none))
      split <;> exact inv_goto hw t _ trivial
  | pop k =>
      show Inv T expiration (match w.base.pop view k with
        | (some cv, base) => w.goto t base (.popped cv)
        | (none, base) => w.goto t base (.idle none))
      split <;> exact inv_goto hw t _ trivial
  | _ => exact inv_goto hw t _ trivial

theorem inv_act (hT : T.Counts) (hw : Inv T expiration w) (a : Action Tid K V) :
    Inv T expiration (act T expiration w a) := by
  cases a with
  | tick later =>
      show Inv T expiration (if w.now.micros ≤ later.micros then { w with now := later } else w)
      split
      · exact inv_tick hT hw ‹_›
      · exact hw
  | invoke t call clock =>
      show Inv T expiration (match w.pc t with
        | .idle _ => invoke T expiration w t call clock
        | _ => w)
      cases w.pc t with
      | idle a => exact inv_invoke hw t call clock
      | _ => exact hw
  | proceed t view => exact inv_proceed hw t view

theorem interleaving_inv (hT : T.Counts) (capacity : UInt32) (expiration : UInt64)
    (start : Instant) (schedule : List (Action Tid K V)) :
    Inv T expiration (interleaving T capacity expiration start schedule) :=
  (threads T expiration Tid K V).state_induction
    (s := ⟨LRUCache.new capacity, start, fun _ => .idle none⟩) (I := Inv T expiration)
    (fun _ => trivial) (fun _ a hw => inv_act hT hw a) schedule

end Invariant

/-! ## §3. The expunging step. -/

/-- What a step has taken out: nothing, or one entry, expired at that moment. -/
def TakesOnlyExpired (T : PosixTime) (expiration : UInt64) (w w' : World Tid K V) : Prop :=
  w'.base.entries = w.base.entries ∨
    ∃ p l₁ l₂, w.base.entries = l₁ ++ p :: l₂ ∧ w'.base.entries = l₁ ++ l₂ ∧
      LRUTimedCache.expiredAt T expiration p.2.timestamp w.now = true

omit [LT K] [DecidableLT K] [LT V] [DecidableLT V] in
/-- `remove(key, value)` of the base class takes out one entry at most, and
exactly the pair it is given. -/
theorem removeValue_cases (base : LRUCache K (CacheValue V)) (view : KeyView K (CacheValue V))
    (k : K) (cv : CacheValue V) :
    (base.removeValue view k cv).2.entries = base.entries ∨
      ∃ l₁ l₂, base.entries = l₁ ++ (k, cv) :: l₂ ∧
        (base.removeValue view k cv).2.entries = l₁ ++ l₂ := by
  unfold LRUCache.removeValue
  cases h : base.findEntry view k cv with
  | none => exact Or.inl rfl
  | some itr =>
      right
      have hget := Lru.findEntry_eq_some base view k h
      refine ⟨base.entries.take itr, base.entries.drop (itr + 1), ?_, ?_⟩
      · rw [← hget, List.get_eq_getElem, List.cons_getElem_drop_succ, List.take_append_drop]
      · exact List.eraseIdx_eq_take_drop_succ _ _

/-- **In any schedule, the expunging step of a `get` takes out at most one
entry, and no entry that is unexpired at that moment.** -/
theorem expunge_safe {T : PosixTime} (hT : T.Counts) (capacity : UInt32) (expiration : UInt64)
    (start : Instant) (schedule : List (Action Tid K V)) (t : Tid)
    (view : KeyView K (CacheValue V)) {k : K} {cv : CacheValue V}
    (hpc : (interleaving T capacity expiration start schedule).pc t = .expunging k cv) :
    TakesOnlyExpired T expiration (interleaving T capacity expiration start schedule)
      (act T expiration (interleaving T capacity expiration start schedule) (.proceed t view)) := by
  have hinv := interleaving_inv hT capacity expiration start schedule t
  generalize interleaving T capacity expiration start schedule = w at hpc hinv
  rw [hpc] at hinv
  have hafter : (act T expiration w (.proceed t view)).base
      = (w.base.removeValue view k cv).2 := by
    show (proceed T expiration w t view).base = _
    rw [proceed_expunging view hpc]
    rfl
  unfold TakesOnlyExpired
  rw [hafter]
  rcases removeValue_cases w.base view k cv with h | ⟨l₁, l₂, h₁, h₂⟩
  · exact Or.inl h
  · -- an entry equal to the one that was found carries its timestamp
    exact Or.inr ⟨(k, cv), l₁, l₂, h₁, h₂, hinv⟩

/-- Thread 0 finds the entry of 0 s expired at 5 s; before it takes the lock
again, thread 1 puts the same pair. -/
def freshPutInBetween : List (Action ℕ ℕ ℕ) :=
  let still := Clock.still PosixTime.counting ⟨0, by decide⟩
  [.invoke 0 ⟨KeyView.listOrder, .put 1 7⟩ still, .proceed 0 KeyView.listOrder,
    .tick ⟨5000000, by decide⟩, .invoke 0 ⟨KeyView.listOrder, .get 1⟩ still,
    .proceed 0 KeyView.listOrder, .invoke 1 ⟨KeyView.listOrder, .put 1 7⟩ still,
    .proceed 1 KeyView.listOrder]

/-- Both entries are there when thread 0 expunges; the fresh one stays. -/
theorem fresh_put_in_between :
    (interleaving PosixTime.counting 0 5 ⟨0, by decide⟩ freshPutInBetween).base.entries
      = [(1, ⟨0, 7⟩), (1, ⟨5, 7⟩)] ∧
    TakesOnlyExpired PosixTime.counting 5
      (interleaving PosixTime.counting 0 5 ⟨0, by decide⟩ freshPutInBetween)
      (act PosixTime.counting 5
        (interleaving PosixTime.counting 0 5 ⟨0, by decide⟩ freshPutInBetween)
        (.proceed 0 KeyView.listOrder)) ∧
    (act PosixTime.counting 5
      (interleaving PosixTime.counting 0 5 ⟨0, by decide⟩ freshPutInBetween)
      (.proceed 0 KeyView.listOrder)).base.entries = [(1, ⟨5, 7⟩)] :=
  ⟨by decide, expunge_safe PosixTime.counting_counts 0 5 ⟨0, by decide⟩ freshPutInBetween 0
    KeyView.listOrder (by rfl : _ = Pc.expunging 1 ⟨0, 7⟩), by decide⟩

end EzBakeCommon.Timed
