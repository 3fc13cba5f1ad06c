/-
  EzBakeCommon.Timed.InFlight — no thread is served a stale value.

  A value in the shared cache, and a value a thread has in its hands between two
  steps, was wrapped by an accepted `put` of the schedule, under the key it is
  found under, and at an instant that has passed.  A thread that has found
  something is in the middle of the `get` or `pop` it has begun last.  Both facts
  survive every action (`accounted_act`), so a lookup that ends with a value is
  answered with one that was wrapped less than the expiration ago
  (`interleaving_fresh`).
-/
import EzBakeCommon.Timed.Serial
import EzBakeCommon.Lru.Law

namespace EzBakeCommon.Timed

open Library
open EzBakeCommon.Lru (KeyView LRUCache oldest WellFormed)

variable {Tid K V : Type*}

/-! ## §1. What a schedule has begun. -/

/-- The operation that an event begins, and the thread that begins it. -/
def begun (e : Event (World Tid K V) (Action Tid K V) Unit) : Option (Tid × Op K V) :=
  match e.call with
  | .invoke t call _ =>
      match e.before.pc t with
      | .idle _ => some (t, call.op)
      | _ => none
  | _ => none

/-- The operation that thread `t` has begun last. -/
def pending [DecidableEq Tid] (t : Tid)
    (h : List (Event (World Tid K V) (Action Tid K V) Unit)) : Option (Op K V) :=
  ((h.filterMap begun).find? (fun b => b.1 = t)).map Prod.snd

/-- A thread has begun to put this value under this key at instant `built`. -/
def PutAt (h : List (Event (World Tid K V) (Action Tid K V) Unit)) (k : K) (v : V)
    (built : Instant) : Prop :=
  ∃ e ∈ h, ∃ t, begun e = some (t, .put k v) ∧ e.before.now = built

/-- That `put` wrapped this value. -/
def Wrapped (T : PosixTime) (h : List (Event (World Tid K V) (Action Tid K V) Unit))
    (p : K × CacheValue V) (built : Instant) : Prop :=
  PutAt h p.1 p.2.value built ∧ p.2 = CacheValue.new T built p.2.value

/-- It was wrapped, and not in the future. -/
def Origin (T : PosixTime) (h : List (Event (World Tid K V) (Action Tid K V) Unit))
    (now : Instant) (p : K × CacheValue V) : Prop :=
  ∃ built, built.micros ≤ now.micros ∧ Wrapped T h p built

theorem Origin.mono {T : PosixTime} {h : List (Event (World Tid K V) (Action Tid K V) Unit)}
    {now later : Instant} {p : K × CacheValue V} (ho : Origin T h now p)
    (hle : now.micros ≤ later.micros) (e : Event (World Tid K V) (Action Tid K V) Unit) :
    Origin T (e :: h) later p := by
  obtain ⟨built, hbuilt, ⟨e', he', hput⟩, hcv⟩ := ho
  exact ⟨built, Nat.le_trans hbuilt hle, ⟨e', List.mem_cons_of_mem e he', hput⟩, hcv⟩

section Pending

variable {e : Event (World Tid K V) (Action Tid K V) Unit}
  {h : List (Event (World Tid K V) (Action Tid K V) Unit)} {t : Tid}

/-- Only the thread that moves begins something. -/
theorem begun_thread {b : Tid × Op K V} (hb : begun e = some b) : e.call.thread = some b.1 := by
  unfold begun at hb
  split at hb
  next t' call clock hcall =>
    split at hb
    · obtain rfl := Option.some.inj hb
      rw [hcall]
      rfl
    · exact absurd hb (by simp)
  · exact absurd hb (by simp)

variable [DecidableEq Tid]

theorem pending_begun {op : Op K V} (hb : begun e = some (t, op)) :
    pending t (e :: h) = some op := by
  unfold pending
  rw [List.filterMap_cons_some hb, List.find?_cons_of_pos (by simp)]
  rfl

theorem pending_other (hb : ∀ op, begun e ≠ some (t, op)) :
    pending t (e :: h) = pending t h := by
  unfold pending
  cases he : begun e with
  | none => rw [List.filterMap_cons_none he]
  | some b =>
      obtain ⟨t', op⟩ := b
      have hne : t' ≠ t := fun ht => hb op (by rw [he, ht])
      rw [List.filterMap_cons_some he, List.find?_cons_of_neg (by simpa using hne)]

end Pending

/-! ## §2. One action. -/

section Step

variable [DecidableEq Tid] [DecidableEq K] [DecidableEq V] [LT K] [DecidableLT K] [LT V]
  [DecidableLT V] (T : PosixTime) (expiration : UInt64) {w : World Tid K V}

theorem invoke_now (t : Tid) (call : Call K V) (clock : Clock) :
    (invoke T expiration w t call clock).now = w.now := by
  obtain ⟨view, op⟩ := call
  cases op with
  | get k =>
      rw [invoke_get]
      rfl
  | pop k =>
      rw [invoke_pop]
      rfl
  | _ => rfl

omit [LT K] [DecidableLT K] [LT V] [DecidableLT V] in
theorem proceed_now (t : Tid) (view : KeyView K (CacheValue V)) :
    (proceed T expiration w t view).now = w.now := by
  unfold proceed
  cases w.pc t with
  | checking k cv =>
      dsimp only
      split <;> rfl
  | _ => rfl

/-- The clock is never set back. -/
theorem act_now (a : Action Tid K V) : w.now.micros ≤ (act T expiration w a).now.micros := by
  cases a with
  | tick later =>
      unfold act
      dsimp only
      split
      · assumption
      · exact Nat.le_refl _
  | invoke t call clock =>
      cases hpc : w.pc t with
      | idle a => rw [act_invoke hpc, invoke_now]
      | _ => rw [act_refused T expiration w (by simp [hpc])]
  | proceed t view => exact Nat.le_of_eq (congrArg _ (proceed_now T expiration t view).symm)

omit [DecidableEq Tid] in
/-- Whoever calls the base class, its laws hold. -/
theorem turns_wellFormed {base : LRUCache K (CacheValue V)} (hbase : WellFormed base)
    (cs : List (Tid × Lru.Call K (CacheValue V))) :
    WellFormed ((turns Tid K V).run base cs).state :=
  (turns Tid K V).state_induction hbase (fun _ c h => Lru.step_wellFormed h c.2) cs

omit [DecidableEq Tid] in
/-- Whoever calls the base class, an entry gets in only by being put. -/
theorem turns_enter {base : LRUCache K (CacheValue V)} (hbase : WellFormed base)
    {p : K × CacheValue V} (cs : List (Tid × Lru.Call K (CacheValue V)))
    (hp : p ∈ ((turns Tid K V).run base cs).state.entries) :
    p ∈ base.entries ∨ ∃ c ∈ cs, c.2.op = .put p.1 p.2 := by
  induction cs using List.reverseRecOn with
  | nil => exact Or.inl hp
  | append_singleton cs c ih =>
      have hwf := turns_wellFormed hbase cs
      rw [Machine.run_concat] at hp
      -- the call has put the entry, or it was there before
      have hcall : p ∈ ((turns Tid K V).run base cs).state.entries ∨
          c.2.op = .put p.1 p.2 := by
        have hp : p ∈ (c.2.op.apply (LRUCache.asList _ hwf)).items :=
          (Lru.step_refines hwf c.2).2 ▸ hp
        rcases Lru.enters _ hp with huses | hp
        · cases hop : c.2.op with
          | put k v =>
              rw [hop] at huses
              obtain rfl := Option.some.inj huses
              exact Or.inr rfl
          | get k =>
              rw [hop] at huses
              exact Or.inl (Lru.oldest_mem huses)
          | _ =>
              rw [hop] at huses
              exact absurd huses (by simp [Lru.Op.uses])
        · exact Or.inl hp
      rcases hcall with hp | hop
      · rcases ih hp with hbefore | ⟨c', hc', hop⟩
        · exact Or.inl hbefore
        · exact Or.inr ⟨c', List.mem_append_left _ hc', hop⟩
      · exact Or.inr ⟨c, List.mem_append_right _ List.mem_cons_self, hop⟩

omit [DecidableEq Tid] in
/-- Only the second step of a `put` puts. -/
theorem sections_put {a : Action Tid K V} {c : Tid × Lru.Call K (CacheValue V)} {k : K}
    {cv : CacheValue V} (hc : c ∈ sections T expiration w a) (hop : c.2.op = .put k cv) :
    ∃ t view, a = .proceed t view ∧ w.pc t = .putting k cv := by
  cases a with
  | tick later => exact absurd hc List.not_mem_nil
  | invoke t call clock =>
      unfold sections at hc
      dsimp only at hc
      split at hc
      · obtain ⟨base, hbase, rfl⟩ := List.mem_map.mp hc
        -- no operation begins with a `put` of the base class
        obtain ⟨view, op⟩ := call
        have hremovals : ∀ es, base ∉ removals view es := by
          intro es hes
          obtain ⟨entry, -, rfl⟩ := List.mem_map.mp hes
          exact absurd hop (by simp)
        cases op with
        | get k =>
            rw [List.mem_singleton.mp hbase] at hop
            exact absurd hop (by simp)
        | pop k =>
            rw [List.mem_singleton.mp hbase] at hop
            exact absurd hop (by simp)
        | remove k =>
            rw [List.mem_singleton.mp hbase] at hop
            exact absurd hop (by simp)
        | clear =>
            rw [List.mem_singleton.mp hbase] at hop
            exact absurd hop (by simp)
        | removeValue k v => exact absurd hbase (hremovals _)
        | containsValue v => exact absurd hbase (hremovals _)
        | getKey v => exact absurd hbase (hremovals _)
        | _ => exact absurd hbase List.not_mem_nil
      · exact absurd hc List.not_mem_nil
  | proceed t view =>
      obtain ⟨base, hbase, rfl⟩ := List.mem_map.mp hc
      refine ⟨t, view, rfl, ?_⟩
      cases hpc : w.pc t with
      | putting k' cv' =>
          rw [hpc] at hbase
          rw [List.mem_singleton.mp hbase] at hop
          injection hop with hk hcv
          rw [hk, hcv]
      | expunging k' cv' =>
          rw [hpc] at hbase
          rw [List.mem_singleton.mp hbase] at hop
          exact absurd hop (by simp)
      | _ =>
          rw [hpc] at hbase
          exact absurd hbase List.not_mem_nil

/-- One action keeps the laws of the base class. -/
theorem act_wellFormed (hw : WellFormed w.base) (a : Action Tid K V) :
    WellFormed (act T expiration w a).base := by
  rw [act_base]
  exact turns_wellFormed hw _

/-- An entry gets into the shared cache only by the second step of a `put`. -/
theorem act_enters (hw : WellFormed w.base) {a : Action Tid K V} {p : K × CacheValue V}
    (hp : p ∈ (act T expiration w a).base.entries) :
    p ∈ w.base.entries ∨ ∃ t view, a = .proceed t view ∧ w.pc t = .putting p.1 p.2 := by
  rw [act_base] at hp
  rcases turns_enter hw _ hp with hp | ⟨c, hc, hop⟩
  · exact Or.inl hp
  · exact Or.inr (sections_put T expiration hc hop)

end Step

/-! ## §3. The invariant. -/

section Accounted

variable [DecidableEq Tid] (T : PosixTime)

/-- What a thread has in its hands came from a `put`, and belongs to the
operation the thread has begun last. -/
def Traced (h : List (Event (World Tid K V) (Action Tid K V) Unit)) (now : Instant) (t : Tid) :
    Pc K V → Prop
  | .idle _ => True
  | .putting k cv => Origin T h now (k, cv)
  | .checking k cv => pending t h = some (.get k) ∧ Origin T h now (k, cv)
  -- what is found expired is never returned
  | .expunging _ _ => True
  | .popped cv => ∃ k, pending t h = some (.pop k) ∧ Origin T h now (k, cv)

/-- Every value, held or in flight, is accounted for. -/
structure Accounted (r : Session (World Tid K V) (Action Tid K V) Unit) : Prop where
  laws : WellFormed r.state.base
  held : ∀ p ∈ r.state.base.entries, Origin T r.history r.state.now p
  inFlight : ∀ t, Traced T r.history r.state.now t (r.state.pc t)

variable {T}

/-- An event that begins nothing of thread `t` leaves what it has in its hands. -/
theorem Traced.other {h : List (Event (World Tid K V) (Action Tid K V) Unit)}
    {now later : Instant} {t : Tid} {pc : Pc K V} (ht : Traced T h now t pc)
    (hle : now.micros ≤ later.micros) {e : Event (World Tid K V) (Action Tid K V) Unit}
    (he : ∀ op, begun e ≠ some (t, op)) : Traced T (e :: h) later t pc := by
  cases pc with
  | idle a => trivial
  | putting k cv => exact Origin.mono ht hle e
  | checking k cv => exact ⟨(pending_other he).trans ht.1, ht.2.mono hle e⟩
  | expunging k cv => trivial
  | popped cv =>
      obtain ⟨k, hpend, ho⟩ := ht
      exact ⟨k, (pending_other he).trans hpend, ho.mono hle e⟩

variable [DecidableEq K] [DecidableEq V] [LT K] [DecidableLT K] [LT V] [DecidableLT V]
  {expiration : UInt64} {r : Session (World Tid K V) (Action Tid K V) Unit}

variable (T expiration) in
/-- The event of beginning an operation. -/
theorem begun_idle {w : World Tid K V} {t : Tid} {a : Option V} (hpc : w.pc t = .idle a)
    (call : Call K V) (clock : Clock) :
    begun ((threads T expiration Tid K V).event w (.invoke t call clock))
      = some (t, call.op) := by
  unfold begun Machine.event
  dsimp only
  rw [hpc]

/-- What the first step of an operation finds is held, so it has an origin. -/
theorem traced_invoke (hr : Accounted T r) {t : Tid} {a : Option V}
    (hpc : r.state.pc t = .idle a) (call : Call K V) (clock : Clock) :
    Traced T ((threads T expiration Tid K V).extend r (.invoke t call clock)).history
      r.state.now t ((invoke T expiration r.state t call clock).pc t) := by
  have hbegun := begun_idle T expiration hpc call clock
  have hpending := pending_begun (h := r.history) hbegun
  obtain ⟨view, op⟩ := call
  cases op with
  | put k v =>
      -- the value is wrapped by this event
      show Traced T _ _ _ ((r.state.goto t _ _).pc t)
      rw [goto_pc]
      exact ⟨r.state.now, Nat.le_refl _, ⟨_, List.mem_cons_self, t, hbegun, rfl⟩, rfl⟩
  | get k =>
      rw [invoke_get, goto_pc]
      cases hp : oldest k r.state.base.entries with
      | none => trivial
      | some p =>
          have ho := hr.held p (Lru.oldest_mem hp)
          obtain rfl := Lru.oldest_key hp
          exact ⟨hpending, ho.mono (Nat.le_refl _) _⟩
  | pop k =>
      rw [invoke_pop, goto_pc]
      cases hp : oldest k r.state.base.entries with
      | none => trivial
      | some p =>
          have ho := hr.held p (Lru.oldest_mem hp)
          obtain rfl := Lru.oldest_key hp
          exact ⟨p.1, hpending, ho.mono (Nat.le_refl _) _⟩
  | _ =>
      show Traced T _ _ _ ((r.state.goto t _ _).pc t)
      rw [goto_pc]
      trivial

omit [LT K] [DecidableLT K] [LT V] [DecidableLT V] in
/-- A further step leaves a thread with nothing new in its hands. -/
theorem traced_proceed {h : List (Event (World Tid K V) (Action Tid K V) Unit)}
    {w : World Tid K V} {t : Tid} (ht : Traced T h w.now t (w.pc t))
    (view : KeyView K (CacheValue V)) :
    Traced T h w.now t ((proceed T expiration w t view).pc t) := by
  cases hpc : w.pc t with
  | idle a =>
      rw [proceed_idle view hpc]
      exact ht
  | putting k cv =>
      rw [proceed_putting view hpc, goto_pc]
      trivial
  | checking k cv =>
      cases he : LRUTimedCache.expiredAt T expiration cv.timestamp w.now with
      | true =>
          rw [proceed_expired view hpc he, goto_pc]
          trivial
      | false =>
          rw [proceed_live view hpc he, goto_pc]
          trivial
  | expunging k cv =>
      rw [proceed_expunging view hpc, goto_pc]
      trivial
  | popped cv =>
      rw [proceed_popped view hpc, goto_pc]
      trivial

theorem inFlight_act (hr : Accounted T r) (a : Action Tid K V) (t : Tid) :
    Traced T ((threads T expiration Tid K V).extend r a).history
      (act T expiration r.state a).now t ((act T expiration r.state a).pc t) := by
  have hnow := act_now T expiration (w := r.state) a
  by_cases ha : a.thread = some t
  · -- the thread itself
    cases a with
    | tick later => exact absurd ha (by simp [Action.thread])
    | invoke t' call clock =>
        obtain rfl : t' = t := Option.some.inj ha
        cases hpc : r.state.pc t' with
        | idle a =>
            rw [act_invoke hpc, invoke_now]
            exact traced_invoke hr hpc call clock
        | _ =>
            rw [act_refused T expiration r.state (by simp [hpc])]
            refine (hr.inFlight t').other (Nat.le_refl _) (fun op => ?_)
            unfold begun Machine.event
            dsimp only
            rw [hpc]
            simp
    | proceed t' view =>
        obtain rfl : t' = t := Option.some.inj ha
        exact (traced_proceed (hr.inFlight t') view).other hnow (fun op => by simp [begun,
          Machine.event])
  · -- another one
    rw [act_other T expiration r.state ha]
    exact (hr.inFlight t).other hnow (fun op hop => ha (begun_thread hop))

/-- **Every action keeps the account.** -/
theorem accounted_act (hr : Accounted T r) (a : Action Tid K V) :
    Accounted T ((threads T expiration Tid K V).extend r a) := by
  refine ⟨act_wellFormed T expiration hr.laws a, ?_, inFlight_act hr a⟩
  intro p hp
  have hnow := act_now T expiration (w := r.state) a
  rcases act_enters T expiration hr.laws hp with hp | ⟨t, view, rfl, hpc⟩
  · exact (hr.held p hp).mono hnow _
  · -- the thread had it in its hands
    have ht := hr.inFlight t
    rw [hpc] at ht
    exact Origin.mono ht hnow _

theorem schedule_accounted (T : PosixTime) (capacity : UInt32) (expiration : UInt64)
    (start : Instant) (schedule : List (Action Tid K V)) :
    Accounted T (scheduleSession T capacity expiration start schedule) :=
  (threads T expiration Tid K V).run_induction (I := Accounted T)
    (s := ⟨LRUCache.new capacity, start, fun _ => .idle none⟩)
    ⟨Lru.new_wellFormed capacity, fun _ hp => absurd hp List.not_mem_nil, fun _ => trivial⟩
    (fun _ a hr => accounted_act hr a) schedule

end Accounted

/-! ## §4. What a lookup is answered with. -/

section Fresh

variable [DecidableEq Tid] [DecidableEq K] [DecidableEq V]

/-- A lookup that ends with a value has just checked it. -/
theorem proceed_answer {T : PosixTime} {expiration : UInt64} {w : World Tid K V} {t : Tid}
    {view : KeyView K (CacheValue V)} {v : V} (hbusy : ∀ a, w.pc t ≠ .idle a)
    (h : (proceed T expiration w t view).pc t = .idle (some v)) :
    ∃ cv, cv.value = v ∧ LRUTimedCache.expiredAt T expiration cv.timestamp w.now = false ∧
      ((∃ k, w.pc t = .checking k cv) ∨ w.pc t = .popped cv) := by
  cases hpc : w.pc t with
  | idle a => exact absurd hpc (hbusy a)
  | putting k cv =>
      rw [proceed_putting view hpc, goto_pc] at h
      exact absurd h (by simp)
  | checking k cv =>
      cases he : LRUTimedCache.expiredAt T expiration cv.timestamp w.now with
      | true =>
          rw [proceed_expired view hpc he, goto_pc] at h
          exact absurd h (by simp)
      | false =>
          rw [proceed_live view hpc he, goto_pc] at h
          injection h with h
          exact ⟨cv, Option.some.inj h, he, Or.inl ⟨k, rfl⟩⟩
  | expunging k cv =>
      rw [proceed_expunging view hpc, goto_pc] at h
      exact absurd h (by simp)
  | popped cv =>
      rw [proceed_popped view hpc, goto_pc] at h
      injection h with h
      cases he : LRUTimedCache.expiredAt T expiration cv.timestamp w.now with
      | true => exact absurd h (by simp [he])
      | false =>
          rw [he, if_neg Bool.false_ne_true] at h
          exact ⟨cv, Option.some.inj h, he, Or.inr rfl⟩

variable [LT K] [DecidableLT K] [LT V] [DecidableLT V]

/-- **In any schedule, a lookup is answered with a value that some thread has put
under the very key it asks for, less than the expiration before.** -/
theorem interleaving_fresh {T : PosixTime} (hT : T.Counts) (capacity : UInt32)
    {expiration : UInt64} (h1 : 1 ≤ expiration) (hfit : Fits expiration) (start : Instant)
    (schedule : List (Action Tid K V)) (t : Tid) (view : KeyView K (CacheValue V)) {v : V}
    (hbusy : ∀ a, (interleaving T capacity expiration start schedule).pc t ≠ .idle a)
    (h : (act T expiration (interleaving T capacity expiration start schedule)
      (.proceed t view)).pc t = .idle (some v)) :
    ∃ k built, (pending t (scheduleSession T capacity expiration start schedule).history
          = some (.get k) ∨
        pending t (scheduleSession T capacity expiration start schedule).history
          = some (.pop k)) ∧
      PutAt (scheduleSession T capacity expiration start schedule).history k v built ∧
      built.micros ≤ (interleaving T capacity expiration start schedule).now.micros ∧
      (interleaving T capacity expiration start schedule).now.micros
        < built.micros + expiration.toNat * 1000000 := by
  have ht := (schedule_accounted T capacity expiration start schedule).inFlight t
  change ∀ a, (scheduleSession T capacity expiration start schedule).state.pc t ≠ .idle a at hbusy
  change (proceed T expiration (scheduleSession T capacity expiration start schedule).state t
    view).pc t = .idle (some v) at h
  show ∃ (k : K) (built : Instant), _ ∧ _ ∧
    built.micros ≤ (scheduleSession T capacity expiration start schedule).state.now.micros ∧
    (scheduleSession T capacity expiration start schedule).state.now.micros < _
  generalize scheduleSession T capacity expiration start schedule = r at ht hbusy h
  obtain ⟨cv, rfl, he, hpc⟩ := proceed_answer hbusy h
  -- whichever lookup it was, it holds a value with an origin
  have horigin : ∃ k, (pending t r.history = some (.get k) ∨
      pending t r.history = some (.pop k)) ∧ Origin T r.history r.state.now (k, cv) := by
    rcases hpc with ⟨k, hpc⟩ | hpc
    · rw [hpc] at ht
      exact ⟨k, Or.inl ht.1, ht.2⟩
    · rw [hpc] at ht
      obtain ⟨k, hpend, ho⟩ := ht
      exact ⟨k, Or.inr hpend, ho⟩
  obtain ⟨k, hpend, built, hbuilt, hput, hcv⟩ := horigin
  refine ⟨k, built, hpend, hput, hbuilt, ?_⟩
  have h0 : expiration ≠ 0 := by
    intro h0
    rw [h0] at h1
    exact absurd h1 (by decide)
  dsimp only at hcv
  rw [hcv] at he
  have hnot : ¬ (built.micros / 1000000 + expiration.toNat) * 1000000
      ≤ r.state.now.micros := by
    rw [← expiredAt_new hT h0 hfit built r.state.now cv.value, he]
    simp
  -- the timestamp is the second in which `built` lies
  omega

/-- Thread 1 looks up later what thread 0 has put. -/
def putThenGet (start later : Instant) : List (Action ℕ ℕ ℕ) :=
  let still := Clock.still PosixTime.counting start
  [.invoke 0 ⟨KeyView.listOrder, .put 1 7⟩ still, .proceed 0 KeyView.listOrder,
    .tick later, .invoke 1 ⟨KeyView.listOrder, .get 1⟩ still]

/-- Almost 5 s later it is still served under an expiration of 5 s, and the law
holds there. -/
theorem fresh_put_then_get :
    let script := putThenGet ⟨0, by decide⟩ ⟨4999999, by decide⟩
    (interleaving PosixTime.counting 0 5 ⟨0, by decide⟩ script).pc 1 = .checking 1 ⟨0, 7⟩ ∧
    ∃ k built,
      (pending 1 (scheduleSession PosixTime.counting 0 5 ⟨0, by decide⟩ script).history
          = some (.get k) ∨
        pending 1 (scheduleSession PosixTime.counting 0 5 ⟨0, by decide⟩ script).history
          = some (.pop k)) ∧
      PutAt (scheduleSession PosixTime.counting 0 5 ⟨0, by decide⟩ script).history k 7 built ∧
      built.micros ≤ (interleaving PosixTime.counting 0 5 ⟨0, by decide⟩ script).now.micros ∧
      (interleaving PosixTime.counting 0 5 ⟨0, by decide⟩ script).now.micros
        < built.micros + (5 : UInt64).toNat * 1000000 := by
  intro script
  have hpc : (interleaving PosixTime.counting 0 5 ⟨0, by decide⟩ script).pc 1
      = .checking 1 ⟨0, 7⟩ := rfl
  have hbusy : ∀ a, (interleaving PosixTime.counting 0 5 ⟨0, by decide⟩ script).pc 1
      ≠ .idle a := by
    rw [hpc]
    simp
  have hanswer : (act PosixTime.counting 5
      (interleaving PosixTime.counting 0 5 ⟨0, by decide⟩ script)
      (.proceed 1 KeyView.listOrder)).pc 1 = .idle (some 7) := by
    unfold act
    dsimp only
    rw [proceed_live KeyView.listOrder hpc (by decide), goto_pc]
  have hfit : Fits 5 := by
    unfold Fits
    decide
  exact ⟨hpc, interleaving_fresh PosixTime.counting_counts 0 (by decide) hfit ⟨0, by decide⟩
    script 1 KeyView.listOrder hbusy hanswer⟩

end Fresh

end EzBakeCommon.Timed
