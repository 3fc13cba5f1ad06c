/-
  EzBakeCommon.Timed.Misses — an expired entry hides its key at most once.

  `get` and `pop` look at the oldest entry of a key only, and answer nothing if
  it is expired, whatever else the key holds.  But the entry is gone afterwards.
  So the lookups that miss a key that has entries are paid for by the puts under
  that key: over a whole session they are no more than the puts, less the entries
  that are still there (`session_misses`).
-/
import EzBakeCommon.Timed.Refinement
import Mathlib.Data.List.Nodup

namespace EzBakeCommon.Timed

open Library
open EzBakeCommon.Lru (KeyView LRUCache oldest underKey WellFormed)

variable {K V : Type*} [DecidableEq K]

/-- A lookup of the key. -/
def Op.looksUp (k : K) : Op K V → Bool
  | .get k' => k' = k
  | .pop k' => k' = k
  | _ => false

omit [DecidableEq K] in
/-- Nothing was found. -/
def Answer.isNothing : Answer K V → Bool
  | .value none => true
  | _ => false

/-- A lookup that answers nothing although the key has entries. -/
def missed (k : K) (e : Event (LRUTimedCache K V) (Call K V) (Answer K V)) : Bool :=
  e.call.op.looksUp k && e.answer.isNothing && !(underKey k e.before.entries).isEmpty

/-- A put under the key. -/
def putsUnder (k : K) (e : Event (LRUTimedCache K V) (Call K V) (Answer K V)) : Bool :=
  match e.call.op with
  | .put k' _ => k' = k
  | _ => false

/-! ## §1. One call. -/

section Call

variable {l l' : List (K × CacheValue V)} {k : K}

theorem mem_underKey_iff {p : K × CacheValue V} : p ∈ underKey k l ↔ p ∈ l ∧ p.1 = k := by
  simp [underKey]

/-- What has no more entries has no more of the key. -/
theorem underKey_length_le (hnd : l'.Nodup) {m : List (K × CacheValue V)}
    (hsub : ∀ p ∈ underKey k l', p ∈ m) : (underKey k l').length ≤ m.length :=
  (List.Nodup.subperm (hnd.filter _) hsub).length_le

variable [DecidableEq V] [LT K] [DecidableLT K] [LT V] [DecidableLT V] {clock : Clock}
  {c : LRUTimedCache K V} {call : Call K V} (hc : WellFormed c.toLRUCache)
include hc

omit [LT K] [DecidableLT K] [LT V] [DecidableLT V] in
/-- Taking out the oldest entry of the key leaves it one entry less. -/
theorem underKey_discard {p : K × CacheValue V} (hp : oldest k c.entries = some p) :
    (underKey k ((c.asList hc).discard p).items).length + 1 = (underKey k c.entries).length := by
  have hperm := ((c.asList hc).discard_perm (Lru.oldest_mem hp)).filter (fun q => q.1 = k)
  rw [List.filter_cons_of_pos (by simpa using Lru.oldest_key hp)] at hperm
  exact hperm.length_eq.symm

omit [LT K] [DecidableLT K] [LT V] [DecidableLT V] hc [DecidableEq V] in
theorem oldest_of_held (h : (underKey k c.entries).isEmpty = false) :
    ∃ p, oldest k c.entries = some p := by
  refine Option.ne_none_iff_exists'.mp (fun hnone => ?_)
  obtain ⟨p, hp⟩ := List.isEmpty_eq_false_iff_exists_mem.mp h
  exact Lru.oldest_eq_none.mp hnone p (mem_underKey_iff.mp hp).1 (mem_underKey_iff.mp hp).2

/-- A lookup that misses a key with entries takes the oldest of them out. -/
theorem missed_discards {call : Call K V}
    (hm : missed k ((machine clock K V).event c call) = true) :
    ∃ p, oldest k c.entries = some p ∧
      (step clock c call).2.entries = ((c.asList hc).discard p).items := by
  obtain ⟨⟨hlook, hnothing⟩, hheld⟩ :
      (call.op.looksUp k = true ∧ (step clock c call).1.isNothing = true) ∧
        (underKey k c.entries).isEmpty = false := by
    simpa [missed, Machine.event, machine] using hm
  obtain ⟨p, hp⟩ := oldest_of_held hheld
  -- the answer is what is served, so the entry was found expired
  have hexpired : ∀ call' : Call K V, call'.op = .get k ∨ call'.op = .pop k →
      (step clock c call').1.isNothing = true → (c.expired clock p.2.timestamp).1 = true := by
    intro call' hop hnothing
    rw [(lookup_answer clock c call' hop).1] at hnothing
    unfold served at hnothing
    simp only [hp] at hnothing
    cases he : (c.expired clock p.2.timestamp).1 with
    | true => rfl
    | false => exact absurd hnothing (by simp [he, Answer.isNothing])
  refine ⟨p, hp, ?_⟩
  obtain ⟨view, op⟩ := call
  cases op with
  | get k' =>
      obtain rfl : k' = k := by simpa [Op.looksUp] using hlook
      exact get_expired_entries hc clock view hp (hexpired _ (Or.inl rfl) hnothing)
  | pop k' =>
      obtain rfl : k' = k := by simpa [Op.looksUp] using hlook
      exact pop_some_entries hc clock view hp
  | _ => exact absurd hlook (by simp [Op.looksUp])

/-- Any call leaves no more of the key than there was, but for what it puts. -/
theorem step_underKey (hafter : WellFormed (step clock c call).2.toLRUCache) :
    (underKey k (step clock c call).2.entries).length
      ≤ (underKey k c.entries).length + (putsUnder k ((machine clock K V).event c call)).toNat := by
  by_cases hput : ∃ v, call.op = .put k v
  · -- one more at most
    obtain ⟨v, hop⟩ := hput
    have hone : putsUnder k ((machine clock K V).event c call) = true := by
      unfold putsUnder Machine.event
      simp only [hop, decide_true]
    rw [hone]
    refine underKey_length_le hafter.nodup
      (m := (k, CacheValue.new clock.toPosixTime (c.now clock) v) :: underKey k c.entries) ?_
    intro p hp
    obtain ⟨hp, hpk⟩ := mem_underKey_iff.mp hp
    rcases step_enters clock hc hp with hp | ⟨w, hop', hcv⟩
    · exact List.mem_cons_of_mem _ (mem_underKey_iff.mpr ⟨hp, hpk⟩)
    · rw [hop] at hop'
      injection hop' with _ hw
      refine List.mem_cons.mpr (Or.inl (Prod.ext hpk ?_))
      rw [hcv, hw]
  · refine Nat.le_trans (underKey_length_le hafter.nodup (m := underKey k c.entries) ?_)
      (Nat.le_add_right _ _)
    intro p hp
    obtain ⟨hp, hpk⟩ := mem_underKey_iff.mp hp
    rcases step_enters clock hc hp with hp | ⟨w, hop, -⟩
    · exact mem_underKey_iff.mpr ⟨hp, hpk⟩
    · exact absurd ⟨w, hpk ▸ hop⟩ hput

/-- **The account of one call.** -/
theorem event_misses (call : Call K V) (hafter : WellFormed (step clock c call).2.toLRUCache) :
    (missed k ((machine clock K V).event c call)).toNat
        + (underKey k (step clock c call).2.entries).length
      ≤ (underKey k c.entries).length
        + (putsUnder k ((machine clock K V).event c call)).toNat := by
  cases hm : missed k ((machine clock K V).event c call) with
  | false =>
      rw [Bool.toNat_false, Nat.zero_add]
      exact step_underKey hc hafter
  | true =>
      obtain ⟨p, hp, hentries⟩ := missed_discards hc hm
      have hless := underKey_discard hc hp
      rw [hentries, Bool.toNat_true]
      omega

end Call

/-! ## §2. Every session. -/

variable [DecidableEq V] [LT K] [DecidableLT K] [LT V] [DecidableLT V]

/-- **The lookups that miss a key with entries, and the entries it still has, are
no more than the puts under the key.** -/
theorem session_misses (clock : Clock) (capacity : UInt32) (expiration : UInt64)
    (calls : List (Call K V)) (k : K) :
    (session clock capacity expiration calls).history.countP (missed k)
        + (underKey k (session clock capacity expiration calls).state.entries).length
      ≤ (session clock capacity expiration calls).history.countP (putsUnder k) := by
  suffices key : Reachable capacity expiration (session clock capacity expiration calls).state ∧
      (session clock capacity expiration calls).history.countP (missed k)
          + (underKey k (session clock capacity expiration calls).state.entries).length
        ≤ (session clock capacity expiration calls).history.countP (putsUnder k) from key.2
  refine (machine clock K V).run_induction (s := LRUTimedCache.new capacity expiration)
    (I := fun r => Reachable capacity expiration r.state ∧
      r.history.countP (missed k) + (underKey k r.state.entries).length
        ≤ r.history.countP (putsUnder k))
    ⟨Reachable.new, Nat.le_refl 0⟩ ?_ calls
  intro r call ih
  obtain ⟨hr, hcount⟩ := ih
  have hnext := hr.step clock call
  have hevent := event_misses (k := k) hr.base.wellFormed call hnext.base.wellFormed
  refine ⟨hnext, ?_⟩
  show List.countP (missed k) (_ :: r.history)
      + (underKey k (step clock r.state call).2.entries).length
    ≤ List.countP (putsUnder k) (_ :: r.history)
  have hone : ∀ b : Bool, (if b = true then 1 else 0) = b.toNat := by
    intro b
    cases b <;> rfl
  rw [List.countP_cons, List.countP_cons, hone, hone]
  omega

end EzBakeCommon.Timed
