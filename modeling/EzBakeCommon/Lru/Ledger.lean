/-
  EzBakeCommon.Lru.Ledger — no entry is lost, none is made up.

  Every call brings in at most one pair, hands some out to the caller, and drops
  some: the entries that are cleared, or the one that is evicted.  Over a whole
  session the books balance: what has come in is what was handed out, what was
  dropped, and what is still there (`session_ledger`).

  The two laws of the bounded list say all there is to say about the states of a
  cache: any state that keeps them is reached, by putting its entries in order
  (`session_reaches_iff`).
-/
import EzBakeCommon.Lru.Law
import EzBakeCommon.Lru.Removal

namespace EzBakeCommon.Lru

open Library

variable {K V : Type*} [DecidableEq K] [DecidableEq V]

/-! ## §1. The books. -/

/-- The pair that a `put` brings in, if the cache does not hold it. -/
def broughtIn (e : Event (LRUCache K V) (Call K V) (Answer K V)) : List (K × V) :=
  match e.call.op with
  | .put k v => if (k, v) ∈ e.before.entries then [] else [(k, v)]
  | _ => []

/-- The pairs whose values a call returns as it takes them out. -/
def handedOut (e : Event (LRUCache K V) (Call K V) (Answer K V)) : List (K × V) :=
  match e.call.op, e.answer with
  | .pop k, .value v => v.toList.map (k, ·)
  | .remove k, .values vs => vs.map (k, ·)
  | .removeValue k _, .value v => v.toList.map (k, ·)
  | _, _ => []

/-- The pairs that leave unseen: all of them when the cache is cleared, and the
least recently used one when a new pair finds the cache full. -/
def dropped (e : Event (LRUCache K V) (Call K V) (Answer K V)) : List (K × V) :=
  match e.call.op with
  | .clear => e.before.entries
  | .put k v =>
      if (k, v) ∉ e.before.entries ∧ e.before.isFull then e.before.entries.take 1 else []
  | _ => []

/-! ## §2. One call. -/

section Call

variable {c : LRUCache K V} (hc : WellFormed c) (view : KeyView K V) (k : K)
include hc

theorem put_ledger (v : V) :
    ((if (k, v) ∈ c.entries then [] else [(k, v)]) ++ c.entries).Perm
      ((if (k, v) ∉ c.entries ∧ c.isFull then c.entries.take 1 else [])
        ++ (c.put view k v).entries) := by
  rw [put_entries hc view k v]
  by_cases hkv : (k, v) ∈ c.entries
  · -- a pair that is there moves to the end
    rw [if_pos hkv, if_neg (fun h => h.1 hkv), (c.asList hc).place_live hkv,
      ← (c.asList hc).renew_live hkv]
    exact (c.asList hc).renew_perm hkv
  · rw [if_neg hkv]
    cases hfull : c.isFull with
    | true =>
        obtain ⟨h0, hle⟩ := (isFull_iff hc).mp hfull
        rw [if_pos ⟨hkv, rfl⟩, (c.asList hc).place_full hkv h0 hle]
        show ([(k, v)] ++ c.entries).Perm (c.entries.take 1 ++ (c.entries.tail ++ [(k, v)]))
        rw [← List.drop_one, ← List.append_assoc, List.take_append_drop]
        exact List.perm_append_comm
    | false =>
        have hroom : c.capacity.toNat ≠ 0 → c.entries.length < c.capacity.toNat := by
          intro h0
          by_contra hle
          rw [(isFull_iff hc).mpr ⟨h0, not_lt.mp hle⟩] at hfull
          exact Bool.noConfusion hfull
        rw [if_neg (fun h => Bool.false_ne_true h.2), (c.asList hc).place_room hkv hroom]
        exact List.perm_append_comm

theorem get_ledger : c.entries.Perm (c.get view k).2.entries := by
  rw [get_entries hc]
  cases hk : oldest k c.entries with
  | none =>
      rw [apply_get_none hk]
      exact List.Perm.refl _
  | some p =>
      rw [apply_get_some hk]
      exact (c.asList hc).renew_perm (oldest_mem hk)

theorem pop_ledger : c.entries.Perm
    ((c.pop view k).1.toList.map (k, ·) ++ (c.pop view k).2.entries) := by
  rw [pop_answer, pop_entries hc]
  cases hk : oldest k c.entries with
  | none =>
      rw [apply_pop_none hk]
      exact List.Perm.refl _
  | some p =>
      obtain rfl := oldest_key hk
      rw [apply_pop_some hk]
      exact (c.asList hc).discard_perm (oldest_mem hk)

variable [LT K] [DecidableLT K] [LT V] [DecidableLT V]

/-- **The books of one call.** -/
theorem event_ledger (call : Call K V) :
    (broughtIn ((machine K V).event c call) ++ c.entries).Perm
      (handedOut ((machine K V).event c call) ++
        (dropped ((machine K V).event c call) ++ (step c call).2.entries)) := by
  obtain ⟨view, op⟩ := call
  cases op with
  | put k v => exact put_ledger hc view k v
  | get k => exact get_ledger hc view k
  | pop k => exact pop_ledger hc view k
  | remove k => exact (remove_removal c view k).ledger.symm
  | removeValue k v => exact (removeValue_removal c view k v hc).ledger.symm
  | clear =>
      show c.entries.Perm (c.entries ++ [])
      rw [List.append_nil]
  | _ => exact List.Perm.refl _

end Call

/-! ## §3. Every session. -/

variable [LT K] [DecidableLT K] [LT V] [DecidableLT V]

/-- **What has come in is what was handed out, what was dropped, and what is
still there**, each as often as it came. -/
theorem session_ledger (capacity : UInt32) (calls : List (Call K V)) :
    ((session capacity calls).history.flatMap broughtIn).Perm
      ((session capacity calls).history.flatMap handedOut ++
        ((session capacity calls).history.flatMap dropped ++
          (session capacity calls).state.entries)) := by
  suffices key : Reachable capacity (session capacity calls).state ∧
      ((session capacity calls).history.flatMap broughtIn).Perm
        ((session capacity calls).history.flatMap handedOut ++
          ((session capacity calls).history.flatMap dropped ++
            (session capacity calls).state.entries)) from key.2
  refine (machine K V).run_induction (s := LRUCache.new capacity) (I := fun r =>
    Reachable capacity r.state ∧ (r.history.flatMap broughtIn).Perm
      (r.history.flatMap handedOut ++ (r.history.flatMap dropped ++ r.state.entries)))
    ⟨⟨rfl, new_wellFormed capacity⟩, List.Perm.refl _⟩ ?_ calls
  intro r call ih
  obtain ⟨hr, hbooks⟩ := ih
  have hevent := event_ledger hr.wellFormed call
  refine ⟨hr.step call, ?_⟩
  show (List.flatMap broughtIn (_ :: r.history)).Perm (List.flatMap handedOut (_ :: r.history) ++
    (List.flatMap dropped (_ :: r.history) ++ (step r.state call).2.entries))
  rw [List.flatMap_cons, List.flatMap_cons, List.flatMap_cons]
  -- compared pair by pair, the books are sums
  rw [List.perm_iff_count] at hbooks hevent ⊢
  intro p
  have h₁ := hbooks p
  have h₂ := hevent p
  simp only [List.count_append] at h₁ h₂ ⊢
  omega

/-- **The states a cache reaches are the states that keep the two laws.** -/
theorem session_reaches_iff (capacity : UInt32) (c : LRUCache K V) :
    (∃ calls : List (Call K V), (session capacity calls).state = c) ↔
      c.capacity = capacity ∧ WellFormed c := by
  constructor
  · rintro ⟨calls, rfl⟩
    have h := session_reachable capacity calls
    exact ⟨h.capacity, h.wellFormed⟩
  · rintro ⟨rfl, hc⟩
    refine ⟨c.entries.map (fun p => ⟨KeyView.listOrder, .put p.1 p.2⟩), ?_⟩
    -- the entries put so far are all there, and there is room for the next one
    suffices key : ∀ l : List (K × V), l.Nodup →
        (c.capacity.toNat ≠ 0 → l.length ≤ c.capacity.toNat) →
        (session c.capacity (l.map (fun p => ⟨KeyView.listOrder, .put p.1 p.2⟩))).state
          = ⟨c.capacity, l⟩ from key c.entries hc.nodup hc.bounded
    intro l
    induction l using List.reverseRecOn with
    | nil => exact fun _ _ => rfl
    | append_singleton l p ih =>
        intro hnodup hbounded
        have hnew : l.Nodup ∧ p ∉ l := by
          have h := List.nodup_append.mp hnodup
          exact ⟨h.1, fun hp => h.2.2 p hp p (List.mem_singleton_self p) rfl⟩
        have hroom : c.capacity.toNat ≠ 0 → l.length < c.capacity.toNat := by
          intro h0
          have h := hbounded h0
          rw [List.length_append, List.length_singleton] at h
          omega
        have hl : WellFormed (⟨c.capacity, l⟩ : LRUCache K V) :=
          ⟨hnew.1, fun h0 => Nat.le_of_lt (hroom h0)⟩
        have hstate := ih hnew.1 hl.bounded
        unfold session at hstate ⊢
        rw [List.map_append, List.map_singleton, Machine.run_concat]
        show (step _ _).2 = _
        rw [hstate]
        have hput := put_entries hl KeyView.listOrder p.1 p.2
        rw [(LRUCache.asList _ hl).place_room hnew.2 hroom] at hput
        show LRUCache.put _ _ _ _ = _
        exact congrArg (LRUCache.mk c.capacity) hput

end EzBakeCommon.Lru
