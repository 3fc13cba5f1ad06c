/-
  EzBakeCommon.Lru.Window — what a cache holds, read off its history.

  As long as nothing is taken out, a cache of capacity C holds the C pairs that
  were used last, in the order of their last use, and an unlimited one every pair
  ever used (`session_window`).  The list view is not consulted: the history
  alone decides what is held, and in which order it will be evicted.
-/
import EzBakeCommon.Library.Window
import EzBakeCommon.Lru.Law

namespace EzBakeCommon.Lru

open Library

variable {K V : Type*} [DecidableEq K] [DecidableEq V]

/-! ## §1. One operation. -/

section Operation

variable {cap : Nat} (r : RecencyList (K × V) cap) {op : Op K V}

/-- An operation that takes nothing out places the pair it uses. -/
theorem apply_uses (hop : op.takesOut = false) {p : K × V} (hp : op.uses r.items = some p) :
    (op.apply r).items = (r.place p).items := by
  cases op with
  | put k v =>
      obtain rfl := Option.some.inj hp
      rfl
  | get k =>
      have hk : oldest k r.items = some p := hp
      rw [apply_get_some hk, r.renew_live (oldest_mem hk), r.place_live (oldest_mem hk)]
  | _ => exact absurd hp (by simp [Op.uses])

theorem apply_unused (hop : op.takesOut = false) (hp : op.uses r.items = none) :
    op.apply r = r := by
  cases op with
  | put k v => exact absurd hp (by simp [Op.uses])
  | get k =>
      have hk : oldest k r.items = none := hp
      exact apply_get_none hk
  | pop k => exact absurd hop (by simp [Op.takesOut])
  | remove k => exact absurd hop (by simp [Op.takesOut])
  | removeValue k v => exact absurd hop (by simp [Op.takesOut])
  | clear => exact absurd hop (by simp [Op.takesOut])
  | _ => rfl

end Operation

/-! ## §2. Every session. -/

variable [LT K] [DecidableLT K] [LT V] [DecidableLT V]

/-- The pairs used so far, the one used last first, each once. -/
def lastUses (h : List (Event (LRUCache K V) (Call K V) (Answer K V))) : List (K × V) :=
  newest (h.filterMap used)

/-- **A cache from which nothing is taken out holds the pairs that were used
last**, the least recently used one first. -/
theorem session_window (capacity : UInt32) (calls : List (Call K V))
    (hkeep : ∀ call ∈ calls, call.op.takesOut = false) :
    (session capacity calls).state.entries.reverse
      = window capacity.toNat (lastUses (session capacity calls).history) := by
  suffices key : Reachable capacity (session capacity calls).state ∧
      ((∀ call ∈ calls, call.op.takesOut = false) →
        (session capacity calls).state.entries.reverse
          = window capacity.toNat (lastUses (session capacity calls).history)) from
    key.2 hkeep
  refine (machine K V).run_calls_induction (s := LRUCache.new capacity) (I := fun cs r =>
    Reachable capacity r.state ∧ ((∀ call ∈ cs, call.op.takesOut = false) →
      r.state.entries.reverse = window capacity.toNat (lastUses r.history)))
    ⟨⟨rfl, new_wellFormed capacity⟩, fun _ => ?_⟩ ?_ calls
  · show [] = window capacity.toNat []
    unfold window
    split <;> simp
  · intro cs call r ih
    obtain ⟨hr, hwindow⟩ := ih
    refine ⟨hr.step call, fun hkeep => ?_⟩
    have hop := hkeep call (List.mem_append_right _ (List.mem_singleton_self call))
    have hbefore := hwindow (fun c hc => hkeep c (List.mem_append_left _ hc))
    have hused := used_event r.state call
    show (step r.state call).2.entries.reverse
      = window capacity.toNat (newest (((machine K V).event r.state call :: r.history).filterMap
        used))
    rw [(step_refines hr.wellFormed call).2]
    cases huse : call.op.uses r.state.entries with
    | none =>
        rw [List.filterMap_cons_none (hused.trans huse),
          apply_unused (r.state.asList hr.wellFormed) hop huse]
        exact hbefore
    | some p =>
        rw [List.filterMap_cons_some (hused.trans huse),
          apply_uses (r.state.asList hr.wellFormed) hop huse]
        have hcap := hr.capacity
        subst hcap
        exact (r.state.asList hr.wellFormed).window_place hbefore p

/-- A cache of two: the pair that was put first is used again, so the second one
is the one that goes. -/
theorem window_of_two : (session 2
      [⟨KeyView.listOrder, .put (1 : ℕ) (10 : ℕ)⟩, ⟨KeyView.listOrder, .put 2 20⟩,
        ⟨KeyView.listOrder, .get 1⟩, ⟨KeyView.listOrder, .put 3 30⟩]).state.entries.reverse
    = [(3, 30), (1, 10)] ∧
    (session 2
      [⟨KeyView.listOrder, .put (1 : ℕ) (10 : ℕ)⟩, ⟨KeyView.listOrder, .put 2 20⟩,
        ⟨KeyView.listOrder, .get 1⟩, ⟨KeyView.listOrder, .put 3 30⟩]).state.entries.reverse
      = window (2 : UInt32).toNat (lastUses (session 2
        [⟨KeyView.listOrder, .put (1 : ℕ) (10 : ℕ)⟩, ⟨KeyView.listOrder, .put 2 20⟩,
          ⟨KeyView.listOrder, .get 1⟩, ⟨KeyView.listOrder, .put 3 30⟩]).history) :=
  ⟨by decide, session_window 2 _ (by simp [Op.takesOut])⟩

end EzBakeCommon.Lru
