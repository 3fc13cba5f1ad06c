/-
  EzBakeCommon.Lru.Isolation — keys do not interfere.

  All keys share one recency list, and `getLruEntry` compares positions of that
  list.  Yet the entries of one key, in their own order, depend only on the
  calls on that key, as long as no put evicts: a second session that makes just
  those calls (and the ones on no key at all, such as `clear`) holds exactly the
  entries of the key, and answers every call on it the same.

  Main result: `session_isolated`.
-/
import EzBakeCommon.Lru.Law

namespace EzBakeCommon.Lru

open Library RecencyList

variable {K V : Type*} [DecidableEq K] [DecidableEq V]

/-! ## §1. Calls on a key. -/

/-- The key an operation is called on, if any. -/
def Op.keyOf : Op K V → Option K
  | .put k _ | .get k | .pop k | .remove k | .removeValue k _
  | .containsKey k | .valueSet k | .valueRange k => some k
  | _ => none

/-- Not an operation on another key. -/
def Op.concerns (k : K) (op : Op K V) : Bool := decide (op.keyOf = none ∨ op.keyOf = some k)

/-- The keyed operations whose results are compared. -/
def Op.compared : Op K V → Bool
  | .put _ _ | .get _ | .pop _ | .remove _ | .removeValue _ _
  | .containsKey _ | .valueRange _ => true
  | _ => false

/-- Equal results; lists of removed values are compared as multisets. -/
def Answer.Agrees : Answer K V → Answer K V → Prop
  | .values vs, .values ws => vs.Perm ws
  | a, b => a = b

/-- The calls of a history that are not on another key. -/
def concerning (k : K) (h : List (Event (LRUCache K V) (Call K V) (Answer K V))) :
    List (Event (LRUCache K V) (Call K V) (Answer K V)) :=
  h.filter (fun e => e.call.op.concerns k)

omit [DecidableEq V] in
theorem concerning_cons_pos {k : K} {e : Event (LRUCache K V) (Call K V) (Answer K V)}
    (h : List (Event (LRUCache K V) (Call K V) (Answer K V)))
    (he : e.call.op.concerns k = true) : concerning k (e :: h) = e :: concerning k h :=
  List.filter_cons_of_pos he

omit [DecidableEq V] in
theorem concerning_cons_neg {k : K} {e : Event (LRUCache K V) (Call K V) (Answer K V)}
    (h : List (Event (LRUCache K V) (Call K V) (Answer K V)))
    (he : e.call.op.concerns k = false) : concerning k (e :: h) = concerning k h :=
  List.filter_cons_of_neg (by simp [he])

/-- A put that loses an entry. -/
def Evicts (e : Event (LRUCache K V) (Call K V) (Answer K V)) : Prop :=
  (∃ k v, e.call.op = .put k v) ∧ ∃ p ∈ e.before.entries, p ∉ e.after.entries

/-! ## §2. One operation. -/

section Step

variable {cap cap' : Nat} (r : RecencyList (K × V) cap) (r' : RecencyList (K × V) cap')
  {k : K}

omit [DecidableEq V] in
theorem oldest_underKey (l : List (K × V)) : oldest k (underKey k l) = oldest k l := by
  unfold oldest underKey
  rw [List.find?_filter]
  simp

/-- An operation that concerns `k` acts on the entries of `k` as on a cache that
holds nothing else. -/
theorem apply_concerned (h : r'.items = underKey k r.items) (hc : cap' = cap) {op : Op K V}
    (hop : op.concerns k = true)
    (hroom : ∀ k v, op = .put k v → cap ≠ 0 → (r.discard (k, v)).items.length < cap) :
    (op.apply r').items = underKey k (op.apply r).items := by
  have hkey : ∀ p : K × V, p.1 = k → decide (p.1 = k) = true := fun p => decide_eq_true
  have hold : oldest k r'.items = oldest k r.items := by rw [h, oldest_underKey]
  cases op with
  | put k' v =>
      obtain rfl : k' = k := by simpa [Op.concerns, Op.keyOf] using hop
      exact filter_place h hc (hkey _ rfl) (hroom k' v rfl)
  | get k' =>
      obtain rfl : k' = k := by simpa [Op.concerns, Op.keyOf] using hop
      cases hk : oldest k' r.items with
      | none =>
          rw [apply_get_none hk, apply_get_none (hold.trans hk)]
          exact h
      | some p =>
          rw [apply_get_some hk, apply_get_some (hold.trans hk)]
          exact filter_renew h (hkey p (oldest_key hk)) (oldest_mem hk)
  | pop k' =>
      obtain rfl : k' = k := by simpa [Op.concerns, Op.keyOf] using hop
      cases hk : oldest k' r.items with
      | none =>
          rw [apply_pop_none hk, apply_pop_none (hold.trans hk)]
          exact h
      | some p =>
          rw [apply_pop_some hk, apply_pop_some (hold.trans hk)]
          exact filter_discard h
  | remove k' =>
      show r'.items.filter _ = (r.items.filter _).filter _
      rw [h]
      unfold underKey
      rw [List.filter_filter, List.filter_filter]
      exact List.filter_congr (fun p _ => Bool.and_comm _ _)
  | removeValue k' v => exact filter_discard h
  | _ => first | rfl | exact h

/-- An operation on another key does not touch the entries of `k`. -/
theorem apply_unconcerned {op : Op K V} (hop : op.concerns k = false)
    (hroom : ∀ k v, op = .put k v → cap ≠ 0 → (r.discard (k, v)).items.length < cap) :
    underKey k (op.apply r).items = underKey k r.items := by
  -- the filter of `underKey` drops whatever the operation moves
  have hkey : ∀ p : K × V, p.1 ≠ k → decide (p.1 = k) = false := fun p => decide_eq_false
  cases op with
  | put k' v =>
      have hne : k' ≠ k := by simpa [Op.concerns, Op.keyOf] using hop
      exact filter_place_hidden (hkey (k', v) hne) (hroom k' v rfl)
  | get k' =>
      have hne : k' ≠ k := by simpa [Op.concerns, Op.keyOf] using hop
      cases hk : oldest k' r.items with
      | none => rw [apply_get_none hk]
      | some p =>
          rw [apply_get_some hk]
          exact filter_renew_hidden (hkey p (fun h => hne ((oldest_key hk).symm.trans h)))
  | pop k' =>
      have hne : k' ≠ k := by simpa [Op.concerns, Op.keyOf] using hop
      cases hk : oldest k' r.items with
      | none => rw [apply_pop_none hk]
      | some p =>
          rw [apply_pop_some hk]
          exact filter_discard_hidden (hkey p (fun h => hne ((oldest_key hk).symm.trans h)))
  | remove k' =>
      have hne : k' ≠ k := by simpa [Op.concerns, Op.keyOf] using hop
      show (r.items.filter _).filter _ = r.items.filter _
      rw [List.filter_filter]
      refine List.filter_congr (fun p _ => ?_)
      by_cases hp : p.1 = k
      · simp [hp, Ne.symm hne]
      · simp [hp]
  | removeValue k' v =>
      have hne : k' ≠ k := by simpa [Op.concerns, Op.keyOf] using hop
      exact filter_discard_hidden (hkey (k', v) hne)
  | _ => first | rfl | exact absurd hop (by simp [Op.concerns, Op.keyOf])

end Step

variable [LT K] [DecidableLT K] [LT V] [DecidableLT V]

/-- Calls on `k` are answered from the entries of `k` alone. -/
theorem answer_underKey {c c' : LRUCache K V} {k : K} (h : c'.entries = underKey k c.entries)
    {call call' : Call K V} (hop : call.op = call'.op) (hk : call.op.keyOf = some k)
    (hcmp : call.op.compared = true) : (step c call).1.Agrees (step c' call').1 := by
  obtain ⟨view, op⟩ := call
  obtain ⟨view', op'⟩ := call'
  obtain rfl : op = op' := hop
  have hunder : underKey k c'.entries = underKey k c.entries := by rw [h, underKey_idem]
  have hold : oldest k c'.entries = oldest k c.entries := by rw [h, oldest_underKey]
  cases op with
  | put k' v => rfl
  | get k' =>
      obtain rfl := Option.some.inj hk
      show Answer.value (c.get view k').1 = Answer.value (c'.get view' k').1
      rw [get_answer, get_answer, hold]
  | pop k' =>
      obtain rfl := Option.some.inj hk
      show Answer.value (c.pop view k').1 = Answer.value (c'.pop view' k').1
      rw [pop_answer, pop_answer, hold]
  | remove k' =>
      obtain rfl := Option.some.inj hk
      have h₂ := remove_answer c' view' k'
      rw [hunder] at h₂
      exact (remove_answer c view k').trans h₂.symm
  | removeValue k' v =>
      obtain rfl := Option.some.inj hk
      have hmem : (k', v) ∈ c'.entries ↔ (k', v) ∈ c.entries := by
        rw [h]
        simp [underKey]
      show Answer.value (c.removeValue view k' v).1 = Answer.value (c'.removeValue view' k' v).1
      rw [removeValue_answer, removeValue_answer]
      simp only [hmem]
  | containsKey k' =>
      obtain rfl := Option.some.inj hk
      show Answer.flag (c.containsKey view k') = Answer.flag (c'.containsKey view' k')
      rw [containsKey_answer, containsKey_answer, hunder]
  | valueRange k' =>
      obtain rfl := Option.some.inj hk
      show Answer.number (c.valueRange view k') = Answer.number (c'.valueRange view' k')
      rw [valueRange_answer, valueRange_answer, hunder]
  | _ => exact absurd hcmp (by simp [Op.compared])

/-! ## §3. Two sessions. -/

/-- What holds between a call made in the full session and the same call made in
the session of `k` alone. -/
structure SameFor (k : K) (e e' : Event (LRUCache K V) (Call K V) (Answer K V)) : Prop where
  same : e.call.op = e'.call.op
  /-- The values held under `k`, in their recency order. -/
  held : underKey k e.after.entries = underKey k e'.after.entries
  answer : e.call.op.keyOf = some k → e.call.op.compared = true → e.answer.Agrees e'.answer

/-- The relation between the two sessions. -/
structure Projects (capacity : UInt32) (k : K)
    (r r' : Session (LRUCache K V) (Call K V) (Answer K V)) : Prop where
  reach : Reachable capacity r.state
  reach' : Reachable capacity r'.state
  held : r'.state.entries = underKey k r.state.entries
  events : List.Forall₂ (SameFor k) (concerning k r.history) r'.history

/-- A call that does not evict finds room for what it puts. -/
theorem room_of_not_evicts {c : LRUCache K V} (hc : WellFormed c) (call : Call K V)
    (h : c.capacity = 0 ∨ ¬ Evicts ((machine K V).event c call)) :
    ∀ k v, call.op = .put k v → c.capacity.toNat ≠ 0 →
      ((c.asList hc).discard (k, v)).items.length < c.capacity.toNat := by
  intro k v hop h0
  rcases h with h | h
  · exact absurd h ((toNat_ne_zero _).mp h0)
  · -- a pair lost to the put would be an eviction
    refine (c.asList hc).room_of_no_eviction (fun q hq => ?_) h0
    by_contra hgone
    refine h ⟨⟨k, v, hop⟩, q, hq, ?_⟩
    show q ∉ (step c call).2.entries
    rw [(step_refines hc call).2, hop]
    exact hgone

section Extend

variable {capacity : UInt32} {k : K}
  {r r' : Session (LRUCache K V) (Call K V) (Answer K V)} {call call' : Call K V}

/-- A call that concerns `k` is made in both sessions. -/
theorem Projects.extend (hp : Projects capacity k r r')
    (hkeep : capacity = 0 ∨ ¬ Evicts ((machine K V).event r.state call))
    (hcall : call.op.concerns k = true) (hop : call.op = call'.op) :
    Projects capacity k ((machine K V).extend r call) ((machine K V).extend r' call') := by
  have hroom := room_of_not_evicts hp.reach.wellFormed call
    (hkeep.imp_left (fun h => hp.reach.capacity.trans h))
  have hcap : r'.state.capacity.toNat = r.state.capacity.toNat := by
    rw [hp.reach.capacity, hp.reach'.capacity]
  have hheld : (step r'.state call').2.entries = underKey k (step r.state call).2.entries := by
    rw [(step_refines hp.reach.wellFormed call).2,
      (step_refines hp.reach'.wellFormed call').2, ← hop]
    exact apply_concerned (r.state.asList hp.reach.wellFormed)
      (r'.state.asList hp.reach'.wellFormed) hp.held hcap hcall hroom
  refine ⟨hp.reach.step call, hp.reach'.step call', hheld, ?_⟩
  show List.Forall₂ (SameFor k) (concerning k (_ :: r.history)) (_ :: r'.history)
  rw [concerning_cons_pos r.history hcall]
  refine List.Forall₂.cons ⟨hop, ?_, ?_⟩ hp.events
  · show underKey k (step r.state call).2.entries = underKey k (step r'.state call').2.entries
    rw [hheld, underKey_idem]
  · exact fun hk hcmp => answer_underKey hp.held hop hk hcmp

/-- A call on another key is made in the full session only. -/
theorem Projects.extend_other (hp : Projects capacity k r r')
    (hkeep : capacity = 0 ∨ ¬ Evicts ((machine K V).event r.state call))
    (hcall : call.op.concerns k = false) :
    Projects capacity k ((machine K V).extend r call) r' := by
  have hroom := room_of_not_evicts hp.reach.wellFormed call
    (hkeep.imp_left (fun h => hp.reach.capacity.trans h))
  refine ⟨hp.reach.step call, hp.reach', ?_, ?_⟩
  · show r'.state.entries = underKey k (step r.state call).2.entries
    rw [(step_refines hp.reach.wellFormed call).2, hp.held]
    exact (apply_unconcerned (r.state.asList hp.reach.wellFormed) hcall hroom).symm
  · show List.Forall₂ (SameFor k) (concerning k (_ :: r.history)) r'.history
    rw [concerning_cons_neg r.history hcall]
    exact hp.events

end Extend

/-- **Key isolation.**  In a session in which no put evicts, dropping every call
on a key other than `k` changes neither what is held under `k`, nor its order,
nor the answer of any call on `k`, whatever key views either session meets. -/
theorem session_isolated (capacity : UInt32) (k : K) (calls calls' : List (Call K V))
    (hproj : (calls.filter (fun call => call.op.concerns k)).map Call.op
      = calls'.map Call.op)
    (hkeep : capacity = 0 ∨ ∀ e ∈ (session capacity calls).history, ¬ Evicts e) :
    underKey k (session capacity calls').state.entries
        = underKey k (session capacity calls).state.entries ∧
    List.Forall₂ (SameFor k) (concerning k (session capacity calls).history)
      (session capacity calls').history := by
  have hcalls := Machine.forall₂_of_map_eq hproj (P := fun call => call.op.concerns k = true)
    (fun call hcall => (List.mem_filter.mp hcall).2)
  suffices key : Projects capacity k (session capacity calls) (session capacity calls') from
    ⟨(congrArg (underKey k) key.held).trans (underKey_idem k _), key.events⟩
  refine (machine K V).run_project (machine K V)
    (R := fun r r' => (capacity = 0 ∨ ∀ e ∈ r.history, ¬ Evicts e) →
      Projects capacity k r r')
    (fun call => call.op.concerns k)
    (fun _ => ⟨⟨rfl, new_wellFormed _⟩, ⟨rfl, new_wellFormed _⟩, rfl, List.Forall₂.nil⟩)
    ?_ ?_ calls calls' hcalls hkeep
  -- no call of the longer history evicts: neither the last, nor those before
  · intro r r' call call' hcall hsame hR hkeep
    have hp := hR (hkeep.imp_right (fun h e he => h e (List.mem_cons_of_mem _ he)))
    exact hp.extend (hkeep.imp_right (fun h => h _ List.mem_cons_self)) hcall hsame.1
  · intro r r' call hcall hR hkeep
    have hp := hR (hkeep.imp_right (fun h e he => h e (List.mem_cons_of_mem _ he)))
    exact hp.extend_other (hkeep.imp_right (fun h => h _ List.mem_cons_self)) hcall

/-- What key 1 holds does not tell whether key 2 was used in between. -/
theorem isolated_from_key_two :
    underKey 1 (session 0 [⟨KeyView.listOrder, .put 1 10⟩, ⟨KeyView.listOrder, .put 1 11⟩,
        ⟨KeyView.listOrder, .get 1⟩]).state.entries
      = underKey 1 (session 0 [⟨KeyView.listOrder, .put 1 10⟩, ⟨KeyView.newestFirst, .put 2 20⟩,
        ⟨KeyView.newestFirst, .put 1 11⟩, ⟨KeyView.listOrder, .get 2⟩,
        ⟨KeyView.newestFirst, .get 1⟩]).state.entries :=
  (session_isolated 0 1
    [⟨KeyView.listOrder, .put 1 10⟩, ⟨KeyView.newestFirst, .put 2 20⟩,
      ⟨KeyView.newestFirst, .put 1 11⟩, ⟨KeyView.listOrder, .get 2⟩,
      ⟨KeyView.newestFirst, .get 1⟩]
    [⟨KeyView.listOrder, .put 1 10⟩, ⟨KeyView.listOrder, .put 1 11⟩,
      ⟨KeyView.listOrder, .get 1⟩] rfl (Or.inl rfl)).1

end EzBakeCommon.Lru
