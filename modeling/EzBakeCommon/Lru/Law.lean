/-
  EzBakeCommon.Lru.Law — the least-recently-used law, against history.

  The stamp of a pair is the index of the last call of the session that put it
  or returned it from `get` (`used`).  The list view of the cache turns out to
  be sorted by stamp (`session_inOrder`), so everything the cache decides by
  list position it decides by history, and no key view can change it.

  Main results:
    * `session_invariant` — no duplicate pair, never more than the capacity.
    * `session_lruLaw` — what `get`, `pop` and `put` do, told by stamps.
-/
import EzBakeCommon.Lru.Refinement

namespace EzBakeCommon.Lru

open Library Library.Recency

variable {K V : Type*} [DecidableEq K] [DecidableEq V]

/-- The pair a call uses: the one it puts, or the one it returns from `get`. -/
def used (e : Event (LRUCache K V) (Call K V) (Answer K V)) : Option (K × V) :=
  match e.call.op, e.answer with
  | .put k v, _ => some (k, v)
  | .get k, .value (some v) => some (k, v)
  | _, _ => none

/-- The pair an operation uses, read off the list it finds. -/
def Op.uses (l : List (K × V)) : Op K V → Option (K × V)
  | .put k v => some (k, v)
  | .get k => oldest k l
  | _ => none

/-! ## §1. The list view is sorted by stamp. -/

/-- One operation keeps the list in order if the event is stamped with the pair
the operation uses. -/
theorem apply_inOrder {ε : Type*} {touch : ε → Option (K × V)} {h : List ε} {e : ε}
    {cap : Nat} (r : RecencyList (K × V) cap) (op : Op K V)
    (ho : InOrder touch h r.items) (he : touch e = op.uses r.items) :
    InOrder touch (e :: h) (op.apply r).items := by
  -- the operations that only take entries out, or do nothing
  have hsub : ∀ l : List (K × V), l.Sublist r.items → touch e = none →
      InOrder touch (e :: h) l := by
    intro l hl hnone
    refine (ho.sublist hl).untouched (fun p _ hp => ?_)
    exact absurd (hnone.symm.trans hp) (by simp)
  cases op with
  | put k v => exact r.place_inOrder ho he
  | get k =>
      cases hk : oldest k r.items with
      | none =>
          rw [apply_get_none hk]
          exact hsub _ (List.Sublist.refl _) (he.trans hk)
      | some p =>
          rw [apply_get_some hk]
          exact r.renew_inOrder ho (oldest_mem hk) (he.trans hk)
  | pop k =>
      cases hk : oldest k r.items with
      | none =>
          rw [apply_pop_none hk]
          exact hsub _ (List.Sublist.refl _) he
      | some p =>
          rw [apply_pop_some hk]
          exact hsub _ r.discard_sublist he
  | remove k => exact hsub _ List.filter_sublist he
  | removeValue k v => exact hsub _ r.discard_sublist he
  | clear => exact InOrder.nil
  | _ => exact hsub _ (List.Sublist.refl _) he

section Moves

variable {cap : Nat} (r : RecencyList (K × V) cap) {p : K × V}

/-- The pair an operation uses is live afterwards. -/
theorem uses_live {op : Op K V} (h : op.uses r.items = some p) : p ∈ (op.apply r).items := by
  cases op with
  | put k v =>
      obtain rfl := Option.some.inj h
      exact r.mem_place_self
  | get k => exact mem_apply_get.mpr (oldest_mem h)
  | _ => exact absurd h (by simp [Op.uses])

/-- A pair enters the list only by being used. -/
theorem enters {op : Op K V} (h : p ∈ (op.apply r).items) :
    op.uses r.items = some p ∨ p ∈ r.items := by
  cases op with
  | put k v => exact (r.mem_of_mem_place h).imp (fun h => congrArg some h.symm) id
  | get k => exact Or.inr (mem_apply_get.mp h)
  | pop k => exact Or.inr (mem_apply_pop.mp h).1
  | remove k => exact Or.inr (List.mem_of_mem_filter h)
  | removeValue k v => exact Or.inr (r.discard_sublist.subset h)
  | clear => exact absurd h List.not_mem_nil
  | _ => exact Or.inr h

/-- The operations that are there to take entries out. -/
def Op.takesOut : Op K V → Bool
  | .pop _ | .remove _ | .removeValue _ _ | .clear => true
  | _ => false

/-- Any other operation makes a pair leave only by evicting it for a new one. -/
theorem leaves {op : Op K V} (hop : op.takesOut = false) (hp : p ∈ r.items)
    (hgone : p ∉ (op.apply r).items) :
    ∃ q l, op.uses r.items = some q ∧ q ∉ r.items ∧ cap ≠ 0 ∧ cap ≤ r.items.length ∧
      r.items = p :: l := by
  cases op with
  | put k v =>
      -- it was a new pair, put in a full list, and `p` was the head
      have hkv : (k, v) ∉ r.items := fun hkv => hgone ((r.mem_place_live hkv).mpr hp)
      have hfull : cap ≠ 0 ∧ cap ≤ r.items.length := by
        by_contra hroom
        refine hgone ((r.mem_place_room hkv (fun h0 => ?_)).mpr (Or.inr hp))
        exact not_le.mp (fun hle => hroom ⟨h0, hle⟩)
      obtain ⟨victim, l, hl, hmem⟩ := r.mem_place_full hkv hfull.1 hfull.2
      obtain rfl : p = victim := by
        by_contra hne
        exact hgone ((hmem p).mpr (Or.inr ⟨hp, hne⟩))
      exact ⟨(k, v), l, rfl, hkv, hfull.1, hfull.2, hl⟩
  | get k =>
      refine absurd ?_ hgone
      cases hk : oldest k r.items with
      | none =>
          rw [apply_get_none hk]
          exact hp
      | some q =>
          rw [apply_get_some hk]
          exact (r.mem_renew_iff (oldest_mem hk)).mpr hp
  | pop k => exact absurd hop (by simp [Op.takesOut])
  | remove k => exact absurd hop (by simp [Op.takesOut])
  | removeValue k v => exact absurd hop (by simp [Op.takesOut])
  | clear => exact absurd hop (by simp [Op.takesOut])
  | _ => exact absurd hp hgone

end Moves

variable [LT K] [DecidableLT K] [LT V] [DecidableLT V]

theorem used_event (c : LRUCache K V) (call : Call K V) :
    used ((machine K V).event c call) = call.op.uses c.entries := by
  obtain ⟨view, op⟩ := call
  cases op with
  | get k =>
      show used ⟨c, ⟨view, .get k⟩, .value (c.get view k).1, _⟩ = oldest k c.entries
      rw [get_answer view c k]
      cases hk : oldest k c.entries with
      | none => rfl
      | some p =>
          show some (k, p.2) = some p
          rw [← oldest_key hk]
  | _ => rfl

/-- What ties a cache to its session: it keeps its laws, and its list view is
sorted by stamp. -/
structure Ordered (capacity : UInt32)
    (r : Session (LRUCache K V) (Call K V) (Answer K V)) : Prop where
  reach : Reachable capacity r.state
  inOrder : InOrder used r.history r.state.entries

omit [LT K] [DecidableLT K] [LT V] [DecidableLT V] in
theorem Ordered.start (capacity : UInt32) :
    Ordered capacity (⟨[], LRUCache.new capacity⟩ : Session (LRUCache K V) _ _) :=
  ⟨⟨rfl, new_wellFormed capacity⟩, InOrder.nil⟩

/-- One more call keeps the tie. -/
theorem Ordered.extend {capacity : UInt32}
    {r : Session (LRUCache K V) (Call K V) (Answer K V)} (h : Ordered capacity r)
    (call : Call K V) : Ordered capacity ((machine K V).extend r call) := by
  refine ⟨h.reach.step call, ?_⟩
  show InOrder used ((machine K V).event r.state call :: r.history)
    (step r.state call).2.entries
  rw [(step_refines h.reach.wellFormed call).2]
  exact apply_inOrder (r.state.asList h.reach.wellFormed) call.op h.inOrder
    (used_event r.state call)

/-- **The list view of every session is sorted by stamp.** -/
theorem session_inOrder (capacity : UInt32) (calls : List (Call K V)) :
    InOrder used (session capacity calls).history (session capacity calls).state.entries :=
  ((machine K V).run_induction (I := Ordered capacity) (Ordered.start capacity)
    (fun _ call h => h.extend call) calls).inOrder

/-! ## §2. The representation invariant. -/

/-- **No session reaches a cache with two equal pairs, or with more entries than
a non-zero capacity.** -/
theorem session_invariant (capacity : UInt32) (calls : List (Call K V)) :
    (session capacity calls).state.entries.Nodup ∧
    (0 < capacity.toNat →
      (session capacity calls).state.entries.length ≤ capacity.toNat) := by
  have hr := session_reachable capacity calls
  refine ⟨hr.wellFormed.nodup, fun hpos => ?_⟩
  have hb := hr.wellFormed.bounded
  rw [hr.capacity] at hb
  exact hb (Nat.ne_of_gt hpos)

omit [DecidableEq K] [DecidableEq V] [LT K] [DecidableLT K] [LT V] [DecidableLT V] in
/-- In a well-formed cache the cast in `size()` loses nothing, so `isFull()`
tests what `put` tests. -/
theorem isFull_iff {c : LRUCache K V} (hc : WellFormed c) :
    c.isFull = true ↔ c.capacity.toNat ≠ 0 ∧ c.capacity.toNat ≤ c.entries.length := by
  unfold LRUCache.isFull
  by_cases h0 : c.capacity = 0
  · simp [h0]
  · have hne : c.capacity.toNat ≠ 0 := (toNat_ne_zero _).mpr h0
    have hlen : c.entries.length < UInt32.size :=
      lt_of_le_of_lt (hc.bounded hne) c.capacity.toNat_lt
    have hsize : c.size.toNat = c.entries.length := UInt32.toNat_ofNat_of_lt' hlen
    rw [if_neg h0, decide_eq_true_eq, ge_iff_le, UInt32.le_iff_toNat_le, hsize]
    exact ⟨fun h => ⟨hne, h⟩, fun h => h.2⟩

/-! ## §3. The law. -/

section Oldest

variable {h : List (Event (LRUCache K V) (Call K V) (Answer K V))} {l : List (K × V)}

omit [DecidableEq V] [LT K] [DecidableLT K] [LT V] [DecidableLT V] in
/-- In a list sorted by stamp the first entry of a key has its smallest stamp. -/
theorem oldest_least [DecidableEq V] (ho : InOrder used h l) {k : K} {p : K × V}
    (hp : oldest k l = some p) :
    ∀ q ∈ l, q.1 = k → q ≠ p → stamp used h p < stamp used h q := by
  intro q hq hqk hqp
  exact ho.find?_least hp q hq (by simpa using hqk) hqp

omit [LT K] [DecidableLT K] [LT V] [DecidableLT V] in
/-- What a lookup returns, told by stamps. -/
theorem oldest_value_iff (ho : InOrder used h l) (k : K) (v : V) :
    (oldest k l).map Prod.snd = some v ↔
      (k, v) ∈ l ∧ ∀ w, (k, w) ∈ l → w ≠ v → stamp used h (k, v) < stamp used h (k, w) := by
  constructor
  · intro hv
    obtain ⟨p, hp, hpv⟩ := Option.map_eq_some_iff.mp hv
    obtain rfl : p = (k, v) := Prod.ext (oldest_key hp) hpv
    refine ⟨oldest_mem hp, fun w hw hne => oldest_least ho hp _ hw rfl ?_⟩
    exact fun heq => hne (congrArg Prod.snd heq)
  · intro h
    obtain ⟨hmem, hleast⟩ := h
    cases hp : oldest k l with
    | none => exact absurd rfl (oldest_eq_none.mp hp _ hmem)
    | some p =>
        obtain ⟨k', w⟩ := p
        obtain rfl : k' = k := oldest_key hp
        by_cases hwv : w = v
        · rw [hwv]
          rfl
        · -- each of two values would have the smaller stamp
          have h₁ := hleast w (oldest_mem hp) hwv
          have h₂ := oldest_least ho hp (k', v) hmem rfl
            (fun heq => hwv (congrArg Prod.snd heq).symm)
          omega

omit [DecidableEq V] [LT K] [DecidableLT K] [LT V] [DecidableLT V] in
theorem oldest_value_none (k : K) :
    (oldest k l).map Prod.snd = none ↔ ∀ v, (k, v) ∉ l := by
  rw [Option.map_eq_none_iff, oldest_eq_none]
  constructor
  · intro hl v hv
    exact hl (k, v) hv rfl
  · intro hl p hp hk
    obtain ⟨k', v⟩ := p
    obtain rfl : k' = k := hk
    exact hl v hp

end Oldest

section Evicted

variable {c : LRUCache K V} (hc : WellFormed c) (view : KeyView K V) {k : K} {v : V}
include hc
omit [LT K] [DecidableLT K] [LT V] [DecidableLT V]

/-- A full cache makes room for a new pair by its oldest entry. -/
theorem put_full_evicts {h : List (Event (LRUCache K V) (Call K V) (Answer K V))}
    (ho : InOrder used h c.entries) (hkv : (k, v) ∉ c.entries) (hfull : c.isFull = true) :
    ∃ victim ∈ c.entries,
      (∀ q ∈ c.entries, q ≠ victim → stamp used h victim < stamp used h q) ∧
      ∀ p, p ∈ (c.put view k v).entries ↔ p = (k, v) ∨ (p ∈ c.entries ∧ p ≠ victim) := by
  obtain ⟨h0, hle⟩ := (isFull_iff hc).mp hfull
  obtain ⟨victim, l, hl, hmem⟩ := (c.asList hc).mem_place_full hkv h0 hle
  refine ⟨victim, ?_, ?_, ?_⟩
  · show victim ∈ (c.asList hc).items
    rw [hl]
    exact List.mem_cons_self
  · intro q hq hne
    exact (c.asList hc).head_is_oldest hl ho hq hne
  · intro p
    rw [put_entries hc view k v]
    exact hmem p

/-- A cache that is not full has room for it. -/
theorem put_room_keeps (hkv : (k, v) ∉ c.entries) (hroom : c.isFull = false) (p : K × V) :
    p ∈ (c.put view k v).entries ↔ p = (k, v) ∨ p ∈ c.entries := by
  rw [put_entries hc view k v]
  refine (c.asList hc).mem_place_room hkv (fun h0 => ?_)
  by_contra hle
  have hfull := (isFull_iff hc).mpr ⟨h0, not_lt.mp hle⟩
  rw [hroom] at hfull
  exact Bool.noConfusion hfull

omit hc [DecidableEq V] in
/-- The key and what `pop` returns for it are the oldest entry of the key. -/
theorem pop_pair : (c.pop view k).1.map (fun v => (k, v)) = oldest k c.entries := by
  rw [pop_answer]
  cases hk : oldest k c.entries with
  | none => rfl
  | some q => exact congrArg some (Prod.ext (oldest_key hk).symm rfl)

end Evicted

/-- **The least-recently-used law** at the end of a session, for the next call
and the key view it meets.  `live` is what the cache holds. -/
structure LruLaw (r : Session (LRUCache K V) (Call K V) (Answer K V))
    (view : KeyView K V) : Prop where
  /-- Every live pair has a stamp, and no two share one. -/
  stamped : ∀ p ∈ r.state.entries, 0 < stamp used r.history p ∧
    ∀ q ∈ r.state.entries, stamp used r.history p = stamp used r.history q → p = q
  /-- `get` returns the value of the live pair of the key with the smallest stamp. -/
  get_some : ∀ k v, (r.state.get view k).1 = some v ↔
    (k, v) ∈ r.state.entries ∧ ∀ w, (k, w) ∈ r.state.entries → w ≠ v →
      stamp used r.history (k, v) < stamp used r.history (k, w)
  get_none : ∀ k, (r.state.get view k).1 = none ↔ ∀ v, (k, v) ∉ r.state.entries
  /-- So does `pop`. -/
  pop_some : ∀ k v, (r.state.pop view k).1 = some v ↔
    (k, v) ∈ r.state.entries ∧ ∀ w, (k, w) ∈ r.state.entries → w ≠ v →
      stamp used r.history (k, v) < stamp used r.history (k, w)
  pop_none : ∀ k, (r.state.pop view k).1 = none ↔ ∀ v, (k, v) ∉ r.state.entries
  /-- Putting a live pair evicts nothing, full or not. -/
  put_live : ∀ k v, (k, v) ∈ r.state.entries →
    ∀ p, p ∈ (r.state.put view k v).entries ↔ p ∈ r.state.entries
  /-- Putting another pair in a full cache evicts exactly the smallest stamp. -/
  put_full : ∀ k v, (k, v) ∉ r.state.entries → r.state.isFull = true →
    ∃ victim ∈ r.state.entries,
      (∀ q ∈ r.state.entries, q ≠ victim →
        stamp used r.history victim < stamp used r.history q) ∧
      ∀ p, p ∈ (r.state.put view k v).entries ↔
        p = (k, v) ∨ (p ∈ r.state.entries ∧ p ≠ victim)
  /-- Otherwise it evicts nothing. -/
  put_room : ∀ k v, (k, v) ∉ r.state.entries → r.state.isFull = false →
    ∀ p, p ∈ (r.state.put view k v).entries ↔ p = (k, v) ∨ p ∈ r.state.entries
  /-- The pair that was put is live, and the newest. -/
  put_newest : ∀ k v, let r' := (machine K V).extend r ⟨view, .put k v⟩
    (k, v) ∈ r'.state.entries ∧ ∀ p ∈ r'.state.entries, p ≠ (k, v) →
      stamp used r'.history p < stamp used r'.history (k, v)
  /-- `get` takes nothing out; `pop` takes out what it returns and nothing else. -/
  get_live : ∀ k p, p ∈ (r.state.get view k).2.entries ↔ p ∈ r.state.entries
  pop_live : ∀ k p, p ∈ (r.state.pop view k).2.entries ↔
    p ∈ r.state.entries ∧ (r.state.pop view k).1.map (fun v => (k, v)) ≠ some p
  /-- Pairs the call does not use keep their relative stamp order. -/
  others : ∀ op p q, let r' := (machine K V).extend r ⟨view, op⟩
    op.uses r.state.entries ≠ some p → op.uses r.state.entries ≠ some q →
    (stamp used r'.history p < stamp used r'.history q ↔
      stamp used r.history p < stamp used r.history q)

/-- **Every session obeys the law, whatever key views it met and meets.** -/
theorem session_lruLaw (capacity : UInt32) (calls : List (Call K V)) (view : KeyView K V) :
    LruLaw (session capacity calls) view := by
  have hr := session_reachable capacity calls
  have ho := session_inOrder capacity calls
  generalize session capacity calls = r at hr ho
  have hc := hr.wellFormed
  constructor
  case stamped =>
    intro p hp
    exact ⟨ho.touched p hp, fun q _ => stamp_injective (ho.touched p hp)⟩
  case get_some =>
    intro k v
    rw [get_answer]
    exact oldest_value_iff ho k v
  case get_none =>
    intro k
    rw [get_answer]
    exact oldest_value_none k
  case pop_some =>
    intro k v
    rw [pop_answer]
    exact oldest_value_iff ho k v
  case pop_none =>
    intro k
    rw [pop_answer]
    exact oldest_value_none k
  case put_live =>
    intro k v hkv p
    rw [put_entries hc view k v]
    exact (r.state.asList hc).mem_place_live hkv
  case put_full =>
    intro k v hkv hfull
    exact put_full_evicts hc view ho hkv hfull
  case put_room =>
    intro k v hkv hroom p
    exact put_room_keeps hc view hkv hroom p
  case put_newest =>
    intro k v
    constructor
    · show (k, v) ∈ (r.state.put view k v).entries
      rw [put_entries hc view k v]
      exact (r.state.asList hc).mem_place_self
    · intro p _ hne
      have hused := used_event r.state ⟨view, .put k v⟩
      show stamp used (_ :: r.history) p < stamp used (_ :: r.history) (k, v)
      rw [stamp_cons_self hused]
      exact stamp_cons_le (fun heq => hne (Option.some.inj heq).symm)
  case get_live =>
    intro k p
    rw [get_entries hc view k]
    exact mem_apply_get
  case pop_live =>
    intro k p
    rw [pop_entries hc view k, pop_pair view]
    exact mem_apply_pop
  case others =>
    intro op p q r' hp hq
    have hused := used_event r.state ⟨view, op⟩
    rw [← hused] at hp hq
    show stamp used (_ :: r.history) p < stamp used (_ :: r.history) q ↔ _
    rw [stamp_cons_other hp, stamp_cons_other hq]

end EzBakeCommon.Lru
