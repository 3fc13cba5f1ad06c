/-
  EzBakeCommon.Lru.Queries — the queries read one and the same state.

  Each query walks another view of the bimap: the hashed key view, the list
  view, or a `std::set` copy that silently merges equivalent elements.  If `<`
  is a strict total order and no pair is held twice, the copies hold exactly
  what was copied, whatever the order of the walk, and the views agree.

  Main results:
    * `valueSet_exact_iff` — the `do ... while` loop of `valueSet` is right
      exactly on the keys that have entries.
    * `session_queries` — in every session the queries agree, and leaving them
      out changes nothing.
-/
import EzBakeCommon.Lru.Law
import Mathlib.Data.Finset.Dedup

namespace EzBakeCommon.Lru

open Library Library.Recency

/-! ## §1. The copies. -/

section Copies

variable {K V : Type*} [LT K] [DecidableLT K] [LT V] [DecidableLT V]
  (c : LRUCache K V) (view : KeyView K V)

theorem mem_entrySet (hlt : OrderedSet.StrictTotal (LRUCache.entryLt : K × V → K × V → Bool))
    {p : K × V} : p ∈ c.entrySet view ↔ p ∈ c.entries := by
  unfold LRUCache.entrySet
  rw [OrderedSet.mem_foldl_insert hlt c.entries.get]
  constructor
  · intro h
    rcases h with ⟨itr, -, rfl⟩ | h
    · exact List.get_mem c.entries itr
    · exact absurd h List.not_mem_nil
  · intro h
    obtain ⟨itr, hitr⟩ := List.get_of_mem h
    -- the key view walks every position
    exact Or.inl ⟨itr, (view.perm c.entries).mem_iff.mpr (List.mem_finRange itr), hitr⟩

/-- If no pair is held twice, the copy merges nothing. -/
theorem entrySet_perm (hlt : OrderedSet.StrictTotal (LRUCache.entryLt : K × V → K × V → Bool))
    (hnd : c.entries.Nodup) : (c.entrySet view).Perm c.entries := by
  have hwalk := walk_perm view c.entries
  exact (OrderedSet.foldl_insert_perm hlt c.entries.get (hwalk.nodup_iff.mpr hnd)).trans hwalk

omit [LT K] [DecidableLT K] in
/-- On a range that is not empty the loop visits every entry. -/
theorem valueSetLoop_eq : ∀ (range : List (Fin c.entries.length)) (set : List V), range ≠ [] →
    c.valueSetLoop range set = some (range.foldl
      (fun set itr => OrderedSet.insert LRUCache.valueLt (c.entries.get itr).2 set) set)
  | [], _, h => absurd rfl h
  | [_], _, _ => rfl
  | itr :: itr' :: range, set, _ => by
      unfold LRUCache.valueSetLoop
      rw [valueSetLoop_eq (itr' :: range) _ (by simp)]
      rfl

omit [LT K] [DecidableLT K] in
/-- For a key with entries, `valueSet` holds its values. -/
theorem valueSet_of_held [DecidableEq K]
    (hlt : OrderedSet.StrictTotal (LRUCache.valueLt : V → V → Bool)) {k : K}
    (hk : ∃ v, (k, v) ∈ c.entries) :
    ∃ set, c.valueSet view k = some set ∧ ∀ v, v ∈ set ↔ (k, v) ∈ c.entries := by
  have hrange := mem_equalRange c view k
  have hne : c.equalRange view k ≠ [] := by
    obtain ⟨v, hv⟩ := hk
    obtain ⟨itr, hitr⟩ := List.get_of_mem hv
    have hmem : itr ∈ c.equalRange view k := (hrange itr).mpr (by rw [hitr])
    exact List.ne_nil_of_mem hmem
  refine ⟨_, valueSetLoop_eq c _ [] hne, ?_⟩
  intro v
  rw [OrderedSet.mem_foldl_insert hlt (fun itr => (c.entries.get itr).2)]
  constructor
  · intro h
    rcases h with ⟨itr, hitr, hv⟩ | h
    · have hk := (hrange itr).mp hitr
      rw [show (k, v) = c.entries.get itr from (Prod.ext hk hv).symm]
      exact List.get_mem c.entries itr
    · exact absurd h List.not_mem_nil
  · intro h
    obtain ⟨itr, hitr⟩ := List.get_of_mem h
    exact Or.inl ⟨itr, (hrange itr).mpr (by rw [hitr]), by rw [hitr]⟩

omit [LT K] [DecidableLT K] in
/-- For any other key the first thing the loop does is to dereference the end
of the range. -/
theorem valueSet_of_absent [DecidableEq K] {k : K} (hk : ∀ v, (k, v) ∉ c.entries) :
    c.valueSet view k = none := by
  have hrange : c.equalRange view k = [] := by
    refine List.eq_nil_iff_forall_not_mem.mpr ?_
    intro itr hitr
    obtain rfl := (mem_equalRange c view k itr).mp hitr
    exact hk _ (List.get_mem c.entries itr)
  unfold LRUCache.valueSet
  rw [hrange]
  rfl

omit [LT K] [DecidableLT K] in
theorem valueSet_exact_iff [DecidableEq K]
    (hlt : OrderedSet.StrictTotal (LRUCache.valueLt : V → V → Bool)) (k : K) :
    (∃ set, c.valueSet view k = some set ∧ ∀ v, v ∈ set ↔ (k, v) ∈ c.entries) ↔
      ∃ v, (k, v) ∈ c.entries := by
  constructor
  · intro h
    by_contra hk
    obtain ⟨set, hset, -⟩ := h
    rw [valueSet_of_absent c view (fun v hv => hk ⟨v, hv⟩)] at hset
    exact absurd hset (by simp)
  · exact valueSet_of_held c view hlt

end Copies

/-! ## §2. Calls that only read. -/

section Reads

variable {K V : Type*} [DecidableEq K] [DecidableEq V] [LT K] [DecidableLT K]
  [LT V] [DecidableLT V]

/-- The operations that only read. -/
def Op.isQuery : Op K V → Bool
  | .containsKey _ | .containsValue _ | .getKey _ | .entrySet | .valueSet _
  | .isEmpty | .isFull | .size | .valueRange _ | .capacity => true
  | _ => false

theorem step_query (c : LRUCache K V) {call : Call K V} (h : call.op.isQuery = true) :
    (step c call).2 = c := by
  obtain ⟨view, op⟩ := call
  cases op with
  | put k v => exact absurd h (by simp [Op.isQuery])
  | get k => exact absurd h (by simp [Op.isQuery])
  | pop k => exact absurd h (by simp [Op.isQuery])
  | remove k => exact absurd h (by simp [Op.isQuery])
  | removeValue k v => exact absurd h (by simp [Op.isQuery])
  | clear => exact absurd h (by simp [Op.isQuery])
  | _ => rfl

end Reads

/-! ## §3. One state. -/

section OneState

variable {K V : Type*} [LinearOrder K] [LinearOrder V]

theorem strictTotal_entry :
    OrderedSet.StrictTotal (LRUCache.entryLt : K × V → K × V → Bool) :=
  OrderedSet.StrictTotal.pair OrderedSet.strictTotal_lt OrderedSet.strictTotal_lt

/-- How many distinct values a set of entries has for a key. -/
def distinctValues (k : K) (set : List (K × V)) : ℕ :=
  ((set.filter (fun p => p.1 = k)).map Prod.snd).toFinset.card

/-- The entries of a key differ in their values. -/
theorem distinctValues_eq {k : K} {set l : List (K × V)} (hset : set.Perm l) (hnd : l.Nodup) :
    distinctValues k set = (underKey k l).length := by
  have hvalues : ((underKey k l).map Prod.snd).Nodup := by
    refine List.Nodup.map_on ?_ (hnd.filter _)
    intro p hp q hq hpq
    have hpk : p.1 = k := by simpa using (List.mem_filter.mp hp).2
    have hqk : q.1 = k := by simpa using (List.mem_filter.mp hq).2
    exact Prod.ext (hpk.trans hqk.symm) hpq
  have hperm : ((set.filter (fun p => p.1 = k)).map Prod.snd).Perm
      ((underKey k l).map Prod.snd) := (hset.filter _).map _
  unfold distinctValues
  rw [List.toFinset_card_of_nodup (hperm.nodup_iff.mpr hvalues), hperm.length_eq, List.length_map]

omit [LinearOrder K] in
/-- In a list sorted by stamp, the key of the first entry with a value. -/
theorem firstKey_iff {h : List (Event (LRUCache K V) (Call K V) (Answer K V))}
    [DecidableEq K] {l : List (K × V)} (ho : InOrder used h l) (k : K) (v : V) :
    (l.find? (fun p => p.2 = v)).map Prod.fst = some k ↔
      (k, v) ∈ l ∧ ∀ k', (k', v) ∈ l → k' ≠ k →
        stamp used h (k, v) < stamp used h (k', v) := by
  constructor
  · intro hk
    obtain ⟨p, hp, hpk⟩ := Option.map_eq_some_iff.mp hk
    obtain rfl : p = (k, v) := Prod.ext hpk (by simpa using List.find?_some hp)
    refine ⟨List.mem_of_find?_eq_some hp, ?_⟩
    intro k' hk' hne
    refine ho.find?_least hp _ hk' (by simp) ?_
    exact fun heq => hne (congrArg Prod.fst heq)
  · intro hk
    obtain ⟨hmem, hleast⟩ := hk
    cases hp : l.find? (fun p => p.2 = v) with
    | none =>
        have hnone := List.find?_eq_none.mp hp (k, v) hmem
        exact absurd (by simp) hnone
    | some p =>
        obtain ⟨k', w⟩ := p
        obtain rfl : w = v := by simpa using List.find?_some hp
        by_cases hkk : k' = k
        · rw [hkk]
          rfl
        · -- each of two keys would have the smaller stamp
          have h₁ := hleast k' (List.mem_of_find?_eq_some hp) hkk
          have h₂ := ho.find?_least hp (k, w) hmem (by simp)
            (fun heq => hkk (congrArg Prod.fst heq).symm)
          omega

omit [LinearOrder K] in
/-- A value is found if some key holds it. -/
theorem containsValue_iff (c : LRUCache K V) (v : V) :
    c.containsValue v = true ↔ ∃ k, (k, v) ∈ c.entries := by
  unfold LRUCache.containsValue LRUCache.getKey
  rw [Option.isSome_map, List.find?_isSome]
  constructor
  · intro h
    obtain ⟨p, hp, hv⟩ := h
    obtain rfl : p.2 = v := by simpa using hv
    exact ⟨p.1, hp⟩
  · intro h
    obtain ⟨k, hk⟩ := h
    exact ⟨(k, v), hk, by simp⟩

/-- What the queries answer at the end of a session, each under a key view of
its own. -/
structure QueriesAgree (r : Session (LRUCache K V) (Call K V) (Answer K V)) : Prop where
  size : ∀ view, r.state.size.toNat = (r.state.entrySet view).length
  valueRange : ∀ view view' k,
    (r.state.valueRange view' k).toNat = distinctValues k (r.state.entrySet view)
  containsKey : ∀ view view' k,
    r.state.containsKey view k = true ↔ 0 < r.state.valueRange view' k
  containsValue : ∀ view v,
    r.state.containsValue v = true ↔ ∃ k, (k, v) ∈ r.state.entrySet view
  /-- The key of the least recently used pair with the value. -/
  getKey : ∀ view k v, r.state.getKey v = some k ↔
    (k, v) ∈ r.state.entrySet view ∧ ∀ k', (k', v) ∈ r.state.entrySet view → k' ≠ k →
      stamp used r.history (k, v) < stamp used r.history (k', v)
  isEmpty : ∀ view, r.state.isEmpty = true ↔ r.state.entrySet view = []
  /-- Whatever is called later happens the same without the queries in between. -/
  undisturbed : ∀ later : List (Call K V),
    let bare := later.filter (fun call => !call.op.isQuery)
    ((machine K V).run r.state bare).state = ((machine K V).run r.state later).state ∧
    ((machine K V).run r.state bare).history =
      ((machine K V).run r.state later).history.filter (fun e => !e.call.op.isQuery)

/-- **The queries of every session describe one state and do not disturb it.** -/
theorem session_queries (capacity : UInt32) (calls : List (Call K V))
    (hsmall : (session capacity calls).state.entries.length < UInt32.size) :
    QueriesAgree (session capacity calls) := by
  have hc := (session_reachable capacity calls).wellFormed
  have ho := session_inOrder capacity calls
  generalize session capacity calls = r at hsmall hc ho
  have hset := fun view => entrySet_perm r.state view strictTotal_entry hc.nodup
  have hmem : ∀ view p, p ∈ r.state.entrySet view ↔ p ∈ r.state.entries :=
    fun view p => (hset view).mem_iff
  -- no 32-bit count wraps
  have hsize : r.state.size.toNat = r.state.entries.length := UInt32.toNat_ofNat_of_lt' hsmall
  have hrange : ∀ view k, (r.state.valueRange view k).toNat
      = (underKey k r.state.entries).length := by
    intro view k
    rw [valueRange_answer]
    exact UInt32.toNat_ofNat_of_lt' (lt_of_le_of_lt (List.length_filter_le _ _) hsmall)
  constructor
  case size =>
    intro view
    rw [hsize, (hset view).length_eq]
  case valueRange =>
    intro view view' k
    rw [hrange, distinctValues_eq (hset view) hc.nodup]
  case containsKey =>
    intro view view' k
    rw [UInt32.lt_iff_toNat_lt, hrange, containsKey_answer, Bool.not_eq_true',
      List.isEmpty_eq_false_iff]
    exact List.length_pos_iff.symm
  case containsValue =>
    intro view v
    simp only [hmem]
    exact containsValue_iff r.state v
  case getKey =>
    intro view k v
    simp only [hmem]
    exact firstKey_iff ho k v
  case isEmpty =>
    intro view
    unfold LRUCache.isEmpty
    rw [decide_eq_true_eq, ← UInt32.toNat_inj, hsize, ← (hset view).length_eq]
    exact List.length_eq_zero_iff
  case undisturbed =>
    intro later
    refine (machine K V).run_skip (fun call => !call.op.isQuery) ?_ r.state later
    intro c call hcall
    exact step_query c (by simpa using hcall)

/-- One key with two values: the counts agree on it. -/
theorem queries_of_two_values :
    QueriesAgree (session 2 [⟨KeyView.listOrder, .put (1 : ℕ) (10 : ℕ)⟩,
      ⟨KeyView.newestFirst, .put 1 11⟩]) :=
  session_queries 2 [⟨KeyView.listOrder, .put (1 : ℕ) (10 : ℕ)⟩,
    ⟨KeyView.newestFirst, .put 1 11⟩] (by decide)

end OneState

end EzBakeCommon.Lru
