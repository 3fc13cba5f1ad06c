/-
  EzBakeCommon.Lru.Refinement — the cache is a bounded list in order of use.

  The iterator arithmetic of `LRUCache`, under ANY key view, comes down to the
  operations of `Library.RecencyList`: `getLruEntry` finds the oldest entry of
  a key, `findEntry` decides membership, and every call acts on the list view
  as `Op.apply` says.  `step_refines` is the only place where the definitions
  of the cache are opened; what is proved about runs starts from it.

  Main results:
    * `step_refines` — one call is one operation of the bounded list.
    * `session_reachable` — the laws of the bounded list hold along every run.
-/
import EzBakeCommon.Lru.Cache
import EzBakeCommon.Library.RecencyList

namespace EzBakeCommon.Lru

open Library

variable {K V : Type*}

/-! ## §1. What the two searches find. -/

/-- The least recently used entry of a key. -/
def oldest [DecidableEq K] (k : K) (l : List (K × V)) : Option (K × V) :=
  l.find? (fun p => p.1 = k)

theorem oldest_eq_none [DecidableEq K] {k : K} {l : List (K × V)} :
    oldest k l = none ↔ ∀ p ∈ l, p.1 ≠ k := by
  simp [oldest, List.find?_eq_none]

theorem oldest_mem [DecidableEq K] {k : K} {l : List (K × V)} {p : K × V}
    (h : oldest k l = some p) : p ∈ l :=
  List.mem_of_find?_eq_some h

theorem oldest_key [DecidableEq K] {k : K} {l : List (K × V)} {p : K × V}
    (h : oldest k l = some p) : p.1 = k := by
  simpa using List.find?_some h

section Searches

variable [DecidableEq K] (c : LRUCache K V) (view : KeyView K V) (k : K)

theorem mem_equalRange (itr : Fin c.entries.length) :
    itr ∈ c.equalRange view k ↔ (c.entries.get itr).1 = k := by
  unfold LRUCache.equalRange
  rw [List.mem_filter, (view.perm c.entries).mem_iff]
  simp

/-- The running minimum of `getLruEntry` is a position it has seen, and no
position it has seen is smaller. -/
theorem foldl_smallest {n : Nat} :
    ∀ (l : List (Fin n)) (i : Fin n),
      (l.foldl (fun entry itr => if itr < entry then itr else entry) i ∈ i :: l) ∧
      ∀ j ∈ i :: l, l.foldl (fun entry itr => if itr < entry then itr else entry) i ≤ j
  | [], i => by simp
  | a :: l, i => by
      -- the loop body has seen `a`; the rest of the loop starts from the smaller
      obtain ⟨hmem, hle⟩ := foldl_smallest l (if a < i then a else i)
      rw [List.foldl_cons]
      constructor
      · rcases List.mem_cons.mp hmem with h | h
        · rw [h]
          split <;> simp
        · exact List.mem_cons_of_mem _ (List.mem_cons_of_mem _ h)
      · have hfirst := hle _ List.mem_cons_self
        intro j hj
        rcases List.mem_cons.mp hj with rfl | hj
        · refine le_trans hfirst ?_
          split
          · exact le_of_lt ‹_›
          · exact le_refl _
        · rcases List.mem_cons.mp hj with rfl | hj
          · refine le_trans hfirst ?_
            split
            · exact le_refl _
            · exact not_lt.mp ‹_›
          · exact hle j (List.mem_cons_of_mem _ hj)

theorem getLruEntry_eq_none : c.getLruEntry view k = none ↔ ∀ p ∈ c.entries, p.1 ≠ k := by
  have hmem := mem_equalRange c view k
  unfold LRUCache.getLruEntry
  cases hr : c.equalRange view k with
  | nil =>
      rw [hr] at hmem
      refine ⟨fun _ p hp => ?_, fun _ => rfl⟩
      obtain ⟨itr, rfl⟩ := List.get_of_mem hp
      exact fun hk => absurd ((hmem itr).mpr hk) (by simp)
  | cons first rest =>
      rw [hr] at hmem
      refine ⟨fun h => absurd h (by simp), fun h => ?_⟩
      exact absurd ((hmem first).mp List.mem_cons_self) (h _ (List.get_mem _ _))

/-- `getLruEntry` finds the smallest position of the key's range. -/
theorem getLruEntry_eq_some {itr : Fin c.entries.length}
    (h : c.getLruEntry view k = some itr) :
    (c.entries.get itr).1 = k ∧ ∀ j, (c.entries.get j).1 = k → itr ≤ j := by
  have hmem := mem_equalRange c view k
  unfold LRUCache.getLruEntry at h
  cases hr : c.equalRange view k with
  | nil =>
      rw [hr] at h
      exact absurd h (by simp)
  | cons first rest =>
      rw [hr] at h hmem
      obtain ⟨hin, hle⟩ := foldl_smallest (first :: rest) first
      obtain rfl := Option.some.inj h
      constructor
      · refine (hmem _).mp ?_
        rcases List.mem_cons.mp hin with h | h
        · rw [h]
          exact List.mem_cons_self
        · exact h
      · intro j hj
        exact hle j (List.mem_cons_of_mem _ ((hmem j).mpr hj))

/-- **Whatever the key view, `getLruEntry` finds the oldest entry of the key.** -/
theorem getLruEntry_oldest :
    (c.getLruEntry view k).map c.entries.get = oldest k c.entries := by
  cases h : c.getLruEntry view k with
  | none => exact (oldest_eq_none.mpr ((getLruEntry_eq_none c view k).mp h)).symm
  | some itr =>
      obtain ⟨hk, hle⟩ := getLruEntry_eq_some c view k h
      symm
      -- no earlier position holds the key
      refine List.find?_eq_some_iff_getElem.mpr ⟨by simpa using hk, itr, itr.isLt, rfl, ?_⟩
      intro j hj
      by_contra hjk
      have hlt : j < c.entries.length := hj.trans itr.isLt
      have hle := hle ⟨j, hlt⟩ (by simpa using hjk)
      exact absurd hj (not_lt.mpr hle)

theorem findEntry_eq_none [DecidableEq V] (v : V) :
    c.findEntry view k v = none ↔ (k, v) ∉ c.entries := by
  unfold LRUCache.findEntry
  rw [List.find?_eq_none]
  constructor
  · intro h hmem
    obtain ⟨itr, hitr⟩ := List.get_of_mem hmem
    have hk : (c.entries.get itr).1 = k := by rw [hitr]
    have hv : (c.entries.get itr).2 = v := by rw [hitr]
    exact h itr ((mem_equalRange c view k itr).mpr hk) (by simpa using hv)
  · intro h itr hitr hv
    have hk := (mem_equalRange c view k itr).mp hitr
    refine h ?_
    rw [show (k, v) = c.entries.get itr from
      (Prod.ext hk (by simpa using hv)).symm]
    exact List.get_mem _ _

theorem findEntry_eq_some [DecidableEq V] {v : V} {itr : Fin c.entries.length}
    (h : c.findEntry view k v = some itr) : c.entries.get itr = (k, v) := by
  have hk := (mem_equalRange c view k itr).mp (List.mem_of_find?_eq_some h)
  exact Prod.ext hk (by simpa using List.find?_some h)

end Searches

/-- The entries of a key, least recently used first. -/
def underKey [DecidableEq K] (k : K) (l : List (K × V)) : List (K × V) :=
  l.filter (fun p => p.1 = k)

theorem underKey_idem [DecidableEq K] (k : K) (l : List (K × V)) :
    underKey k (underKey k l) = underKey k l := by
  unfold underKey
  rw [List.filter_filter]
  exact List.filter_congr (fun p _ => Bool.and_self _)

/-- The key view lists every entry, in whatever order. -/
theorem walk_perm (view : KeyView K V) (l : List (K × V)) :
    ((view.walk l).map l.get).Perm l := by
  refine ((view.perm l).map l.get).trans ?_
  rw [← List.ofFn_eq_map, List.ofFn_get]

/-- The key view lists the entries of the key, in whatever order. -/
theorem equalRange_perm [DecidableEq K] (c : LRUCache K V) (view : KeyView K V) (k : K) :
    ((c.equalRange view k).map c.entries.get).Perm (underKey k c.entries) := by
  unfold LRUCache.equalRange underKey
  rw [show (fun itr => decide ((c.entries.get itr).1 = k))
    = (fun p : K × V => decide (p.1 = k)) ∘ c.entries.get from rfl, ← List.filter_map]
  -- the part of the whole walk that the range keeps
  exact (walk_perm view c.entries).filter _

theorem remove_answer [DecidableEq K] (c : LRUCache K V) (view : KeyView K V) (k : K) :
    ((c.remove view k).1).Perm ((underKey k c.entries).map Prod.snd) := by
  have h := (equalRange_perm c view k).map Prod.snd
  rwa [List.map_map] at h

theorem valueRange_answer [DecidableEq K] (c : LRUCache K V) (view : KeyView K V) (k : K) :
    c.valueRange view k = UInt32.ofNat (underKey k c.entries).length := by
  have h := (equalRange_perm c view k).length_eq
  rw [List.length_map] at h
  unfold LRUCache.valueRange
  rw [h]

theorem containsKey_answer [DecidableEq K] (c : LRUCache K V) (view : KeyView K V) (k : K) :
    c.containsKey view k = !(underKey k c.entries).isEmpty := by
  have h := (equalRange_perm c view k).length_eq
  unfold LRUCache.containsKey LRUCache.find
  cases h₁ : c.equalRange view k with
  | nil =>
      rw [h₁] at h
      rw [List.length_eq_zero_iff.mp h.symm]
      rfl
  | cons itr rest =>
      rw [h₁] at h
      cases h₂ : underKey k c.entries with
      | nil =>
          rw [h₂] at h
          exact absurd h (by simp)
      | cons p l => rfl

theorem removeValue_answer [DecidableEq K] [DecidableEq V] (c : LRUCache K V)
    (view : KeyView K V) (k : K) (v : V) :
    (c.removeValue view k v).1 = if (k, v) ∈ c.entries then some v else none := by
  unfold LRUCache.removeValue
  cases h : c.findEntry view k v with
  | none => rw [if_neg ((findEntry_eq_none c view k v).mp h)]
  | some itr =>
      have hget := findEntry_eq_some c view k h
      have hmem : (k, v) ∈ c.entries := hget ▸ List.get_mem c.entries itr
      rw [if_pos hmem]
      exact congrArg some (congrArg Prod.snd hget)

/-! ## §2. The bounded list behind the cache. -/

/-- The two laws of a bounded list, for the entries of a cache. -/
structure WellFormed (c : LRUCache K V) : Prop where
  nodup : c.entries.Nodup
  bounded : c.capacity.toNat ≠ 0 → c.entries.length ≤ c.capacity.toNat

/-- The bounded list of a well-formed cache. -/
def LRUCache.asList (c : LRUCache K V) (hc : WellFormed c) :
    RecencyList (K × V) c.capacity.toNat :=
  ⟨c.entries, hc.nodup, hc.bounded⟩

theorem new_wellFormed (capacity : UInt32) : WellFormed (LRUCache.new capacity : LRUCache K V) :=
  ⟨List.nodup_nil, fun _ => Nat.zero_le _⟩

variable [DecidableEq K] [DecidableEq V]

/-- What an operation does to the list of entries, whatever the key view. -/
def Op.apply {cap : Nat} (r : RecencyList (K × V) cap) : Op K V → RecencyList (K × V) cap
  | .put k v => r.place (k, v)
  | .get k => match oldest k r.items with
      | some p => r.renew p
      | none => r
  | .pop k => match oldest k r.items with
      | some p => r.discard p
      | none => r
  | .remove k => r.keep (fun p => p.1 ≠ k)
  | .removeValue k v => r.discard (k, v)
  | .clear => RecencyList.empty
  | _ => r

section Apply

variable {cap : Nat} {r : RecencyList (K × V) cap} {k : K} {p : K × V}

theorem apply_get_none (h : oldest k r.items = none) : Op.apply r (.get k) = r := by
  simp only [Op.apply, h]

theorem apply_get_some (h : oldest k r.items = some p) : Op.apply r (.get k) = r.renew p := by
  simp only [Op.apply, h]

theorem apply_pop_none (h : oldest k r.items = none) : Op.apply r (.pop k) = r := by
  simp only [Op.apply, h]

theorem apply_pop_some (h : oldest k r.items = some p) : Op.apply r (.pop k) = r.discard p := by
  simp only [Op.apply, h]

/-- A get brings nothing in and takes nothing out. -/
theorem mem_apply_get : p ∈ (Op.apply r (.get k)).items ↔ p ∈ r.items := by
  cases hk : oldest k r.items with
  | none => rw [apply_get_none hk]
  | some q =>
      rw [apply_get_some hk]
      exact r.mem_renew_iff (oldest_mem hk)

/-- A pop takes out the oldest entry of the key, and no other. -/
theorem mem_apply_pop :
    p ∈ (Op.apply r (.pop k)).items ↔ p ∈ r.items ∧ oldest k r.items ≠ some p := by
  cases hk : oldest k r.items with
  | none =>
      rw [apply_pop_none hk]
      simp
  | some q =>
      rw [apply_pop_some hk, RecencyList.mem_discard_iff, and_comm, ne_eq, ne_eq,
        Option.some.injEq, eq_comm]

end Apply

section Refines

variable {c : LRUCache K V} (hc : WellFormed c) (view : KeyView K V)

theorem toNat_ne_zero (n : UInt32) : n.toNat ≠ 0 ↔ n ≠ 0 := by
  rw [ne_eq, ne_eq, ← UInt32.toNat_inj]
  rfl

theorem toNat_ne_zero_of_one_le {n : UInt32} (h : 1 ≤ n) : n.toNat ≠ 0 :=
  Nat.ne_of_gt (UInt32.le_iff_toNat_le.mp h)

omit [DecidableEq V] in
theorem get_answer (c : LRUCache K V) (k : K) :
    (c.get view k).1 = (oldest k c.entries).map Prod.snd := by
  rw [← getLruEntry_oldest c view k]
  unfold LRUCache.get
  cases c.getLruEntry view k <;> rfl

omit [DecidableEq V] in
theorem pop_answer (c : LRUCache K V) (k : K) :
    (c.pop view k).1 = (oldest k c.entries).map Prod.snd := by
  rw [← getLruEntry_oldest c view k]
  unfold LRUCache.pop
  cases c.getLruEntry view k <;> rfl

/-- Erasing at the position `findEntry` returns is taking out the pair. -/
theorem eraseFound_findEntry (k : K) (v : V) :
    c.eraseFound (c.findEntry view k v) = ((c.asList hc).discard (k, v)).items := by
  cases h : c.findEntry view k v with
  | none =>
      have habs : (k, v) ∉ (c.asList hc).items := (findEntry_eq_none c view k v).mp h
      exact ((c.asList hc).discard_absent habs).symm
  | some itr =>
      rw [← findEntry_eq_some c view k h]
      exact (c.asList hc).eraseIdx_eq_discard itr

theorem put_entries (k : K) (v : V) :
    (c.put view k v).entries = ((c.asList hc).place (k, v)).items := by
  unfold LRUCache.put
  rw [eraseFound_findEntry hc view k v]
  -- the code tests the machine integer, the bounded list the number
  show (if c.capacity ≠ 0 ∧ _ then _ else _) ++ [(k, v)]
    = (if c.capacity.toNat ≠ 0 ∧ _ then _ else _) ++ [(k, v)]
  simp only [toNat_ne_zero]
  rfl

theorem get_entries (k : K) :
    (c.get view k).2.entries = (Op.apply (c.asList hc) (.get k)).items := by
  have hk : _ = oldest k (c.asList hc).items := getLruEntry_oldest c view k
  unfold LRUCache.get
  cases h : c.getLruEntry view k with
  | none =>
      rw [h] at hk
      rw [apply_get_none hk.symm]
      rfl
  | some itr =>
      rw [h] at hk
      have hmem : c.entries.get itr ∈ (c.asList hc).items := List.get_mem c.entries itr
      rw [apply_get_some hk.symm, RecencyList.renew_live _ hmem]
      exact congrArg (· ++ [c.entries.get itr]) ((c.asList hc).eraseIdx_eq_discard itr)

theorem pop_entries (k : K) :
    (c.pop view k).2.entries = (Op.apply (c.asList hc) (.pop k)).items := by
  have hk : _ = oldest k (c.asList hc).items := getLruEntry_oldest c view k
  unfold LRUCache.pop
  cases h : c.getLruEntry view k with
  | none =>
      rw [h] at hk
      rw [apply_pop_none hk.symm]
      rfl
  | some itr =>
      rw [h] at hk
      rw [apply_pop_some hk.symm]
      exact (c.asList hc).eraseIdx_eq_discard itr

theorem removeValue_entries (k : K) (v : V) :
    (c.removeValue view k v).2.entries = ((c.asList hc).discard (k, v)).items := by
  rw [← eraseFound_findEntry hc view k v]
  unfold LRUCache.removeValue
  cases c.findEntry view k v <;> rfl

variable [LT K] [DecidableLT K] [LT V] [DecidableLT V]
include hc

/-- **One call is one operation of the bounded list**, and leaves the capacity
alone. -/
theorem step_refines (call : Call K V) :
    (step c call).2.capacity = c.capacity ∧
    (step c call).2.entries = (call.op.apply (c.asList hc)).items := by
  obtain ⟨view, op⟩ := call
  cases op with
  | put k v => exact ⟨rfl, put_entries hc view k v⟩
  | get k =>
      refine ⟨?_, get_entries hc view k⟩
      show (c.get view k).2.capacity = _
      unfold LRUCache.get
      cases c.getLruEntry view k <;> rfl
  | pop k =>
      refine ⟨?_, pop_entries hc view k⟩
      show (c.pop view k).2.capacity = _
      unfold LRUCache.pop
      cases c.getLruEntry view k <;> rfl
  | removeValue k v =>
      refine ⟨?_, removeValue_entries hc view k v⟩
      show (c.removeValue view k v).2.capacity = _
      unfold LRUCache.removeValue
      cases c.findEntry view k v <;> rfl
  | _ => exact ⟨rfl, rfl⟩

/-- The laws of the bounded list hold after the call because they hold of the
list it refines. -/
theorem step_wellFormed (call : Call K V) : WellFormed (step c call).2 := by
  obtain ⟨hcap, hent⟩ := step_refines hc call
  constructor
  · rw [hent]
    exact (call.op.apply (c.asList hc)).nodup
  · rw [hent, hcap]
    exact (call.op.apply (c.asList hc)).bounded

end Refines

/-! ## §3. Along runs. -/

variable [LT K] [DecidableLT K] [LT V] [DecidableLT V]

/-- A call made in a well-formed cache of this capacity. -/
structure Reachable (capacity : UInt32) (c : LRUCache K V) : Prop where
  capacity : c.capacity = capacity
  wellFormed : WellFormed c

theorem Reachable.step {capacity : UInt32} {c : LRUCache K V} (h : Reachable capacity c)
    (call : Call K V) : Reachable capacity (step c call).2 :=
  ⟨(step_refines h.wellFormed call).1.trans h.capacity, step_wellFormed h.wellFormed call⟩

theorem session_reachable (capacity : UInt32) (calls : List (Call K V)) :
    Reachable capacity (session capacity calls).state :=
  (machine K V).state_induction (I := Reachable capacity) ⟨rfl, new_wellFormed capacity⟩
    (fun _ call h => h.step call) calls

end EzBakeCommon.Lru
