/-
  EzBakeCommon.Lru.Capacity — a larger cache never loses a hit.

  Two caches make the same calls (each under its own key views).  If no key is
  ever put with two values, a lookup that hits in the smaller cache finds the
  same pair in the larger one, and the smaller cache stays a sublist of the
  larger one.  The relation that carries the simulation is `RecencyList.Within`:
  besides inclusion it bounds how many entries the larger cache may hold more,
  which is what makes it evict only when the smaller one does.

  Main result: `session_larger`.
-/
import EzBakeCommon.Lru.Law

namespace EzBakeCommon.Lru

open Library RecencyList

variable {K V : Type*} [DecidableEq K] [DecidableEq V]

/-! ## §1. One operation on two lists. -/

section Step

variable {c₁ c₂ : Nat} (r₁ : RecencyList (K × V) c₁) (r₂ : RecencyList (K × V) c₂)

/-- No key has two entries. -/
def OneValue (l : List (K × V)) : Prop := ∀ p ∈ l, ∀ q ∈ l, p.1 = q.1 → p = q

omit [DecidableEq V] in
/-- A pair found in a sublist is found in the list. -/
theorem oldest_of_sublist {l₁ l₂ : List (K × V)} (hs : l₁.Sublist l₂) (hone : OneValue l₂)
    {k : K} {p : K × V} (hp : oldest k l₁ = some p) : oldest k l₂ = some p := by
  have hp₂ : p ∈ l₂ := hs.subset (oldest_mem hp)
  cases hq : oldest k l₂ with
  | none => exact absurd (oldest_key hp) (oldest_eq_none.mp hq p hp₂)
  | some q =>
      rw [hone q (oldest_mem hq) p hp₂ ((oldest_key hq).trans (oldest_key hp).symm)]

theorem apply_within (hw : Within c₁ c₂ r₁.items r₂.items) (hone : OneValue r₂.items)
    (hc₁ : c₁ ≠ 0) (hc : c₂ = 0 ∨ c₁ ≤ c₂) (op : Op K V) :
    Within c₁ c₂ (op.apply r₁).items (op.apply r₂).items := by
  -- a key that only the larger list holds
  have hmiss : ∀ {k : K} {q : K × V}, oldest k r₁.items = none →
      oldest k r₂.items = some q → q ∉ r₁.items :=
    fun h₁ h₂ hq => oldest_eq_none.mp h₁ _ hq (oldest_key h₂)
  cases op with
  | put k v => exact hw.place hc₁ hc
  | get k =>
      cases h₁ : oldest k r₁.items with
      | some p =>
          rw [apply_get_some h₁, apply_get_some (oldest_of_sublist hw.sublist hone h₁)]
          exact hw.renew (oldest_mem h₁)
      | none =>
          rw [apply_get_none h₁]
          cases h₂ : oldest k r₂.items with
          | none =>
              rw [apply_get_none h₂]
              exact hw
          | some q =>
              rw [apply_get_some h₂]
              exact hw.renew_right (hmiss h₁ h₂) (oldest_mem h₂)
  | pop k =>
      cases h₁ : oldest k r₁.items with
      | some p =>
          rw [apply_pop_some h₁, apply_pop_some (oldest_of_sublist hw.sublist hone h₁)]
          exact hw.discard
      | none =>
          rw [apply_pop_none h₁]
          cases h₂ : oldest k r₂.items with
          | none =>
              rw [apply_pop_none h₂]
              exact hw
          | some q =>
              rw [apply_pop_some h₂]
              exact hw.discard_right (hmiss h₁ h₂)
  | remove k => exact hw.keep _
  | removeValue k v => exact hw.discard
  | clear => exact Within.nil
  | _ => exact hw

/-- An operation brings in no pair but the one it puts. -/
theorem apply_subset {P : K → V → Prop} {op : Op K V} (hput : ∀ k v, op = .put k v → P k v)
    (hl : ∀ p ∈ r₂.items, P p.1 p.2) : ∀ p ∈ (op.apply r₂).items, P p.1 p.2 := by
  intro p hp
  rcases enters r₂ hp with hu | hp
  · cases op with
    | put k v =>
        obtain rfl := Option.some.inj hu
        exact hput k v rfl
    | get k => exact hl p (oldest_mem hu)
    | _ => exact absurd hu (by simp [Op.uses])
  · exact hl p hp

end Step

/-! ## §2. Two sessions. -/

variable [LT K] [DecidableLT K] [LT V] [DecidableLT V]

/-- What holds between the same call made in the smaller and in the larger cache. -/
structure HitKept (e₁ e₂ : Event (LRUCache K V) (Call K V) (Answer K V)) : Prop where
  same : e₁.call.op = e₂.call.op
  /-- The entries are a subset, in the same relative recency order. -/
  subset : e₁.after.entries.Sublist e₂.after.entries
  /-- A `get` or `pop` that hits in the smaller cache returns the same in the larger. -/
  hit : ∀ k v, (e₁.call.op = .get k ∨ e₁.call.op = .pop k) →
    e₁.answer = .value (some v) → e₂.answer = .value (some v)

/-- The answer of a lookup. -/
theorem lookup_answer (c : LRUCache K V) (call : Call K V) (k : K)
    (hop : call.op = .get k ∨ call.op = .pop k) :
    (step c call).1 = .value ((oldest k c.entries).map Prod.snd) := by
  obtain ⟨view, op⟩ := call
  rcases hop with rfl | rfl
  · exact congrArg Answer.value (get_answer view c k)
  · exact congrArg Answer.value (pop_answer view c k)

/-- The relation between the two sessions. -/
structure Follows (capacity₁ capacity₂ : UInt32) (P : K → V → Prop)
    (r₁ r₂ : Session (LRUCache K V) (Call K V) (Answer K V)) : Prop where
  reach₁ : Reachable capacity₁ r₁.state
  reach₂ : Reachable capacity₂ r₂.state
  within : Within capacity₁.toNat capacity₂.toNat r₁.state.entries r₂.state.entries
  put : ∀ p ∈ r₂.state.entries, P p.1 p.2
  hits : List.Forall₂ HitKept r₁.history r₂.history

section Extend

variable {capacity₁ capacity₂ : UInt32} {P : K → V → Prop}
  {r₁ r₂ : Session (LRUCache K V) (Call K V) (Answer K V)} {call₁ call₂ : Call K V}

/-- What the smaller cache finds, the larger one finds too. -/
theorem Follows.hit (hf : Follows capacity₁ capacity₂ P r₁ r₂) (hone : OneValue r₂.state.entries)
    (hop : call₁.op = call₂.op) {k : K} {v : V} (hlook : call₁.op = .get k ∨ call₁.op = .pop k)
    (hans : (step r₁.state call₁).1 = .value (some v)) :
    (step r₂.state call₂).1 = .value (some v) := by
  rw [lookup_answer r₁.state call₁ k hlook] at hans
  injection hans with hans
  obtain ⟨p, hp, rfl⟩ := Option.map_eq_some_iff.mp hans
  rw [lookup_answer r₂.state call₂ k (hop ▸ hlook),
    oldest_of_sublist hf.within.sublist hone hp]
  rfl

/-- One more call, made in both, keeps the relation. -/
theorem Follows.extend (hc₁ : capacity₁.toNat ≠ 0)
    (hc : capacity₂.toNat = 0 ∨ capacity₁.toNat ≤ capacity₂.toNat)
    (hone : ∀ k v w, P k v → P k w → v = w) (hop : call₁.op = call₂.op)
    (hput : ∀ k v, call₁.op = .put k v → P k v) (hf : Follows capacity₁ capacity₂ P r₁ r₂) :
    Follows capacity₁ capacity₂ P ((machine K V).extend r₁ call₁)
      ((machine K V).extend r₂ call₂) := by
  obtain ⟨-, hent₁⟩ := step_refines hf.reach₁.wellFormed call₁
  obtain ⟨-, hent₂⟩ := step_refines hf.reach₂.wellFormed call₂
  have hone₂ : OneValue r₂.state.entries := by
    intro p hp q hq hk
    obtain ⟨k, v⟩ := p
    obtain ⟨k', w⟩ := q
    obtain rfl : k = k' := hk
    -- both were put, with one key
    rw [hone k v w (hf.put _ hp) (hf.put _ hq)]
  have hcap₁ : capacity₁.toNat = r₁.state.capacity.toNat := by rw [hf.reach₁.capacity]
  have hcap₂ : capacity₂.toNat = r₂.state.capacity.toNat := by rw [hf.reach₂.capacity]
  have hwithin : Within capacity₁.toNat capacity₂.toNat
      (step r₁.state call₁).2.entries (step r₂.state call₂).2.entries := by
    have hw := hf.within
    rw [hent₁, hent₂, ← hop]
    rw [hcap₁, hcap₂] at hw hc ⊢
    rw [hcap₁] at hc₁
    exact apply_within (r₁.state.asList hf.reach₁.wellFormed)
      (r₂.state.asList hf.reach₂.wellFormed) hw hone₂ hc₁ hc call₁.op
  refine ⟨hf.reach₁.step call₁, hf.reach₂.step call₂, hwithin, ?_, ?_⟩
  · show ∀ p ∈ (step r₂.state call₂).2.entries, _
    rw [hent₂]
    exact apply_subset (r₂.state.asList hf.reach₂.wellFormed)
      (fun k v h => hput k v (hop.trans h)) hf.put
  · exact List.Forall₂.cons ⟨hop, hwithin.sublist, fun k v => hf.hit hone₂ hop⟩ hf.hits

end Extend

/-- **Raising the capacity never loses a hit.**  Of two sessions that make the
same calls, none of which puts a key with two values, the larger cache contains
the smaller one after every call, in the same order, and serves all its hits. -/
theorem session_larger (capacity₁ capacity₂ : UInt32) (hpos : 1 ≤ capacity₁)
    (hle : capacity₂ = 0 ∨ capacity₁ ≤ capacity₂) (calls₁ calls₂ : List (Call K V))
    (hsame : calls₁.map Call.op = calls₂.map Call.op)
    (hone : ∀ k v w, Op.put k v ∈ calls₁.map Call.op → Op.put k w ∈ calls₁.map Call.op →
      v = w) :
    List.Forall₂ HitKept (session capacity₁ calls₁).history
      (session capacity₂ calls₂).history := by
  have hc₁ : capacity₁.toNat ≠ 0 := toNat_ne_zero_of_one_le hpos
  have hc : capacity₂.toNat = 0 ∨ capacity₁.toNat ≤ capacity₂.toNat := by
    rcases hle with rfl | hle
    · exact Or.inl rfl
    · exact Or.inr (UInt32.le_iff_toNat_le.mp hle)
  have hcalls := Machine.forall₂_of_map_eq hsame
    (P := fun call => ∀ k v, call.op = .put k v → Op.put k v ∈ calls₁.map Call.op)
    (fun call hcall k v hop => hop ▸ List.mem_map_of_mem hcall)
  refine ((machine K V).run_lockstep (machine K V)
    (R := Follows capacity₁ capacity₂ (fun k v => Op.put k v ∈ calls₁.map Call.op))
    ⟨⟨rfl, new_wellFormed _⟩, ⟨rfl, new_wellFormed _⟩, Within.nil, by simp,
      List.Forall₂.nil⟩ ?_ calls₁ calls₂ hcalls).hits
  intro r₁ r₂ call₁ call₂ hsame hf
  exact hf.extend hc₁ hc hone hsame.1 hsame.2

/-- The cache of two serves the hit of the cache of one, under other key views. -/
theorem larger_serves_the_hit : List.Forall₂ HitKept
    (session 1 [⟨KeyView.listOrder, .put 1 10⟩, ⟨KeyView.listOrder, .put 2 20⟩,
      ⟨KeyView.listOrder, .get 1⟩, ⟨KeyView.listOrder, .get 2⟩]).history
    (session 2 [⟨KeyView.newestFirst, .put 1 10⟩, ⟨KeyView.newestFirst, .put 2 20⟩,
      ⟨KeyView.newestFirst, .get 1⟩, ⟨KeyView.newestFirst, .get 2⟩]).history :=
  session_larger 1 2 (by decide) (Or.inr (by decide)) _ _ rfl (by simp; omega)

end EzBakeCommon.Lru
