/-
  EzBakeCommon.Lru.Rotation — a key with many values takes turns.

  `get` moves the value it returns to the newest end, so the values of its key
  rotate by one; `pop` drops the same value.  Gets of other keys and queries in
  between move entries about in the shared list, but not the values of this key
  among themselves.

  Main results:
    * `run_turns` — the run lemma that `get` and `pop` share.
    * `session_rotation` — one round of gets serves every value once and restores
      the order; one round of pops serves the same values and leaves none.
-/
import EzBakeCommon.Lru.Isolation
import EzBakeCommon.Lru.Queries
import Mathlib.Data.List.Rotate

namespace EzBakeCommon.Lru

open Library

deriving instance DecidableEq for Op

variable {K V : Type*} [DecidableEq K] [DecidableEq V] [LT K] [DecidableLT K]
  [LT V] [DecidableLT V]

/-- The calls of one operation. -/
def turns (op : Op K V) (calls : List (Call K V)) : List (Call K V) :=
  calls.filter (fun call => call.op = op)

/-- The answers to one operation, oldest first. -/
def answersTo (op : Op K V) (h : List (Event (LRUCache K V) (Call K V) (Answer K V))) :
    List (Answer K V) :=
  ((h.filter (fun e => e.call.op = op)).map Event.answer).reverse

/-- A get of another key, or a query. -/
def Op.Aside (k : K) (op : Op K V) : Prop :=
  (∃ k', k' ≠ k ∧ op = .get k') ∨ op.isQuery = true

/-! ## §1. One call. -/

section Step

variable {c : LRUCache K V} (hc : WellFormed c) {k : K}
include hc

/-- A call aside moves no entry of the key and takes out none of any key. -/
theorem step_aside {call : Call K V} (h : call.op.Aside k) :
    underKey k (step c call).2.entries = underKey k c.entries ∧
    ∀ p, p ∈ (step c call).2.entries ↔ p ∈ c.entries := by
  rcases h with ⟨k', hne, hop⟩ | hop
  · rw [(step_refines hc call).2, hop]
    constructor
    · refine apply_unconcerned (c.asList hc) ?_ (fun _ _ h => absurd h (by simp))
      simp [Op.concerns, Op.keyOf, hne]
    · exact fun _ => mem_apply_get
  · rw [step_query c hop]
    exact ⟨rfl, fun _ => Iff.rfl⟩

omit hc [DecidableEq V] [LT K] [DecidableLT K] [LT V] [DecidableLT V] in
theorem oldest_eq_head (l : List (K × V)) : oldest k l = (underKey k l).head? :=
  List.head?_filter.symm

omit [DecidableEq V] [LT K] [DecidableLT K] [LT V] [DecidableLT V] in
/-- The oldest of the entries of the key is the first of them. -/
theorem oldest_kept (k : K) : oldest k ((c.asList hc).keep (fun p => p.1 = k)).items
    = (underKey k c.entries).head? := by
  rw [oldest_eq_head]
  exact congrArg List.head? (underKey_idem k c.entries)

/-- What a get or a pop of the key does to its entries, it does to them alone. -/
theorem step_underKey (call : Call K V) (h : call.op = .get k ∨ call.op = .pop k) :
    underKey k (step c call).2.entries
      = (call.op.apply ((c.asList hc).keep (fun p => p.1 = k))).items := by
  have hconcerns : call.op.concerns k = true := by
    rcases h with h | h <;> simp [h, Op.concerns, Op.keyOf]
  have hput : ∀ k' v, call.op = .put k' v → c.capacity.toNat ≠ 0 →
      ((c.asList hc).discard (k', v)).items.length < c.capacity.toNat := by
    intro k' v hop
    rw [hop] at h
    exact absurd h (by simp)
  rw [(step_refines hc call).2]
  exact (apply_concerned (c.asList hc) _ rfl rfl hconcerns hput).symm

omit hc [DecidableEq V] [LT K] [DecidableLT K] [LT V] [DecidableLT V] in
/-- A call that serves the first value of the key and leaves `next` under it. -/
structure Turn (k : K) (next : List (K × V)) (c : LRUCache K V)
    (result : Answer K V × LRUCache K V) : Prop where
  held : underKey k result.2.entries = next
  answer : result.1 = .value ((underKey k c.entries).head?.map Prod.snd)
  others : ∀ p ∈ c.entries, p.1 ≠ k → p ∈ result.2.entries

/-- `get` rotates the values of the key by one. -/
theorem step_get (view : KeyView K V) :
    Turn k ((underKey k c.entries).rotate 1) c (step c ⟨view, .get k⟩) := by
  refine ⟨?_, ?_, ?_⟩
  · rw [step_underKey hc _ (Or.inl rfl)]
    have hitems : ((c.asList hc).keep (fun p => p.1 = k)).items = underKey k c.entries := rfl
    have hold := oldest_kept hc k
    cases h : underKey k c.entries with
    | nil =>
        rw [h] at hitems hold
        rw [apply_get_none hold]
        exact hitems
    | cons p l =>
        rw [h] at hitems hold
        rw [apply_get_some hold, RecencyList.renew_head _ hitems, List.rotate_cons_succ,
          List.rotate_zero]
  · show Answer.value (c.get view k).1 = _
    rw [get_answer, oldest_eq_head]
  · intro p hp _
    rw [(step_refines hc _).2]
    exact mem_apply_get.mpr hp

/-- `pop` drops the first of them. -/
theorem step_pop (view : KeyView K V) :
    Turn k (underKey k c.entries).tail c (step c ⟨view, .pop k⟩) := by
  refine ⟨?_, ?_, ?_⟩
  · rw [step_underKey hc _ (Or.inr rfl)]
    have hitems : ((c.asList hc).keep (fun p => p.1 = k)).items = underKey k c.entries := rfl
    have hold := oldest_kept hc k
    cases h : underKey k c.entries with
    | nil =>
        rw [h] at hitems hold
        rw [apply_pop_none hold]
        exact hitems
    | cons p l =>
        rw [h] at hitems hold
        rw [apply_pop_some hold]
        exact RecencyList.discard_head _ hitems
  · show Answer.value (c.pop view k).1 = _
    rw [pop_answer, oldest_eq_head]
  · intro p hp hne
    rw [(step_refines hc _).2]
    exact mem_apply_pop.mpr ⟨hp, fun hk => hne (oldest_key hk)⟩

end Step

/-! ## §2. A round. -/

/-- **The run lemma.**  If each call of `op` is a turn that takes the entries of
the key from the `n`th list to the next, then so it goes for a run of such calls
with others aside. -/
theorem run_turns {k : K} {op : Op K V} (nth : ℕ → List (K × V))
    (hturn : ∀ (c : LRUCache K V) view n, WellFormed c → underKey k c.entries = nth n →
      Turn k (nth (n + 1)) c (step c ⟨view, op⟩))
    {c : LRUCache K V} (hc : WellFormed c) (h0 : underKey k c.entries = nth 0)
    (later : List (Call K V)) (hlater : ∀ call ∈ later, call.op = op ∨ call.op.Aside k) :
    underKey k ((machine K V).run c later).state.entries = nth (turns op later).length ∧
    answersTo op ((machine K V).run c later).history = (List.range (turns op later).length).map
      (fun i => .value ((nth i).head?.map Prod.snd)) ∧
    ∀ p ∈ c.entries, p.1 ≠ k → p ∈ ((machine K V).run c later).state.entries := by
  refine And.right ((machine K V).run_calls_induction (s := c)
    (I := fun calls r => (∀ call ∈ calls, call.op = op ∨ call.op.Aside k) →
      WellFormed r.state ∧ underKey k r.state.entries = nth (turns op calls).length ∧
      answersTo op r.history = (List.range (turns op calls).length).map
        (fun i => .value ((nth i).head?.map Prod.snd)) ∧
      ∀ p ∈ c.entries, p.1 ≠ k → p ∈ r.state.entries)
    (fun _ => ⟨hc, h0, rfl, fun _ hp _ => hp⟩) ?_ later hlater)
  intro calls call r ih hcalls
  obtain ⟨hwf, hunder, hans, hothers⟩ := ih (fun d hd => hcalls d (List.mem_append_left _ hd))
  have hcall := hcalls call (List.mem_append_right _ List.mem_cons_self)
  refine ⟨step_wellFormed hwf call, ?_⟩
  show underKey k (step r.state call).2.entries = _ ∧
    answersTo op ((machine K V).event r.state call :: r.history) = _ ∧
    ∀ p ∈ c.entries, p.1 ≠ k → p ∈ (step r.state call).2.entries
  by_cases hop : call.op = op
  · -- one more turn: the next list, and one more answer
    have hn : (turns op (calls ++ [call])).length = (turns op calls).length + 1 := by
      simp [turns, hop]
    obtain ⟨view, op'⟩ := call
    obtain rfl : op' = op := hop
    have hnext := hturn r.state view _ hwf hunder
    rw [hn]
    refine ⟨hnext.held, ?_, fun p hp hne => hnext.others p (hothers p hp hne) hne⟩
    have hanswer := hnext.answer
    rw [hunder] at hanswer
    unfold answersTo at hans ⊢
    rw [List.filter_cons_of_pos (by simp [Machine.event]), List.map_cons, List.reverse_cons, hans,
      List.range_succ, List.map_append]
    exact congrArg (fun a => _ ++ [a]) hanswer
  · have hn : (turns op (calls ++ [call])).length = (turns op calls).length := by
      simp [turns, hop]
    obtain ⟨hheld, hmem⟩ := step_aside hwf (hcall.resolve_left hop)
    rw [hn, hheld]
    refine ⟨hunder, ?_, fun p hp hne => (hmem p).mpr (hothers p hp hne)⟩
    unfold answersTo at hans ⊢
    rw [List.filter_cons_of_neg (by simp [Machine.event, hop]), hans]

/-- One round of gets returns every value of the key once, oldest first, and
leaves them in the order they had. -/
def Rotates (c : LRUCache K V) (k : K) (vs : List V) : Prop :=
  ∀ later : List (Call K V), (∀ call ∈ later, call.op = .get k ∨ call.op.Aside k) →
    (turns (.get k) later).length = vs.length →
    answersTo (.get k) ((machine K V).run c later).history
        = vs.map (fun v => .value (some v)) ∧
    (underKey k ((machine K V).run c later).state.entries).map Prod.snd = vs

/-- One round of pops returns the same values and leaves none; nothing else is
gone. -/
def Drains (c : LRUCache K V) (k : K) (vs : List V) : Prop :=
  ∀ later : List (Call K V), (∀ call ∈ later, call.op = .pop k ∨ call.op.Aside k) →
    (turns (.pop k) later).length = vs.length →
    answersTo (.pop k) ((machine K V).run c later).history
        = vs.map (fun v => .value (some v)) ∧
    (∀ view, (((machine K V).run c later).state.pop view k).1 = none) ∧
    ∀ p ∈ c.entries, p.1 ≠ k → p ∈ ((machine K V).run c later).state.entries

omit [DecidableEq K] [DecidableEq V] [LT K] [DecidableLT K] [LT V] [DecidableLT V] in
/-- The answers of one round, if the `i`th list starts with the `i`th entry. -/
theorem round_answers {nth : ℕ → List (K × V)} {l : List (K × V)}
    (hhead : ∀ i < l.length, (nth i).head? = l[i]?) :
    ((List.range l.length).map (fun i => .value ((nth i).head?.map Prod.snd)) :
        List (Answer K V))
      = (l.map Prod.snd).map (fun v => .value (some v)) := by
  refine List.ext_getElem (by simp) ?_
  intro i hi _
  have hi : i < l.length := by simpa using hi
  simp [hhead i hi, hi]

/-- **From every reachable state, gets of a key rotate its values and pops drain
them, least recently used first.** -/
theorem session_rotation (capacity : UInt32) (calls : List (Call K V)) (k : K) (vs : List V)
    (hvs : (underKey k (session capacity calls).state.entries).map Prod.snd = vs) :
    Rotates (session capacity calls).state k vs ∧ Drains (session capacity calls).state k vs := by
  have hc := (session_reachable capacity calls).wellFormed
  generalize (session capacity calls).state = c at hc hvs
  have hlen : vs.length = (underKey k c.entries).length := by
    rw [← hvs, List.length_map]
  constructor
  · intro later hlater hn
    obtain ⟨hheld, hans, -⟩ := run_turns (fun n => (underKey k c.entries).rotate n)
      (fun c' view n hc' h => by
        have hturn := step_get hc' (k := k) view
        rw [h, List.rotate_rotate] at hturn
        exact hturn) hc (List.rotate_zero _).symm later hlater
    rw [hn, hlen] at hheld hans
    constructor
    · rw [hans, round_answers (fun i hi => List.head?_rotate hi), hvs]
    · rw [hheld, List.rotate_length, hvs]
  · intro later hlater hn
    obtain ⟨hheld, hans, hothers⟩ := run_turns (fun n => (underKey k c.entries).drop n)
      (fun c' view n hc' h => by
        have hturn := step_pop hc' (k := k) view
        rw [h, List.tail_drop] at hturn
        exact hturn) hc List.drop_zero.symm later hlater
    rw [hn, hlen] at hheld hans
    refine ⟨?_, ?_, hothers⟩
    · rw [hans, round_answers (fun i _ => List.head?_drop), hvs]
    · -- the last list is empty
      intro view
      rw [pop_answer, oldest_eq_head, hheld, List.drop_length]
      rfl

/-- Two values under key 1, one under key 2. -/
theorem rotation_of_two_values :
    Rotates (session 0 [⟨KeyView.listOrder, .put 1 10⟩, ⟨KeyView.newestFirst, .put 2 20⟩,
        ⟨KeyView.newestFirst, .put 1 11⟩]).state 1 [10, 11] ∧
    Drains (session 0 [⟨KeyView.listOrder, .put 1 10⟩, ⟨KeyView.newestFirst, .put 2 20⟩,
        ⟨KeyView.newestFirst, .put 1 11⟩]).state 1 [10, 11] :=
  session_rotation 0 [⟨KeyView.listOrder, .put 1 10⟩, ⟨KeyView.newestFirst, .put 2 20⟩,
    ⟨KeyView.newestFirst, .put 1 11⟩] 1 [10, 11] (by decide)

end EzBakeCommon.Lru
