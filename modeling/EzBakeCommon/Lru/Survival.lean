/-
  EzBakeCommon.Lru.Survival — how long a pair stays in the cache.

  The window of a pair is the set of distinct pairs used since it was last used
  itself.  A pair leaves a bounded cache by eviction only when its window has
  filled up with as many pairs as the cache holds; and if nothing is ever taken
  out, a pair whose window is full has left.

  Main results:
    * `window_of_absent` — a pair that was used, was not taken out since, and is
      gone has a full window.
    * `newer_live` — with nothing taken out, whatever was used after a live pair
      is live.
    * `session_survival` — the two together, as the survival guarantee.
-/
import EzBakeCommon.Lru.Law

namespace EzBakeCommon.Lru

open Library Library.Recency

variable {K V : Type*} [DecidableEq K] [DecidableEq V]

/-- The call took `p` out: it is one of pop, remove and clear, and `p` left. -/
def TakenOut (e : Event (LRUCache K V) (Call K V) (Answer K V)) (p : K × V) : Prop :=
  e.call.op.takesOut = true ∧ p ∈ e.before.entries ∧ p ∉ e.after.entries

section Step

variable {ε : Type*} {touch : ε → Option (K × V)} {h : List ε} {e : ε} {cap : Nat}
  (r : RecencyList (K × V) cap) {op : Op K V} {p q : K × V}

/-- The window only grows until the pair is used again. -/
theorem touchedSince_mono (hp : touch e ≠ some p) :
    touchedSince touch h p ⊆ touchedSince touch (e :: h) p := by
  intro a ha
  rw [mem_touchedSince_iff] at ha ⊢
  rw [stamp_cons_other hp]
  by_cases hae : touch e = some a
  · rw [stamp_cons_self hae]
    exact Nat.lt_succ_of_le stamp_le_length
  · rw [stamp_cons_other hae]
    exact ha

/-- One operation, for a pair it does not use and that is gone afterwards: the
window was full already, or the operation evicted the pair and filled it. -/
theorem window_step (ho : InOrder touch h r.items) (he : touch e = op.uses r.items)
    (hp : touch e ≠ some p) (hgone : p ∉ (op.apply r).items)
    (hkept : op.takesOut = true → p ∉ r.items)
    (ih : p ∉ r.items → cap ≤ (touchedSince touch h p).card) :
    cap ≤ (touchedSince touch (e :: h) p).card := by
  by_cases hlive : p ∈ r.items
  · have hop : op.takesOut = false := by
      cases hop : op.takesOut with
      | false => rfl
      | true => exact absurd hlive (hkept hop)
    -- evicted just now, by a new pair in a full list
    obtain ⟨q, l, hq, hnew, -, hfull, hl⟩ := leaves r hop hlive hgone
    exact r.window_of_evicted hl hfull ho hnew (he.trans hq)
  · exact (ih hlive).trans (Finset.card_le_card (touchedSince_mono hp))

/-- One operation that takes nothing out keeps everything newer than a live pair. -/
theorem newer_step (ho : InOrder touch h r.items) (he : touch e = op.uses r.items)
    (hop : op.takesOut = false)
    (ih : ∀ p q, p ∈ r.items → stamp touch h p < stamp touch h q → q ∈ r.items)
    (hp : p ∈ (op.apply r).items)
    (hlt : stamp touch (e :: h) p < stamp touch (e :: h) q) : q ∈ (op.apply r).items := by
  by_cases hq : touch e = some q
  · exact uses_live r (he.symm.trans hq)
  · -- nothing is newer than a pair that is used just now
    have hpe : touch e ≠ some p := by
      intro hpe
      rw [stamp_cons_self hpe] at hlt
      have := stamp_cons_le (h := h) hq
      omega
    rw [stamp_cons_other hpe, stamp_cons_other hq] at hlt
    have hpr : p ∈ r.items := (enters r hp).resolve_left (fun h => hpe (he.trans h))
    have hqr : q ∈ r.items := ih p q hpr hlt
    by_contra hgone
    -- `q` was evicted, so it was the head, and older than `p`
    obtain ⟨-, l, -, -, -, -, hl⟩ := leaves r hop hqr hgone
    have hpq : p ≠ q := by
      intro heq
      rw [heq] at hlt
      exact Nat.lt_irrefl _ hlt
    have := r.head_is_oldest hl ho hpr hpq
    omega

end Step

/-! ## §1. Along runs. -/

variable [LT K] [DecidableLT K] [LT V] [DecidableLT V]
  (capacity : UInt32) (calls : List (Call K V))

/-- **A pair that is gone, and was not taken out, has a full window.** -/
theorem window_of_absent : ∀ p : K × V,
    Touched used (session capacity calls).history p →
    (∀ e ∈ sinceTouch used (session capacity calls).history p, ¬ TakenOut e p) →
    p ∉ (session capacity calls).state.entries →
    capacity.toNat ≤ (touchedSince used (session capacity calls).history p).card := by
  unfold session
  refine (((machine K V).run_induction
    (I := fun r => Ordered capacity r ∧ ∀ p, Touched used r.history p →
      (∀ e ∈ sinceTouch used r.history p, ¬ TakenOut e p) →
      p ∉ r.state.entries → capacity.toNat ≤ (touchedSince used r.history p).card)
    ⟨Ordered.start capacity, ?_⟩ ?_ calls).2)
  · intro p htouched
    obtain ⟨e, he, -⟩ := htouched
    exact absurd he List.not_mem_nil
  · intro r call hI
    obtain ⟨hord, ih⟩ := hI
    have hr := hord.reach
    have hused := used_event r.state call
    obtain ⟨-, hent⟩ := step_refines hr.wellFormed call
    refine ⟨hord.extend call, ?_⟩
    intro p htouched hkept hgone
    have hgone : p ∉ (step r.state call).2.entries := hgone
    -- a pair that this call had used would be live
    have hp : used ((machine K V).event r.state call) ≠ some p := by
      intro hp
      rw [hent] at hgone
      exact hgone (uses_live (r.state.asList hr.wellFormed) (hused.symm.trans hp))
    have htouched := (touched_cons_other hp).mp htouched
    have hsince : sinceTouch used ((machine K V).extend r call).history p
        = (machine K V).event r.state call :: sinceTouch used r.history p :=
      sinceTouch_cons_other hp
    rw [hsince] at hkept
    have hcap : capacity.toNat = r.state.capacity.toNat := by rw [hr.capacity]
    rw [hcap] at ih ⊢
    refine window_step (r.state.asList hr.wellFormed) hord.inOrder hused hp (hent ▸ hgone) ?_
      (ih p htouched (fun e he => hkept e (List.mem_cons_of_mem _ he)))
    intro hop hlive
    exact hkept _ List.mem_cons_self ⟨hop, hlive, hgone⟩

/-- With nothing ever taken out, whatever was used after a live pair is live. -/
theorem newer_live
    (hkeep : ∀ e ∈ (session capacity calls).history, e.call.op.takesOut = false) :
    ∀ p q : K × V, p ∈ (session capacity calls).state.entries →
      stamp used (session capacity calls).history p
        < stamp used (session capacity calls).history q →
      q ∈ (session capacity calls).state.entries := by
  revert hkeep
  unfold session
  refine (((machine K V).run_induction
    (I := fun r => Ordered capacity r ∧ ((∀ e ∈ r.history, e.call.op.takesOut = false) →
      ∀ p q, p ∈ r.state.entries → stamp used r.history p < stamp used r.history q →
        q ∈ r.state.entries))
    ⟨Ordered.start capacity, ?_⟩ ?_ calls).2)
  · intro _ p q hp
    exact absurd hp List.not_mem_nil
  · intro r call hI
    obtain ⟨hord, ih⟩ := hI
    have hr := hord.reach
    obtain ⟨-, hent⟩ := step_refines hr.wellFormed call
    refine ⟨hord.extend call, ?_⟩
    intro hkeep p q
    show p ∈ (step r.state call).2.entries → _ → q ∈ (step r.state call).2.entries
    rw [hent]
    exact newer_step (r.state.asList hr.wellFormed) hord.inOrder (used_event r.state call)
      (hkeep _ List.mem_cons_self)
      (ih (fun e he => hkeep e (List.mem_cons_of_mem _ he)))

/-- **The survival guarantee.**  A pair that was used, and not taken out since,
is still there if fewer than `capacity` distinct other pairs were used since;
in a session that takes nothing out this is exactly when it is still there. -/
theorem session_survival (hcap : 1 ≤ capacity) (p : K × V)
    (hused : Touched used (session capacity calls).history p) :
    ((∀ e ∈ sinceTouch used (session capacity calls).history p, ¬ TakenOut e p) →
      (touchedSince used (session capacity calls).history p).card < capacity.toNat →
      p ∈ (session capacity calls).state.entries) ∧
    ((∀ e ∈ (session capacity calls).history, e.call.op.takesOut = false) →
      (p ∈ (session capacity calls).state.entries ↔
        (touchedSince used (session capacity calls).history p).card < capacity.toNat)) := by
  have hstays : (∀ e ∈ sinceTouch used (session capacity calls).history p, ¬ TakenOut e p) →
      (touchedSince used (session capacity calls).history p).card < capacity.toNat →
      p ∈ (session capacity calls).state.entries := by
    intro hkept hcard
    by_contra hgone
    have := window_of_absent capacity calls p hused hkept hgone
    omega
  refine ⟨hstays, fun hkeep => ⟨fun hlive => ?_, hstays ?_⟩⟩
  · -- the whole window is live beside `p`
    have hr := session_reachable capacity calls
    have hsub : touchedSince used (session capacity calls).history p ⊆
        (session capacity calls).state.entries.toFinset.erase p := by
      intro q hq
      have hlt := mem_touchedSince_iff.mp hq
      rw [Finset.mem_erase, List.mem_toFinset]
      refine ⟨?_, newer_live capacity calls hkeep p q hlive hlt⟩
      intro heq
      rw [heq] at hlt
      exact Nat.lt_irrefl _ hlt
    have hlen : (session capacity calls).state.entries.length ≤ capacity.toNat :=
      (session_invariant capacity calls).2 (Nat.pos_of_ne_zero (toNat_ne_zero_of_one_le hcap))
    calc (touchedSince used (session capacity calls).history p).card
        ≤ ((session capacity calls).state.entries.toFinset.erase p).card :=
          Finset.card_le_card hsub
      _ < (session capacity calls).state.entries.toFinset.card :=
          Finset.card_erase_lt_of_mem (List.mem_toFinset.mpr hlive)
      _ = (session capacity calls).state.entries.length :=
          List.toFinset_card_of_nodup hr.wellFormed.nodup
      _ ≤ capacity.toNat := hlen
  · intro e he htaken
    have hmem : e ∈ (session capacity calls).history :=
      (List.takeWhile_sublist _).subset he
    exact absurd htaken.1 (by simp [hkeep e hmem])

/-- With room for two, the pair that was used again outlives the next put. -/
theorem survival_of_renewed : (1, 10) ∈ (session 2
    [⟨KeyView.listOrder, .put 1 10⟩, ⟨KeyView.newestFirst, .put 2 20⟩,
      ⟨KeyView.newestFirst, .get 1⟩, ⟨KeyView.listOrder, .put 3 30⟩]).state.entries :=
  ((session_survival 2
    [⟨KeyView.listOrder, .put 1 10⟩, ⟨KeyView.newestFirst, .put 2 20⟩,
      ⟨KeyView.newestFirst, .get 1⟩, ⟨KeyView.listOrder, .put 3 30⟩] (by decide) (1, 10)
    (stamp_pos_iff.mp (by decide))).2 (by decide)).mpr (by decide)

end EzBakeCommon.Lru
