/-
  EzBakeCommon.Library.Recency — recency, read off a history.

  A history lists events, NEWEST FIRST; `touch e` is the item an event uses,
  if any.  The stamp of an item is the index (counted from 1, 0 for "never")
  of the last event that touched it.  Nothing here knows what an event is.

  Main results:
    * `mem_touchedSince_iff` — the items touched since `p` was last touched are
      exactly those with a larger stamp.
    * `InOrder.untouched` / `InOrder.append_touched` — the two ways in which an
      event keeps a list sorted by stamp.
-/
import Mathlib.Data.Finset.Card
import Mathlib.Tactic.TypeStar

namespace Library.Recency

variable {ε α : Type*} [DecidableEq α] (touch : ε → Option α)

/-! ## §1. Stamps. -/

/-- The events since `p` was last touched (all events if it never was). -/
def sinceTouch (h : List ε) (p : α) : List ε :=
  h.takeWhile (fun e => decide (touch e ≠ some p))

/-- The index of the last event that touched `p`; 0 if none did. -/
def stamp (h : List ε) (p : α) : Nat :=
  (h.dropWhile (fun e => decide (touch e ≠ some p))).length

/-- Some event touched `p`. -/
def Touched (h : List ε) (p : α) : Prop := ∃ e ∈ h, touch e = some p

/-- The distinct items touched since `p` was last touched. -/
def touchedSince (h : List ε) (p : α) : Finset α :=
  ((sinceTouch touch h p).filterMap touch).toFinset

variable {touch} {h : List ε} {e : ε} {p q : α}

@[simp] theorem stamp_nil : stamp touch [] p = 0 := rfl

theorem stamp_cons_self (he : touch e = some p) :
    stamp touch (e :: h) p = h.length + 1 := by
  unfold stamp
  rw [List.dropWhile_cons_of_neg (by simp [he])]
  rfl

theorem stamp_cons_other (he : touch e ≠ some p) :
    stamp touch (e :: h) p = stamp touch h p := by
  unfold stamp
  rw [List.dropWhile_cons_of_pos (by simp [he])]

theorem stamp_le_length : stamp touch h p ≤ h.length :=
  (List.dropWhile_suffix _).length_le

theorem stamp_cons_le (he : touch e ≠ some p) :
    stamp touch (e :: h) p < h.length + 1 := by
  rw [stamp_cons_other he]
  exact Nat.lt_succ_of_le stamp_le_length

omit [DecidableEq α] in
theorem touched_cons_self (he : touch e = some p) : Touched touch (e :: h) p :=
  ⟨e, List.mem_cons_self, he⟩

omit [DecidableEq α] in
theorem touched_cons_other (he : touch e ≠ some p) :
    Touched touch (e :: h) p ↔ Touched touch h p := by
  constructor
  · intro h
    obtain ⟨e', hmem, he'⟩ := h
    rcases List.mem_cons.mp hmem with rfl | hmem
    · exact absurd he' he
    · exact ⟨e', hmem, he'⟩
  · intro h
    obtain ⟨e', hmem, he'⟩ := h
    exact ⟨e', List.mem_cons_of_mem _ hmem, he'⟩

/-- A stamp is positive exactly when the item was touched. -/
theorem stamp_pos_iff : 0 < stamp touch h p ↔ Touched touch h p := by
  induction h with
  | nil => simp [Touched]
  | cons e h ih =>
      by_cases he : touch e = some p
      · rw [stamp_cons_self he]
        exact ⟨fun _ => touched_cons_self he, fun _ => Nat.succ_pos _⟩
      · rw [stamp_cons_other he, touched_cons_other he]
        exact ih

/-- Two touched items never share a stamp. -/
theorem stamp_injective (hp : 0 < stamp touch h p)
    (heq : stamp touch h p = stamp touch h q) : p = q := by
  induction h with
  | nil => simp at hp
  | cons e h ih =>
      by_cases hep : touch e = some p <;> by_cases heq' : touch e = some q
      · exact Option.some.inj (hep.symm.trans heq')
      -- one of the two is touched by the newest event: its stamp is the largest
      · have := stamp_cons_le (h := h) heq'
        rw [← heq, stamp_cons_self hep] at this
        omega
      · have := stamp_cons_le (h := h) hep
        rw [heq, stamp_cons_self heq'] at this
        omega
      · rw [stamp_cons_other hep] at hp heq
        rw [stamp_cons_other heq'] at heq
        exact ih hp heq

/-! ## §2. What was touched since. -/

theorem sinceTouch_cons_self (he : touch e = some p) :
    sinceTouch touch (e :: h) p = [] := by
  unfold sinceTouch
  rw [List.takeWhile_cons_of_neg (by simp [he])]

theorem sinceTouch_cons_other (he : touch e ≠ some p) :
    sinceTouch touch (e :: h) p = e :: sinceTouch touch h p := by
  unfold sinceTouch
  rw [List.takeWhile_cons_of_pos (by simp [he])]

/-- **The window of `p` is the set of larger stamps.** -/
theorem mem_touchedSince_iff :
    q ∈ touchedSince touch h p ↔ stamp touch h p < stamp touch h q := by
  unfold touchedSince
  rw [List.mem_toFinset]
  induction h with
  | nil => simp [sinceTouch]
  | cons e h ih =>
      by_cases hep : touch e = some p
      · -- `p` is touched just now: nothing is newer
        rw [sinceTouch_cons_self hep, stamp_cons_self hep]
        have hle : stamp touch (e :: h) q ≤ h.length + 1 := stamp_le_length
        simp
        omega
      · rw [sinceTouch_cons_other hep, stamp_cons_other hep]
        by_cases heq : touch e = some q
        · -- `q` enters the window with this event
          rw [List.filterMap_cons_some heq, stamp_cons_self heq]
          have hle : stamp touch h p ≤ h.length := stamp_le_length
          simp
          omega
        · rw [stamp_cons_other heq, ← ih]
          cases hte : touch e with
          | none => rw [List.filterMap_cons_none hte]
          | some r =>
              rw [List.filterMap_cons_some hte, List.mem_cons]
              have hqr : q ≠ r := fun hqr => heq (hqr ▸ hte)
              simp [hqr]

/-! ## §3. Lists sorted by stamp. -/

/-- Every item of the list was touched, and later items have larger stamps. -/
structure InOrder (touch : ε → Option α) (h : List ε) (l : List α) : Prop where
  touched : ∀ p ∈ l, 0 < stamp touch h p
  sorted : l.Pairwise (fun p q => stamp touch h p < stamp touch h q)

variable {l l' : List α}

theorem InOrder.nil : InOrder touch h ([] : List α) := ⟨by simp, List.Pairwise.nil⟩

theorem InOrder.sublist (ho : InOrder touch h l) (hs : l'.Sublist l) :
    InOrder touch h l' :=
  ⟨fun p hp => ho.touched p (hs.subset hp), ho.sorted.sublist hs⟩

/-- An event that touches no item of the list leaves it in order. -/
theorem InOrder.untouched (ho : InOrder touch h l) (he : ∀ p ∈ l, touch e ≠ some p) :
    InOrder touch (e :: h) l := by
  constructor
  · intro p hp
    rw [stamp_cons_other (he p hp)]
    exact ho.touched p hp
  · refine ho.sorted.imp_of_mem ?_
    intro p q hp hq hlt
    rw [stamp_cons_other (he p hp), stamp_cons_other (he q hq)]
    exact hlt

/-- An event that touches `p` puts it after everything else. -/
theorem InOrder.append_touched (ho : InOrder touch h l) (hp : p ∉ l)
    (he : touch e = some p) : InOrder touch (e :: h) (l ++ [p]) := by
  have hother : ∀ q ∈ l, touch e ≠ some q := by
    intro q hq heq
    have hpq : p = q := Option.some.inj (he.symm.trans heq)
    exact hp (hpq ▸ hq)
  have hold := ho.untouched (e := e) hother
  constructor
  · intro q hq
    rcases List.mem_append.mp hq with hq | hq
    · exact hold.touched q hq
    · rw [List.mem_singleton.mp hq, stamp_cons_self he]
      omega
  · rw [List.pairwise_append]
    refine ⟨hold.sorted, List.pairwise_singleton _ _, ?_⟩
    intro q hq r hr
    rw [List.mem_singleton.mp hr, stamp_cons_self he]
    exact stamp_cons_le (hother q hq)

/-- In a list in order, the head has the smallest stamp. -/
theorem InOrder.head_le (ho : InOrder touch h (p :: l)) (hq : q ∈ l) :
    stamp touch h p < stamp touch h q :=
  List.rel_of_pairwise_cons ho.sorted hq

/-- In a list in order, the first item that passes a test has the smallest stamp
of those that do. -/
theorem InOrder.find?_least (ho : InOrder touch h l) {f : α → Bool}
    (hp : l.find? f = some p) : ∀ q ∈ l, f q = true → q ≠ p →
      stamp touch h p < stamp touch h q := by
  obtain ⟨-, l₁, l₂, rfl, hpre⟩ := List.find?_eq_some_iff_append.mp hp
  intro q hq hfq hqp
  rcases List.mem_append.mp hq with hq | hq
  · exact absurd hfq (by simpa using hpre q hq)
  · have hq : q ∈ l₂ := (List.mem_cons.mp hq).resolve_left hqp
    exact List.rel_of_pairwise_cons (List.pairwise_append.mp ho.sorted).2.1 hq

end Library.Recency
