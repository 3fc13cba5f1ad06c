/-
  EzBakeCommon.Library.Window — a bounded recency list in closed form.

  `newest l` lists the distinct items of `l`, each where it occurs first.  Read
  off a history, newest first, it is the order of last use; a bounded recency
  list in which items are only ever used holds its first `cap` items
  (`window_place`), and nothing needs to be known of how the list got there.
-/
import EzBakeCommon.Library.RecencyList

namespace Library

variable {α : Type*} [DecidableEq α]

/-! ## §1. The distinct items, each where it occurs first. -/

def newest : List α → List α
  | [] => []
  | p :: l => p :: (newest l).filter (fun q => q ≠ p)

theorem mem_newest_iff {q : α} : ∀ {l : List α}, q ∈ newest l ↔ q ∈ l
  | [] => Iff.rfl
  | p :: l => by
      have ih : q ∈ newest l ↔ q ∈ l := mem_newest_iff
      simp only [newest, List.mem_cons, List.mem_filter, ih, decide_eq_true_eq]
      tauto

theorem newest_nodup : ∀ l : List α, (newest l).Nodup
  | [] => List.nodup_nil
  | p :: l => List.nodup_cons.mpr
      ⟨fun h => by simpa using List.of_mem_filter h, (newest_nodup l).filter _⟩

/-! ## §2. The first `cap` of them. -/

/-- The first `cap` items; all of them if `cap` is 0. -/
def window (cap : Nat) (l : List α) : List α := if cap = 0 then l else l.take cap

omit [DecidableEq α] in
theorem window_of_pos {cap : Nat} (hc : cap ≠ 0) (l : List α) : window cap l = l.take cap :=
  if_neg hc

/-- Taking an item out of the first `c` leaves at least the first `c - 1` of
those that are left. -/
theorem take_filter_take {l : List α} (hl : l.Nodup) (p : α) (c : Nat) :
    ((l.take c).filter (fun q => q ≠ p)).take (c - 1)
      = (l.filter (fun q => q ≠ p)).take (c - 1) := by
  have hsplit : l.filter (fun q => q ≠ p)
      = (l.take c).filter (fun q => q ≠ p) ++ (l.drop c).filter (fun q => q ≠ p) := by
    rw [← List.filter_append, List.take_append_drop]
  rw [hsplit]
  rcases Nat.le_total l.length c with hle | hle
  · -- nothing is beyond the first `c`
    rw [List.drop_eq_nil_of_le hle]
    show _ = (_ ++ []).take (c - 1)
    rw [List.append_nil]
  · -- at most one of the first `c` is `p`
    have hlength : c - 1 ≤ ((l.take c).filter (fun q => q ≠ p)).length := by
      have herase := (hl.sublist (List.take_sublist c l)).erase_eq_filter p
      have hlen : ((l.take c).erase p).length + 1 ≥ (l.take c).length := by
        rw [List.length_erase]
        split <;> omega
      have htake : (l.take c).length = c := List.length_take_of_le hle
      rw [herase] at hlen
      have hcongr : (l.take c).filter (fun q => q ≠ p)
          = (l.take c).filter (fun q => q != p) := by
        refine List.filter_congr (fun q _ => ?_)
        by_cases h : q = p <;> simp [h]
      rw [hcongr]
      omega
    rw [List.take_append_of_le_length hlength]

namespace RecencyList

omit [DecidableEq α] in
/-- Making room, from the newest to the oldest. -/
theorem makeRoom_reverse {cap : Nat} (hc : cap ≠ 0) {l : List α} (hl : l.length ≤ cap) :
    (makeRoom cap l).reverse = l.reverse.take (cap - 1) := by
  rcases Nat.lt_or_ge l.length cap with hlt | hge
  · rw [makeRoom_of_lt (fun _ => hlt), List.take_of_length_le]
    rw [List.length_reverse]
    omega
  · rw [makeRoom_of_le hc hge, ← List.dropLast_reverse, List.dropLast_eq_take, List.length_reverse]
    congr 1
    omega

/-- **Using an item keeps a recency list the window of the order of last use.** -/
theorem window_place {cap : Nat} (r : RecencyList α cap) {l : List α}
    (h : r.items.reverse = window cap (newest l)) (p : α) :
    (r.place p).items.reverse = window cap (newest (p :: l)) := by
  show (makeRoom cap (r.discard p).items ++ [p]).reverse = _
  rw [List.reverse_append, List.reverse_singleton]
  show p :: (makeRoom cap (r.discard p).items).reverse = _
  -- what is left of the list without `p`, newest first
  have hleft : (r.discard p).items.reverse
      = (window cap (newest l)).filter (fun q => q ≠ p) := by
    rw [r.discard_eq_filter, ← List.filter_reverse, h]
  rcases Nat.eq_zero_or_pos cap with rfl | hpos
  · rw [makeRoom_of_lt (fun h0 => absurd rfl h0), hleft]
    rfl
  · have hc : cap ≠ 0 := Nat.ne_of_gt hpos
    have hle : (r.discard p).items.length ≤ cap := (r.discard p).bounded hc
    rw [makeRoom_reverse hc hle, hleft, window_of_pos hc, window_of_pos hc,
      take_filter_take (newest_nodup l) p]
    obtain ⟨n, rfl⟩ := Nat.exists_eq_succ_of_ne_zero hc
    rfl

end RecencyList

end Library
