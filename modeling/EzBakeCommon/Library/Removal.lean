/-
  EzBakeCommon.Library.Removal — taking the matching items out of a list.

  A removal hands out some items of a list and leaves the others.  `Removal q`
  says that it hands out exactly what it takes: nothing is lost or made up, what
  is handed out matches `q`, nothing that is left does, and all that does not match
  is left, in the order it had.

  Main results:
    * `removal_filter` — filtering out the matching items, and handing them out
      in any order, is a removal.
    * `Removal.unmatched` — a removal that finds nothing hands out nothing and
      leaves the list as it is.
-/
import Mathlib.Data.List.Basic
import Mathlib.Tactic.TypeStar

namespace Library

variable {α : Type*} {q : α → Prop} {before taken after : List α}

/-- `taken` is what a removal of the items with `q` hands out, `after` what it
leaves. -/
structure Removal (q : α → Prop) (before taken after : List α) : Prop where
  ledger : (taken ++ after).Perm before
  matching : ∀ x ∈ taken, q x
  gone : ∀ x ∈ after, ¬ q x
  kept : ∀ x ∈ before, ¬ q x → x ∈ after
  order : after.Sublist before

theorem removal_filter [DecidablePred q] (htaken : taken.Perm (before.filter (fun x => q x))) :
    Removal q before taken (before.filter (fun x => ¬ q x)) := by
  constructor
  case ledger =>
    have hsplit := List.filter_append_perm (fun x => decide (q x)) before
    rw [← show before.filter (fun x => ¬ q x) = before.filter (fun x => !decide (q x)) from
      List.filter_congr (fun x _ => decide_not)] at hsplit
    exact (htaken.append_right _).trans hsplit
  case matching =>
    intro x hx
    simpa using List.of_mem_filter (htaken.subset hx)
  case gone =>
    intro x hx
    simpa using List.of_mem_filter hx
  case kept => exact fun x hx hq => List.mem_filter.mpr ⟨hx, decide_eq_true hq⟩
  case order => exact List.filter_sublist

namespace Removal

variable (h : Removal q before taken after)
include h

theorem unmatched (hnone : ∀ x ∈ before, ¬ q x) : taken = [] ∧ after = before := by
  have hnil : taken = [] := by
    refine List.eq_nil_iff_forall_not_mem.mpr ?_
    intro x hx
    exact hnone x (h.ledger.subset (List.mem_append_left _ hx)) (h.matching x hx)
  refine ⟨hnil, h.order.eq_of_length ?_⟩
  have hlength := h.ledger.length_eq
  rwa [hnil, List.nil_append] at hlength

end Removal

end Library
