/-
  EzBakeCommon.Lru.Removal — the removals return exactly what they take out.

  `remove(key)` lists the key's range in the order of the key view and then
  erases the whole range; `remove(key, value)` erases the first entry that it
  finds.  One is enough: no pair is held twice.
-/
import EzBakeCommon.Lru.Refinement
import EzBakeCommon.Library.Removal
import Mathlib.Data.List.Nodup

namespace EzBakeCommon.Lru

open Library

variable {K V : Type*} [DecidableEq K]

/-! ## §1. The entries of a key. -/

/-- The key and the values of its entries make up the entries. -/
theorem map_values_underKey (k : K) (l : List (K × V)) :
    ((underKey k l).map Prod.snd).map (k, ·) = underKey k l := by
  rw [List.map_map]
  refine (List.map_congr_left ?_).trans (List.map_id _)
  intro p hp
  have hk : p.1 = k := by simpa [underKey] using List.of_mem_filter hp
  show (k, p.2) = p
  rw [← hk]

/-- A pair that a list without duplicates holds is held once. -/
theorem filter_pair [DecidableEq V] {l : List (K × V)} (hl : l.Nodup) (p : K × V) :
    l.filter (fun q => q = p) = if p ∈ l then [p] else [] := by
  rw [List.filter_eq]
  split
  next hp => rw [List.count_eq_one_of_mem hl hp, List.replicate_one]
  next hp => rw [List.count_eq_zero_of_not_mem hp, List.replicate_zero]

/-! ## §2. The removals. -/

/-- Both removals hand out exactly what they take, and change nothing if nothing
matches. -/
structure RemovesExactly [DecidableEq V] (c : LRUCache K V) : Prop where
  remove : ∀ (view : KeyView K V) k, Removal (fun p => p.1 = k) c.entries
    ((c.remove view k).1.map (k, ·)) (c.remove view k).2.entries
  remove_absent : ∀ (view : KeyView K V) k, (∀ p ∈ c.entries, p.1 ≠ k) →
    c.remove view k = ([], c)
  removeValue : ∀ (view : KeyView K V) k v, Removal (fun p => p = (k, v)) c.entries
    ((c.removeValue view k v).1.toList.map (k, ·)) (c.removeValue view k v).2.entries
  removeValue_absent : ∀ (view : KeyView K V) k v, (k, v) ∉ c.entries →
    c.removeValue view k v = (none, c)

section Removals

variable (c : LRUCache K V) (view : KeyView K V) (k : K)

theorem remove_removal : Removal (fun p => p.1 = k) c.entries
    ((c.remove view k).1.map (k, ·)) (c.remove view k).2.entries := by
  have hanswer := (remove_answer c view k).map (k, ·)
  rw [map_values_underKey] at hanswer
  exact removal_filter hanswer

theorem remove_of_absent (h : ∀ p ∈ c.entries, p.1 ≠ k) : c.remove view k = ([], c) := by
  obtain ⟨hnil, hentries⟩ := (remove_removal c view k).unmatched h
  have hvalues : (c.remove view k).1 = [] := List.map_eq_nil_iff.mp hnil
  have hstate : (c.remove view k).2 = c := by
    show { c with entries := (c.remove view k).2.entries } = c
    rw [hentries]
  exact Prod.ext hvalues hstate

variable [DecidableEq V] (v : V)

theorem removeValue_removal (hc : WellFormed c) : Removal (fun p => p = (k, v)) c.entries
    ((c.removeValue view k v).1.toList.map (k, ·)) (c.removeValue view k v).2.entries := by
  have hafter : (c.removeValue view k v).2.entries = c.entries.filter (fun p => ¬ p = (k, v)) :=
    (removeValue_entries hc view k v).trans (RecencyList.discard_eq_filter _)
  rw [hafter]
  refine removal_filter (List.Perm.of_eq ?_)
  rw [removeValue_answer, filter_pair hc.nodup]
  split <;> rfl

theorem removeValue_of_absent (h : (k, v) ∉ c.entries) : c.removeValue view k v = (none, c) := by
  unfold LRUCache.removeValue
  rw [(findEntry_eq_none c view k v).mpr h]

end Removals

/-- **Every well-formed cache removes exactly.** -/
theorem removesExactly [DecidableEq V] {c : LRUCache K V} (hc : WellFormed c) :
    RemovesExactly c where
  remove := remove_removal c
  remove_absent := remove_of_absent c
  removeValue := fun view k v => removeValue_removal c view k v hc
  removeValue_absent := fun view k v => removeValue_of_absent c view k v

end EzBakeCommon.Lru
