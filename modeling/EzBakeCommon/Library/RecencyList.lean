/-
  EzBakeCommon.Library.RecencyList — bounded lists in order of use.

  A `RecencyList α cap` lists distinct items, least recently used first, and
  never more than `cap` of them (`cap = 0` lifts the bound).  The two laws are
  FIELDS, so every operation below has to re-establish them and no later proof
  needs to.

  Main results:
    * `place_live` / `place_full` / `place_room` — the three things placing
      an item can do.
    * `place_inOrder` / `renew_inOrder` — both uses keep the list sorted by the
      stamps of `Library.Recency`.
    * `window_of_evicted` — an evicted item has at least `cap` distinct items in
      its window.
    * `Within` — the inclusion law: a smaller list fed the same uses stays a
      sublist of the larger one.
-/
import EzBakeCommon.Library.Recency
import Mathlib.Data.List.Nodup

namespace Library

/-- Distinct items, least recently used first, at most `cap` of them. -/
structure RecencyList (α : Type*) (cap : Nat) where
  items : List α
  nodup : items.Nodup
  bounded : cap ≠ 0 → items.length ≤ cap

namespace RecencyList

variable {α : Type*} [DecidableEq α] {cap : Nat}

/-! ## §1. The operations. -/

/-- Drop the head of a list that leaves no room for one more item. -/
def makeRoom (cap : Nat) (l : List α) : List α :=
  if cap ≠ 0 ∧ cap ≤ l.length then l.tail else l

omit [DecidableEq α] in
theorem makeRoom_sublist (l : List α) : (makeRoom cap l).Sublist l := by
  unfold makeRoom
  split
  · exact List.tail_sublist l
  · exact List.Sublist.refl l

omit [DecidableEq α] in
theorem makeRoom_of_lt {l : List α} (h : cap ≠ 0 → l.length < cap) :
    makeRoom cap l = l := by
  unfold makeRoom
  rw [if_neg]
  intro hfull
  have := h hfull.1
  omega

omit [DecidableEq α] in
theorem makeRoom_of_le {l : List α} (hc : cap ≠ 0) (h : cap ≤ l.length) :
    makeRoom cap l = l.tail :=
  if_pos ⟨hc, h⟩

omit [DecidableEq α] in
theorem makeRoom_length {l : List α} (hc : cap ≠ 0) (h : l.length ≤ cap) :
    (makeRoom cap l).length + 1 ≤ cap := by
  unfold makeRoom
  split
  · rw [List.length_tail]
    omega
  · omega

/-- Append a list without `p` with `p`. -/
theorem nodup_concat {l l' : List α} {p : α} (hl : l.Nodup) (hs : l'.Sublist (l.erase p)) :
    (l' ++ [p]).Nodup := by
  rw [List.nodup_append]
  refine ⟨(hl.erase p).sublist hs, List.nodup_singleton p, ?_⟩
  intro q hq r hr
  rw [List.mem_singleton.mp hr]
  intro hqp
  rw [hqp] at hq
  exact hl.not_mem_erase (hs.subset hq)

def empty : RecencyList α cap := ⟨[], List.nodup_nil, fun _ => Nat.zero_le _⟩

/-- Keep the items that pass `q`. -/
def keep (r : RecencyList α cap) (q : α → Bool) : RecencyList α cap where
  items := r.items.filter q
  nodup := r.nodup.filter q
  bounded := fun hc => Nat.le_trans (List.length_filter_le q r.items) (r.bounded hc)

/-- Take out one item. -/
def discard (r : RecencyList α cap) (p : α) : RecencyList α cap where
  items := r.items.erase p
  nodup := r.nodup.erase p
  bounded := fun hc => Nat.le_trans List.length_erase_le (r.bounded hc)

/-- Use an item, if it is there: it becomes the newest. -/
def renew (r : RecencyList α cap) (p : α) : RecencyList α cap where
  items := if p ∈ r.items then r.items.erase p ++ [p] else r.items
  nodup := by
    split
    · exact nodup_concat r.nodup (List.Sublist.refl _)
    · exact r.nodup
  bounded := by
    intro hc
    have := r.bounded hc
    split
    next hp =>
      have hlen := List.length_erase_of_mem hp
      have hpos := List.length_pos_of_mem hp
      rw [List.length_append, hlen, List.length_singleton]
      omega
    next => exact this

/-- Put an item, there or not: it becomes the newest, and the least recently
used one makes room for it if there is none. -/
def place (r : RecencyList α cap) (p : α) : RecencyList α cap where
  items := makeRoom cap (r.items.erase p) ++ [p]
  nodup := nodup_concat r.nodup (makeRoom_sublist _)
  bounded := by
    intro hc
    have hle := Nat.le_trans (List.length_erase_le (a := p)) (r.bounded hc)
    rw [List.length_append, List.length_singleton]
    exact makeRoom_length hc hle

/-! ## §2. What the operations do. -/

variable (r : RecencyList α cap) {p q : α}

/-- An item that is there evicts nothing, full or not. -/
theorem place_live (hp : p ∈ r.items) : (r.place p).items = r.items.erase p ++ [p] := by
  show makeRoom cap (r.items.erase p) ++ [p] = _
  rw [makeRoom_of_lt]
  intro hc
  -- taking out `p` has made the room already
  have hlen := List.length_erase_of_mem hp
  have hpos := List.length_pos_of_mem hp
  have := r.bounded hc
  omega

/-- A new item evicts the head of a full list. -/
theorem place_full (hp : p ∉ r.items) (hc : cap ≠ 0) (hfull : cap ≤ r.items.length) :
    (r.place p).items = r.items.tail ++ [p] := by
  show makeRoom cap (r.items.erase p) ++ [p] = _
  rw [List.erase_of_not_mem hp, makeRoom_of_le hc hfull]

/-- A new item finds room in a list that is not full. -/
theorem place_room (hp : p ∉ r.items) (hroom : cap ≠ 0 → r.items.length < cap) :
    (r.place p).items = r.items ++ [p] := by
  show makeRoom cap (r.items.erase p) ++ [p] = _
  rw [List.erase_of_not_mem hp, makeRoom_of_lt hroom]

theorem renew_live (hp : p ∈ r.items) : (r.renew p).items = r.items.erase p ++ [p] :=
  if_pos hp

theorem mem_renew_iff (hp : p ∈ r.items) : q ∈ (r.renew p).items ↔ q ∈ r.items := by
  rw [r.renew_live hp, List.mem_append, List.mem_singleton, r.nodup.mem_erase_iff]
  constructor
  · intro h
    rcases h with ⟨-, hq⟩ | hqp
    · exact hq
    · exact hqp ▸ hp
  · intro hq
    by_cases hqp : q = p
    · exact Or.inr hqp
    · exact Or.inl ⟨hqp, hq⟩

/-- Everything but the new item was there before. -/
theorem mem_of_mem_place (hq : q ∈ (r.place p).items) : q = p ∨ q ∈ r.items := by
  rcases List.mem_append.mp hq with hq | hq
  · exact Or.inr (List.mem_of_mem_erase ((makeRoom_sublist _).subset hq))
  · exact Or.inl (List.mem_singleton.mp hq)

theorem mem_place_self : p ∈ (r.place p).items :=
  List.mem_append_right _ List.mem_cons_self

theorem mem_place_live (hp : p ∈ r.items) : q ∈ (r.place p).items ↔ q ∈ r.items := by
  rw [r.place_live hp, ← r.renew_live hp, r.mem_renew_iff hp]

/-- In a full list exactly the head makes room for a new item. -/
theorem mem_place_full (hp : p ∉ r.items) (hc : cap ≠ 0) (hfull : cap ≤ r.items.length) :
    ∃ victim l, r.items = victim :: l ∧
      ∀ q, q ∈ (r.place p).items ↔ q = p ∨ (q ∈ r.items ∧ q ≠ victim) := by
  rw [r.place_full hp hc hfull]
  cases hl : r.items with
  | nil =>
      rw [hl] at hfull
      exact absurd (Nat.le_zero.mp hfull) hc
  | cons victim l =>
      have hnd := r.nodup
      rw [hl] at hnd
      have hvl := (List.nodup_cons.mp hnd).1
      refine ⟨victim, l, rfl, fun q => ?_⟩
      rw [List.tail_cons, List.mem_append, List.mem_singleton, List.mem_cons]
      constructor
      · intro h
        rcases h with hq | hq
        · exact Or.inr ⟨Or.inr hq, fun h => hvl (h ▸ hq)⟩
        · exact Or.inl hq
      · intro h
        rcases h with hq | ⟨hq | hq, hne⟩
        · exact Or.inr hq
        · exact absurd hq hne
        · exact Or.inl hq

theorem mem_place_room (hp : p ∉ r.items) (hroom : cap ≠ 0 → r.items.length < cap) :
    q ∈ (r.place p).items ↔ q = p ∨ q ∈ r.items := by
  rw [r.place_room hp hroom, List.mem_append, List.mem_singleton, or_comm]

theorem mem_discard_iff : q ∈ (r.discard p).items ↔ q ≠ p ∧ q ∈ r.items :=
  r.nodup.mem_erase_iff

/-- Erasing at a position is taking out the item there. -/
theorem eraseIdx_eq_discard (itr : Fin r.items.length) :
    r.items.eraseIdx itr = (r.discard (r.items.get itr)).items :=
  (r.nodup.erase_get itr).symm

theorem discard_sublist : (r.discard p).items.Sublist r.items := List.erase_sublist

theorem discard_absent (hp : p ∉ r.items) : (r.discard p).items = r.items :=
  List.erase_of_not_mem hp

/-- Taking out an item depends on the items only. -/
theorem discard_congr {cap' : Nat} {r : RecencyList α cap} {r' : RecencyList α cap'}
    (h : r.items = r'.items) : (r.discard p).items = (r'.discard p).items := by
  show r.items.erase p = r'.items.erase p
  rw [h]

theorem discard_eq_filter : (r.discard p).items = r.items.filter (fun q => q ≠ p) := by
  show r.items.erase p = _
  rw [r.nodup.erase_eq_filter]
  refine List.filter_congr (fun q _ => ?_)
  by_cases h : q = p <;> simp [h]

theorem discard_perm (hp : p ∈ r.items) : r.items.Perm (p :: (r.discard p).items) :=
  List.perm_cons_erase hp

/-- An item that is used only moves. -/
theorem renew_perm (hp : p ∈ r.items) : r.items.Perm (r.renew p).items := by
  rw [r.renew_live hp]
  exact (r.discard_perm hp).trans (List.perm_append_singleton p _).symm

theorem length_discard (hp : p ∈ r.items) :
    (r.discard p).items.length + 1 = r.items.length := by
  show (r.items.erase p).length + 1 = r.items.length
  have := List.length_pos_of_mem hp
  rw [List.length_erase_of_mem hp]
  omega

/-- An item that is used and then taken out is taken out. -/
theorem discard_renew : ((r.renew p).discard p).items = (r.discard p).items := by
  by_cases hp : p ∈ r.items
  · show (r.renew p).items.erase p = r.items.erase p
    rw [r.renew_live hp, List.erase_append_right _ r.nodup.not_mem_erase, List.erase_cons_head,
      List.append_nil]
  · exact discard_congr (if_neg hp)

theorem discard_head {l : List α} (h : r.items = p :: l) : (r.discard p).items = l := by
  show r.items.erase p = l
  rw [h, List.erase_cons_head]

/-- Using the oldest item turns the list by one. -/
theorem renew_head {l : List α} (h : r.items = p :: l) : (r.renew p).items = l ++ [p] := by
  have hp : p ∈ r.items := by simp [h]
  rw [r.renew_live hp]
  exact congrArg (· ++ [p]) (r.discard_head h)

/-- If putting `p` evicts nothing, there is room for it. -/
theorem room_of_no_eviction (h : ∀ q ∈ r.items, q ∈ (r.place p).items) :
    cap ≠ 0 → (r.items.erase p).length < cap := by
  intro hc
  have := r.bounded hc
  by_cases hp : p ∈ r.items
  · have := List.length_erase_of_mem hp
    have := List.length_pos_of_mem hp
    omega
  · -- a full list would lose its head, which is not the new item
    rw [List.erase_of_not_mem hp]
    by_contra hfull
    obtain ⟨victim, l, hl, hmem⟩ := r.mem_place_full hp hc (not_lt.mp hfull)
    have hv : victim ∈ r.items := hl ▸ List.mem_cons_self
    rcases (hmem victim).mp (h victim hv) with rfl | ⟨-, hne⟩
    · exact hp hv
    · exact hne rfl

/-! ### Operations seen through a filter. -/

section Filter

variable {r : RecencyList α cap} {cap' : Nat} {r' : RecencyList α cap'} {f : α → Bool}

theorem filter_discard (h : r'.items = r.items.filter f) :
    (r'.discard p).items = (r.discard p).items.filter f := by
  show r'.items.erase p = (r.items.erase p).filter f
  rw [h, List.erase_filter]

/-- Taking out an item the filter drops does not show. -/
theorem filter_discard_hidden (hp : f p = false) :
    (r.discard p).items.filter f = r.items.filter f := by
  show (r.items.erase p).filter f = r.items.filter f
  rw [← List.erase_filter]
  refine List.erase_of_not_mem ?_
  simp [hp]

theorem filter_renew (h : r'.items = r.items.filter f) (hp : f p = true)
    (hmem : p ∈ r.items) : (r'.renew p).items = (r.renew p).items.filter f := by
  have hmem' : p ∈ r'.items := by
    rw [h]
    exact List.mem_filter.mpr ⟨hmem, hp⟩
  rw [r.renew_live hmem, r'.renew_live hmem', List.filter_append,
    List.filter_singleton, hp, cond_true]
  exact congrArg (· ++ [p]) (filter_discard h)

theorem filter_renew_hidden (hp : f p = false) :
    (r.renew p).items.filter f = r.items.filter f := by
  by_cases hmem : p ∈ r.items
  · rw [r.renew_live hmem, List.filter_append, List.filter_singleton,
      hp, cond_false, List.append_nil]
    exact filter_discard_hidden hp
  · rw [show (r.renew p).items = r.items from if_neg hmem]

theorem filter_place (h : r'.items = r.items.filter f) (hc : cap' = cap) (hp : f p = true)
    (hroom : cap ≠ 0 → (r.items.erase p).length < cap) :
    (r'.place p).items = (r.place p).items.filter f := by
  have herase : r'.items.erase p = (r.items.erase p).filter f := filter_discard h
  have hroom' : cap' ≠ 0 → (r'.items.erase p).length < cap' := by
    intro hc'
    have := List.length_filter_le f (r.items.erase p)
    have := hroom (hc ▸ hc')
    rw [herase]
    omega
  show makeRoom cap' (r'.items.erase p) ++ [p]
    = (makeRoom cap (r.items.erase p) ++ [p]).filter f
  rw [makeRoom_of_lt hroom, makeRoom_of_lt hroom', List.filter_append, List.filter_singleton,
    hp, cond_true, herase]

theorem filter_place_hidden (hp : f p = false)
    (hroom : cap ≠ 0 → (r.items.erase p).length < cap) :
    (r.place p).items.filter f = r.items.filter f := by
  show (makeRoom cap (r.items.erase p) ++ [p]).filter f = _
  rw [makeRoom_of_lt hroom, List.filter_append, List.filter_singleton, hp, cond_false,
    List.append_nil]
  exact filter_discard_hidden hp

end Filter

/-! ## §3. Order of use. -/

section History

open Recency

variable {ε : Type*} {touch : ε → Option α} {h : List ε} {e : ε}

theorem place_inOrder (ho : InOrder touch h r.items) (he : touch e = some p) :
    InOrder touch (e :: h) (r.place p).items :=
  (ho.sublist ((makeRoom_sublist _).trans List.erase_sublist)).append_touched
    (fun hp => r.nodup.not_mem_erase ((makeRoom_sublist _).subset hp)) he

theorem renew_inOrder (ho : InOrder touch h r.items) (hp : p ∈ r.items)
    (he : touch e = some p) : InOrder touch (e :: h) (r.renew p).items := by
  rw [r.renew_live hp]
  exact (ho.sublist List.erase_sublist).append_touched r.nodup.not_mem_erase he

/-- The head of a list in order has the smallest stamp. -/
theorem head_is_oldest {l : List α} (hl : r.items = q :: l) (ho : InOrder touch h r.items)
    (hp : p ∈ r.items) (hpq : p ≠ q) : stamp touch h q < stamp touch h p := by
  rw [hl] at ho hp
  exact ho.head_le ((List.mem_cons.mp hp).resolve_left hpq)

/-- **An evicted item has a full window**: when a new item pushes the head `q`
out of a full list, at least `cap` distinct items have been touched since `q`. -/
theorem window_of_evicted {l : List α} (hl : r.items = q :: l) (hfull : cap ≤ r.items.length)
    (ho : InOrder touch h r.items) (hp : p ∉ r.items) (he : touch e = some p) :
    cap ≤ (touchedSince touch (e :: h) q).card := by
  -- the event touches `p`, and `q` is not `p`
  have hq : touch e ≠ some q := by
    intro heq
    have hpq : p = q := Option.some.inj (he.symm.trans heq)
    exact hp (by rw [hl, hpq]; exact List.mem_cons_self)
  -- the rest of the list, in the window already, and the new item itself
  have hnd : (l ++ [p]).Nodup := by
    have hnd := r.nodup
    rw [hl] at hnd hp
    rw [List.nodup_append]
    refine ⟨(List.nodup_cons.mp hnd).2, List.nodup_singleton p, ?_⟩
    intro a ha b hb hab
    rw [List.mem_singleton.mp hb] at hab
    exact hp (List.mem_cons_of_mem _ (hab ▸ ha))
  have hsub : (l ++ [p]).toFinset ⊆ touchedSince touch (e :: h) q := by
    intro a ha
    rw [List.mem_toFinset, List.mem_append, List.mem_singleton] at ha
    rw [mem_touchedSince_iff, stamp_cons_other hq]
    rcases ha with ha | rfl
    · have hae : touch e ≠ some a := by
        intro hae
        have hpa : p = a := Option.some.inj (he.symm.trans hae)
        exact hp (by rw [hl, hpa]; exact List.mem_cons_of_mem _ ha)
      rw [stamp_cons_other hae]
      rw [hl] at ho
      exact ho.head_le ha
    · rw [stamp_cons_self he]
      exact Nat.lt_succ_of_le stamp_le_length
  calc cap ≤ r.items.length := hfull
    _ = (l ++ [p]).length := by rw [hl]; simp
    _ = (l ++ [p]).toFinset.card := (List.toFinset_card_of_nodup hnd).symm
    _ ≤ _ := Finset.card_le_card hsub

end History

/-! ## §4. Inclusion of a smaller list in a larger one. -/

/-- A list bounded by `c₁` is contained in a list bounded by `c₂`, in the same
order, and the larger one holds at most `c₂ - c₁` items more. -/
structure Within (c₁ c₂ : Nat) (l₁ l₂ : List α) : Prop where
  sublist : l₁.Sublist l₂
  slack : c₂ ≠ 0 → l₂.length ≤ l₁.length + (c₂ - c₁)

/-- A list without `p` inside a list that holds `p` stays inside without it. -/
theorem sublist_erase_of_not_mem {l₁ l₂ : List α} (hs : l₁.Sublist l₂)
    (hp : p ∉ l₁) : l₁.Sublist (l₂.erase p) := by
  have := hs.erase p
  rwa [List.erase_of_not_mem hp] at this

namespace Within

variable {c₁ c₂ : Nat} {r₁ : RecencyList α c₁} {r₂ : RecencyList α c₂}

omit [DecidableEq α] in
theorem nil : Within c₁ c₂ ([] : List α) [] := ⟨List.Sublist.refl _, fun _ => Nat.zero_le _⟩

theorem discard (hw : Within c₁ c₂ r₁.items r₂.items) :
    Within c₁ c₂ (r₁.discard p).items (r₂.discard p).items := by
  refine ⟨hw.sublist.erase p, ?_⟩
  intro hc
  have := hw.slack hc
  show (r₂.items.erase p).length ≤ (r₁.items.erase p).length + (c₂ - c₁)
  -- `p` leaves both lists, or at most the larger one
  by_cases hp : p ∈ r₁.items
  · rw [List.length_erase_of_mem hp, List.length_erase_of_mem (hw.sublist.subset hp)]
    have := List.length_pos_of_mem hp
    omega
  · rw [List.erase_of_not_mem hp]
    have := List.length_erase_le (a := p) (l := r₂.items)
    omega

omit [DecidableEq α] in
theorem keep (hw : Within c₁ c₂ r₁.items r₂.items) (f : α → Bool) :
    Within c₁ c₂ (r₁.keep f).items (r₂.keep f).items := by
  refine ⟨hw.sublist.filter f, ?_⟩
  intro hc
  have := hw.slack hc
  -- what the filter drops from the smaller list it drops from the larger one too
  have hdrop := (hw.sublist.filter (fun a => !f a)).length_le
  have h₁ := List.length_eq_length_filter_add (l := r₁.items) f
  have h₂ := List.length_eq_length_filter_add (l := r₂.items) f
  show (r₂.items.filter f).length ≤ (r₁.items.filter f).length + (c₂ - c₁)
  omega

theorem renew (hw : Within c₁ c₂ r₁.items r₂.items) (hp : p ∈ r₁.items) :
    Within c₁ c₂ (r₁.renew p).items (r₂.renew p).items := by
  have hwd := hw.discard (p := p)
  rw [r₁.renew_live hp, r₂.renew_live (hw.sublist.subset hp)]
  -- inclusion without `p`, and `p` at the end of both
  refine ⟨hwd.sublist.append (List.Sublist.refl [p]), ?_⟩
  intro hc
  have hslack : (r₂.items.erase p).length ≤ (r₁.items.erase p).length + (c₂ - c₁) :=
    hwd.slack hc
  simp only [List.length_append, List.length_singleton]
  omega

/-- A use that only the larger list can serve. -/
theorem renew_right (hw : Within c₁ c₂ r₁.items r₂.items) (hp₁ : p ∉ r₁.items)
    (hp₂ : p ∈ r₂.items) : Within c₁ c₂ r₁.items (r₂.renew p).items := by
  rw [r₂.renew_live hp₂]
  refine ⟨(sublist_erase_of_not_mem hw.sublist hp₁).trans
    (List.sublist_append_left _ _), ?_⟩
  intro hc
  have := hw.slack hc
  have := List.length_pos_of_mem hp₂
  rw [List.length_append, List.length_erase_of_mem hp₂, List.length_singleton]
  omega

/-- A removal that only the larger list can serve. -/
theorem discard_right (hw : Within c₁ c₂ r₁.items r₂.items) (hp₁ : p ∉ r₁.items) :
    Within c₁ c₂ r₁.items (r₂.discard p).items := by
  have := hw.discard (p := p)
  rwa [r₁.discard_absent hp₁] at this

omit [DecidableEq α] in
/-- Making room on both sides: if the larger list has to evict, so does the
smaller one, and then both lose their heads. -/
theorem makeRoom_sublist_makeRoom {l₁ l₂ : List α} (hw : Within c₁ c₂ l₁ l₂)
    (hc₁ : c₁ ≠ 0) (hc : c₂ = 0 ∨ c₁ ≤ c₂) :
    (makeRoom c₁ l₁).Sublist (makeRoom c₂ l₂) := by
  by_cases hev : c₂ ≠ 0 ∧ c₂ ≤ l₂.length
  · -- the slack bound: a full larger list leaves the smaller one full
    have := hw.slack hev.1
    have hle : c₁ ≤ l₁.length := by omega
    rw [makeRoom_of_le hev.1 hev.2, makeRoom_of_le hc₁ hle]
    exact hw.sublist.tail
  · rw [show makeRoom c₂ l₂ = l₂ from if_neg hev]
    exact (makeRoom_sublist l₁).trans hw.sublist

/-- **The inclusion law**: placing the same item on both sides keeps the
smaller list inside the larger one. -/
theorem place (hw : Within c₁ c₂ r₁.items r₂.items) (hc₁ : c₁ ≠ 0)
    (hc : c₂ = 0 ∨ c₁ ≤ c₂) : Within c₁ c₂ (r₁.place p).items (r₂.place p).items := by
  have hwd := hw.discard (p := p)
  have hb₁ : (r₁.items.erase p).length ≤ c₁ := (r₁.discard p).bounded hc₁
  refine ⟨(hwd.makeRoom_sublist_makeRoom hc₁ hc).append (List.Sublist.refl [p]), ?_⟩
  -- the slack: four cases, by which of the two lists evicts
  intro hc₂
  have hslack : (r₂.items.erase p).length ≤ (r₁.items.erase p).length + (c₂ - c₁) :=
    hwd.slack hc₂
  have hb₂ : (r₂.items.erase p).length ≤ c₂ := (r₂.discard p).bounded hc₂
  show (makeRoom c₂ (r₂.items.erase p) ++ [p]).length
    ≤ (makeRoom c₁ (r₁.items.erase p) ++ [p]).length + (c₂ - c₁)
  have ht₁ : (r₁.items.erase p).tail.length = (r₁.items.erase p).length - 1 :=
    List.length_tail
  have ht₂ : (r₂.items.erase p).tail.length = (r₂.items.erase p).length - 1 :=
    List.length_tail
  simp only [List.length_append, List.length_singleton, makeRoom]
  split <;> split <;> omega

end Within

end RecencyList

end Library
