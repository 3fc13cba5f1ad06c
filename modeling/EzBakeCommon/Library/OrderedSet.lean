/-
  EzBakeCommon.Library.OrderedSet — an ordered set as a sorted list.

  `insert lt x s` walks the list `s`, sorted by `lt`, to the place of `x` and
  inserts it unless an element EQUIVALENT to `x` (neither is less) is there.
  Only under a strict total order is equivalent the same as equal, and only
  then does the set hold what was put into it (`mem_insert`).
-/
import Mathlib.Data.List.Basic
import Mathlib.Order.Lattice
import Mathlib.Tactic.TypeStar

namespace Library.OrderedSet

variable {α β : Type*}

/-- Insert an element into a sorted list, unless an equivalent one is there. -/
def insert (lt : α → α → Bool) (x : α) : List α → List α
  | [] => [x]
  | y :: ys =>
      if lt x y then x :: y :: ys
      else if lt y x then y :: insert lt x ys
      else y :: ys

/-- The comparison is a strict total order that agrees with equality. -/
structure StrictTotal (lt : α → α → Bool) : Prop where
  irrefl : ∀ x, lt x x = false
  trans : ∀ x y z, lt x y = true → lt y z = true → lt x z = true
  total : ∀ x y, lt x y = false → lt y x = false → x = y

/-- The order of pairs: first components first, second components on a tie. -/
def pairLt (ltA : α → α → Bool) (ltB : β → β → Bool) (p q : α × β) : Bool :=
  ltA p.1 q.1 || (!ltA q.1 p.1 && ltB p.2 q.2)

/-! ## §1. Membership. -/

variable {lt : α → α → Bool} {x y : α}

theorem mem_of_mem_insert : ∀ {s : List α}, y ∈ insert lt x s → y = x ∨ y ∈ s
  | [], hy => Or.inl (List.mem_singleton.mp hy)
  | z :: s, hy => by
      unfold insert at hy
      split at hy
      · exact List.mem_cons.mp hy
      · split at hy
        · rcases List.mem_cons.mp hy with rfl | hy
          · exact Or.inr List.mem_cons_self
          · rcases mem_of_mem_insert hy with h | h
            · exact Or.inl h
            · exact Or.inr (List.mem_cons_of_mem z h)
        · exact Or.inr hy

theorem mem_insert_of_mem : ∀ {s : List α}, y ∈ s → y ∈ insert lt x s
  | z :: s, hy => by
      unfold insert
      split
      · exact List.mem_cons_of_mem x hy
      · split
        · rcases List.mem_cons.mp hy with rfl | hy
          · exact List.mem_cons_self
          · exact List.mem_cons_of_mem z (mem_insert_of_mem hy)
        · exact hy

theorem mem_insert_self (ht : StrictTotal lt) : ∀ s : List α, x ∈ insert lt x s
  | [] => List.mem_cons_self
  | z :: s => by
      unfold insert
      split
      next => exact List.mem_cons_self
      next hxz =>
        split
        next => exact List.mem_cons_of_mem z (mem_insert_self ht s)
        next hzx =>
          -- neither is less: `x` is the element that is there
          rw [ht.total x z (by simpa using hxz) (by simpa using hzx)]
          exact List.mem_cons_self

/-- **Under a strict total order the set holds exactly what was put into it.** -/
theorem mem_insert (ht : StrictTotal lt) {s : List α} :
    y ∈ insert lt x s ↔ y = x ∨ y ∈ s := by
  constructor
  · exact mem_of_mem_insert
  · intro h
    rcases h with rfl | hy
    · exact mem_insert_self ht s
    · exact mem_insert_of_mem hy

/-- Inserting one by one collects nothing else, whatever the comparison. -/
theorem mem_of_mem_foldl_insert (f : β → α) :
    ∀ (xs : List β) {s : List α},
      y ∈ xs.foldl (fun set x => insert lt (f x) set) s → (∃ x ∈ xs, f x = y) ∨ y ∈ s
  | [], _, hy => Or.inr hy
  | x :: xs, s, hy => by
      rw [List.foldl_cons] at hy
      rcases mem_of_mem_foldl_insert f xs hy with ⟨z, hz, rfl⟩ | hy
      · exact Or.inl ⟨z, List.mem_cons_of_mem x hz, rfl⟩
      · rcases mem_of_mem_insert hy with rfl | hy
        · exact Or.inl ⟨x, List.mem_cons_self, rfl⟩
        · exact Or.inr hy

/-- Inserting one by one, in any order, collects exactly the elements. -/
theorem mem_foldl_insert (ht : StrictTotal lt) (f : β → α) :
    ∀ (xs : List β) (s : List α),
      y ∈ xs.foldl (fun set x => insert lt (f x) set) s ↔ (∃ x ∈ xs, f x = y) ∨ y ∈ s
  | [], s => by simp
  | x :: xs, s => by
      rw [List.foldl_cons, mem_foldl_insert ht f xs, mem_insert ht]
      constructor
      · intro h
        -- from the rest of the list, the head of it, or the set it starts from
        rcases h with ⟨z, hz, rfl⟩ | rfl | hy
        · exact Or.inl ⟨z, List.mem_cons_of_mem x hz, rfl⟩
        · exact Or.inl ⟨x, List.mem_cons_self, rfl⟩
        · exact Or.inr hy
      · intro h
        rcases h with ⟨z, hz, rfl⟩ | hy
        · rcases List.mem_cons.mp hz with rfl | hz
          · exact Or.inr (Or.inl rfl)
          · exact Or.inl ⟨z, hz, rfl⟩
        · exact Or.inr (Or.inr hy)

/-! ## §2. Sortedness. -/

/-- Every element is less than the ones after it. -/
def Sorted (lt : α → α → Bool) (s : List α) : Prop := s.Pairwise (fun x y => lt x y = true)

theorem sorted_nil : Sorted lt [] := List.Pairwise.nil

theorem Sorted.insert (ht : StrictTotal lt) : ∀ {s : List α}, Sorted lt s →
    Sorted lt (insert lt x s)
  | [], _ => List.pairwise_singleton _ x
  | z :: s, hs => by
      obtain ⟨hz, hs'⟩ := List.pairwise_cons.mp hs
      unfold OrderedSet.insert
      split
      next hxz =>
        -- in front of `z`, and so in front of everything
        refine List.pairwise_cons.mpr ⟨?_, hs⟩
        intro y hy
        rcases List.mem_cons.mp hy with rfl | hy
        · exact hxz
        · exact ht.trans x z y hxz (hz y hy)
      next =>
        split
        next hzx =>
          refine List.pairwise_cons.mpr ⟨?_, Sorted.insert ht hs'⟩
          intro y hy
          rcases mem_of_mem_insert hy with rfl | hy
          · exact hzx
          · exact hz y hy
        next => exact hs

theorem Sorted.foldl_insert (ht : StrictTotal lt) (f : β → α) :
    ∀ (xs : List β) {s : List α}, Sorted lt s →
      Sorted lt (xs.foldl (fun set x => OrderedSet.insert lt (f x) set) s)
  | [], _, hs => hs
  | _ :: xs, _, hs => (hs.insert ht).foldl_insert ht f xs

/-- A sorted list holds nothing twice. -/
theorem Sorted.nodup (ht : StrictTotal lt) {s : List α} (hs : Sorted lt s) : s.Nodup := by
  refine hs.imp ?_
  intro x y hxy heq
  rw [heq, ht.irrefl] at hxy
  exact Bool.noConfusion hxy

/-- **The set made of distinct elements is a rearrangement of them.** -/
theorem foldl_insert_perm (ht : StrictTotal lt) (f : β → α) {xs : List β}
    (hxs : (xs.map f).Nodup) :
    (xs.foldl (fun set x => OrderedSet.insert lt (f x) set) []).Perm (xs.map f) := by
  have hset := (sorted_nil.foldl_insert ht f xs).nodup ht
  refine (List.perm_ext_iff_of_nodup hset hxs).mpr ?_
  intro y
  rw [mem_foldl_insert ht f, List.mem_map]
  simp

/-! ## §3. Orders. -/

theorem StrictTotal.pair {ltA : α → α → Bool} {ltB : β → β → Bool}
    (hA : StrictTotal ltA) (hB : StrictTotal ltB) : StrictTotal (pairLt ltA ltB) := by
  refine ⟨?_, ?_, ?_⟩
  · intro p
    obtain ⟨a, b⟩ := p
    simp [pairLt, hA.irrefl, hB.irrefl]
  · intro p p' p'' h h'
    obtain ⟨a, b⟩ := p
    obtain ⟨a', b'⟩ := p'
    obtain ⟨a'', b''⟩ := p''
    simp only [pairLt, Bool.or_eq_true, Bool.and_eq_true, Bool.not_eq_true'] at h h' ⊢
    -- by which component decides either comparison
    rcases h with h | ⟨h, hb⟩
    · rcases h' with h' | ⟨h', -⟩
      · exact Or.inl (hA.trans a a' a'' h h')
      · -- `a' ≤ a''`: either less, or the same
        cases ha : ltA a' a'' with
        | true => exact Or.inl (hA.trans a a' a'' h ha)
        | false => exact Or.inl (hA.total a' a'' ha h' ▸ h)
    · cases ha : ltA a a' with
      | true =>
          rcases h' with h' | ⟨h', -⟩
          · exact Or.inl (hA.trans a a' a'' ha h')
          · cases ha' : ltA a' a'' with
            | true => exact Or.inl (hA.trans a a' a'' ha ha')
            | false => exact Or.inl (hA.total a' a'' ha' h' ▸ ha)
      | false =>
          obtain rfl := hA.total a a' ha h
          rcases h' with h' | ⟨h', hb'⟩
          · exact Or.inl h'
          · exact Or.inr ⟨h', hB.trans b b' b'' hb hb'⟩
  · intro p p' h h'
    obtain ⟨a, b⟩ := p
    obtain ⟨a', b'⟩ := p'
    simp only [pairLt, Bool.or_eq_false_iff] at h h'
    obtain rfl := hA.total a a' h.1 h'.1
    have hb := h.2
    have hb' := h'.2
    simp only [hA.irrefl, Bool.not_false, Bool.true_and] at hb hb'
    rw [hB.total b b' hb hb']

/-- A comparison of images, under a map that keeps elements apart. -/
theorem StrictTotal.comap {ltB : β → β → Bool} (hB : StrictTotal ltB) {f : α → β}
    (hf : ∀ x y, f x = f y → x = y) : StrictTotal (fun x y => ltB (f x) (f y)) :=
  ⟨fun x => hB.irrefl (f x), fun x y z => hB.trans (f x) (f y) (f z),
    fun x y hxy hyx => hf x y (hB.total (f x) (f y) hxy hyx)⟩

/-- `<` of a linear order, as a comparison. -/
theorem strictTotal_lt [LinearOrder α] : StrictTotal (fun x y : α => decide (x < y)) := by
  refine ⟨?_, ?_, ?_⟩
  · intro x
    simp
  · intro x y z hxy hyz
    simp only [decide_eq_true_eq] at hxy hyz ⊢
    exact lt_trans hxy hyz
  · intro x y hxy hyx
    simp only [decide_eq_false_iff_not, not_lt] at hxy hyx
    exact le_antisymm hyx hxy

end Library.OrderedSet
