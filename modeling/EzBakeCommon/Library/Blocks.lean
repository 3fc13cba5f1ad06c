/-
  EzBakeCommon.Library.Blocks — texts cut into blocks, and padded to whole ones.

  A block is a list of `n` symbols.  `join` writes blocks one after another,
  `blocks` cuts a text, and a text is the join of blocks exactly if `n` divides
  its length.  `pad` fills a text up to whole blocks: it appends at least one
  symbol and at most `n`, each of which says how many there are.

  Main results:
    * `join_blocks`, `blocks_join` — cutting and joining are inverse.
    * `take_join_eq_iff` — texts of whole blocks agree as far as their blocks do.
    * `pad_eq_iff` — which texts are a padding of a given one.
-/
import Mathlib.Data.Vector.Basic
import Mathlib.Data.LawfulXor.Basic

namespace Library.Blocks

variable {α : Type*} {n : Nat}

/-! ## §1. Cutting and joining. -/

/-- The block at the front of the text. -/
def front (l : List α) (h : n ≤ l.length) : List.Vector α n := ⟨l.take n, List.length_take_of_le h⟩

@[simp] theorem toList_front (l : List α) (h : n ≤ l.length) : (front l h).toList = l.take n := rfl

/-- At most `k` blocks from the front of the text. -/
def cut (n : Nat) : Nat → List α → List (List.Vector α n)
  | 0, _ => []
  | k + 1, l => if h : n ≤ l.length then front l h :: cut n k (l.drop n) else []

/-- The whole blocks of the text. -/
def blocks (n : Nat) (l : List α) : List (List.Vector α n) := cut n (l.length / n) l

/-- The blocks, one after another. -/
def join (bs : List (List.Vector α n)) : List α := bs.flatMap List.Vector.toList

@[simp] theorem join_nil : join ([] : List (List.Vector α n)) = [] := rfl

@[simp] theorem join_cons (b : List.Vector α n) (bs : List (List.Vector α n)) :
    join (b :: bs) = b.toList ++ join bs := rfl

theorem join_append (bs bs' : List (List.Vector α n)) : join (bs ++ bs') = join bs ++ join bs' :=
  List.flatMap_append

theorem length_join (bs : List (List.Vector α n)) : (join bs).length = n * bs.length := by
  induction bs with
  | nil => rfl
  | cons b bs ih =>
      rw [join_cons, List.length_append, ih, b.toList_length, List.length_cons, Nat.mul_succ]
      omega

theorem join_cut (n : Nat) (k : Nat) :
    ∀ l : List α, l.length = n * k → join (cut n k l) = l := by
  induction k with
  | zero =>
      intro l hl
      exact (List.length_eq_zero_iff.mp hl).symm
  | succ k ih =>
      intro l hl
      rw [Nat.mul_succ] at hl
      have hn : n ≤ l.length := by omega
      have hdrop : (l.drop n).length = n * k := by
        rw [List.length_drop]
        omega
      unfold cut
      rw [dif_pos hn, join_cons, toList_front, ih _ hdrop]
      exact List.take_append_drop n l

/-- **A text of whole blocks is the join of its blocks.** -/
theorem join_blocks {l : List α} (h : n ∣ l.length) : join (blocks n l) = l :=
  join_cut n (l.length / n) l (Nat.mul_div_cancel' h).symm

/-- **Joined blocks are cut where they were joined.** -/
theorem blocks_join (hn : 0 < n) (bs : List (List.Vector α n)) : blocks n (join bs) = bs := by
  unfold blocks
  rw [length_join, Nat.mul_div_cancel_left _ hn]
  induction bs with
  | nil => rfl
  | cons b bs ih =>
      have hlen : n ≤ (join (b :: bs)).length := by
        rw [length_join]
        exact Nat.le_mul_of_pos_right n (Nat.succ_pos _)
      have htake : (join (b :: bs)).take n = b.toList := by
        rw [join_cons]
        exact List.take_left' b.toList_length
      have hdrop : (join (b :: bs)).drop n = join bs := by
        rw [join_cons]
        exact List.drop_left' b.toList_length
      rw [List.length_cons]
      unfold cut
      rw [dif_pos hlen, hdrop, ih]
      exact congrArg (· :: bs) (Subtype.ext htake)

/-- Whole blocks are taken from the front. -/
theorem take_join (bs : List (List.Vector α n)) :
    ∀ k, (join bs).take (n * k) = join (bs.take k) := by
  induction bs with
  | nil =>
      intro k
      rw [List.take_nil]
      exact List.take_nil
  | cons b bs ih =>
      intro k
      cases k with
      | zero => rfl
      | succ k =>
          have hlen : n * (k + 1) = b.toList.length + n * k := by
            rw [b.toList_length, Nat.mul_succ]
            omega
          rw [join_cons, hlen, List.take_length_add_append, ih]
          rfl

/-- **Texts of whole blocks agree as far as their blocks do.** -/
theorem take_join_eq_iff (hn : 0 < n) (bs bs' : List (List.Vector α n)) (k : ℕ) :
    (join bs).take (n * k) = (join bs').take (n * k) ↔ bs.take k = bs'.take k := by
  have hinj : Function.Injective (join : List (List.Vector α n) → List α) :=
    Function.LeftInverse.injective (blocks_join hn)
  rw [take_join, take_join]
  exact hinj.eq_iff

/-- A text of at least one whole block ends in one. -/
theorem exists_concat {l : List α} (h : n ∣ l.length) (hl : l ≠ []) :
    ∃ (bs : List (List.Vector α n)) (b : List.Vector α n), l = join (bs ++ [b]) := by
  have hne : blocks n l ≠ [] := by
    intro hnil
    have hjoin := join_blocks h
    rw [hnil] at hjoin
    exact hl hjoin.symm
  refine ⟨(blocks n l).dropLast, (blocks n l).getLast hne, ?_⟩
  rw [List.dropLast_concat_getLast, join_blocks h]

/-- The last symbols, no more than a block, are in the last block. -/
theorem drop_join_concat (bs : List (List.Vector α n)) (b : List.Vector α n) {m : Nat}
    (hm : m ≤ n) :
    (join (bs ++ [b])).drop ((join (bs ++ [b])).length - m) = b.toList.drop (n - m) := by
  have hlen : (join (bs ++ [b])).length - m = (join bs).length + (n - m) := by
    rw [length_join, length_join, List.length_append, List.length_singleton, Nat.mul_add]
    omega
  rw [hlen, join_append, List.drop_length_add_append, join_cons, join_nil, List.append_nil]

/-- The last symbol is that of the last block. -/
theorem last_join_concat (bs : List (List.Vector α (n + 1))) (b : List.Vector α (n + 1)) :
    (join (bs ++ [b]))[(join (bs ++ [b])).length - 1]? = some (b.get (Fin.last n)) := by
  have hdrop := drop_join_concat bs b (Nat.le_add_left 1 n)
  rw [← List.head?_drop, hdrop, List.head?_drop, Nat.add_sub_cancel, List.Vector.get_eq_get_toList]
  exact List.getElem?_eq_getElem _

/-! ## §2. Blocks of bits. -/

section Xor

variable [XorOp α] [Zero α]

/-- Symbol by symbol. -/
instance instXorBlock : XorOp (List.Vector α n) := ⟨List.Vector.map₂ (· ^^^ ·)⟩

instance instZeroBlock : Zero (List.Vector α n) := ⟨List.Vector.replicate n 0⟩

omit [Zero α] in
theorem get_xor (x y : List.Vector α n) (i : Fin n) : (x ^^^ y).get i = x.get i ^^^ y.get i :=
  List.Vector.get_map₂ x y _ i

omit [XorOp α] in
theorem get_zero (i : Fin n) : (0 : List.Vector α n).get i = 0 := List.Vector.get_replicate 0 i

instance instLawfulXorBlock [LawfulXor α] : LawfulXor (List.Vector α n) where
  xor_assoc x y z := by
    ext i
    simp only [get_xor, LawfulXor.xor_assoc]
  xor_self x := by
    ext i
    rw [get_xor, get_zero, LawfulXor.xor_self]
  xor_zero x := by
    ext i
    rw [get_xor, get_zero, LawfulXor.xor_zero]
  xor_comm x y := by
    ext i
    rw [get_xor, get_xor, LawfulXor.xor_comm]

end Xor

/-! ## §3. Padding. -/

section Pad

variable (mark : Nat → α) {text padded : List α}

/-- How many symbols are missing to whole blocks; `n` if none are. -/
def missing (n : Nat) (text : List α) : Nat := n - text.length % n

/-- The text and as many marks as are missing, each marking their number. -/
def pad (n : Nat) (text : List α) : List α :=
  text ++ List.replicate (missing n text) (mark (missing n text))

theorem missing_pos (hn : 0 < n) : 0 < missing n text :=
  Nat.sub_pos_of_lt (Nat.mod_lt text.length hn)

theorem missing_le : missing n text ≤ n := Nat.sub_le n _

theorem length_pad (hn : 0 < n) : (pad mark n text).length = n * (text.length / n + 1) := by
  have hdiv := Nat.div_add_mod text.length n
  have hmod := Nat.mod_lt text.length hn
  unfold pad missing
  rw [List.length_append, List.length_replicate, Nat.mul_succ]
  omega

/-- **The paddings of a text**: whole blocks, the text and some marks. -/
theorem pad_eq_iff (hn : 0 < n) :
    pad mark n text = padded ↔
      n ∣ padded.length ∧
        ∃ m, 0 < m ∧ m ≤ n ∧ padded = text ++ List.replicate m (mark m) := by
  constructor
  · intro h
    subst h
    exact ⟨⟨_, length_pad mark hn⟩, missing n text, missing_pos hn, missing_le, rfl⟩
  · intro h
    obtain ⟨hdvd, m, hpos, hle, rfl⟩ := h
    -- only one number of marks between 1 and `n` fills the last block
    have hm : missing n text = m := by
      have hdiv := Nat.div_add_mod text.length n
      have hmod := Nat.mod_lt text.length hn
      obtain ⟨k, hk⟩ := hdvd
      rw [List.length_append, List.length_replicate] at hk
      have hq : k = text.length / n + 1 := by
        refine Nat.le_antisymm ?_ ?_
        · refine Nat.le_of_lt_succ (Nat.lt_of_mul_lt_mul_left (a := n) ?_)
          rw [Nat.mul_succ, Nat.mul_succ]
          omega
        · refine Nat.succ_le_of_lt (Nat.lt_of_mul_lt_mul_left (a := n) ?_)
          omega
      rw [hq, Nat.mul_succ] at hk
      unfold missing
      omega
    unfold pad
    rw [hm]

end Pad

end Library.Blocks
