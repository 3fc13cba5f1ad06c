/-
  EzBakeCommon.Library.Cbc — cipher block chaining over any block cipher.

  Each block is mixed with the cipher block before it, the first one with an
  initial block, and then encrypted.  Nothing depends on the cipher, except that
  its two directions are inverse.

  Main results:
    * `decrypt_encrypt`, `encrypt_decrypt` — chaining is inverse in both
      directions.
    * `decrypt_concat` — what the last block decrypts to depends on it and the
      one before it.
    * `take_encrypt_eq_iff` — encryptions agree as far as the texts do.
    * `decrypt_changed` — another block in the middle changes two blocks of the
      text.
-/
import Mathlib.Data.LawfulXor.Basic

namespace Library.Cbc

variable {β : Type*} [XorOp β]

/-- The blocks encrypted by `e`, chained from `iv`. -/
def encrypt (e : β → β) : β → List β → List β
  | _, [] => []
  | iv, x :: xs => e (x ^^^ iv) :: encrypt e (e (x ^^^ iv)) xs

/-- The blocks decrypted by `d`, chained from `iv`. -/
def decrypt (d : β → β) : β → List β → List β
  | _, [] => []
  | iv, y :: ys => (d y ^^^ iv) :: decrypt d y ys

@[simp] theorem length_encrypt (e : β → β) (xs : List β) :
    ∀ iv, (encrypt e iv xs).length = xs.length := by
  induction xs with
  | nil => intro iv; rfl
  | cons x xs ih =>
      intro iv
      show (encrypt e (e (x ^^^ iv)) xs).length + 1 = _
      rw [ih, List.length_cons]

@[simp] theorem length_decrypt (d : β → β) (ys : List β) :
    ∀ iv, (decrypt d iv ys).length = ys.length := by
  induction ys with
  | nil => intro iv; rfl
  | cons y ys ih =>
      intro iv
      show (decrypt d y ys).length + 1 = _
      rw [ih, List.length_cons]

/-- **What the last block decrypts to**: it and the block before it decide. -/
theorem decrypt_concat (d : β → β) (ys : List β) (y : β) :
    ∀ iv, decrypt d iv (ys ++ [y]) =
      decrypt d iv ys ++ [d y ^^^ (iv :: ys).getLast (List.cons_ne_nil iv ys)] := by
  induction ys with
  | nil => intro iv; rfl
  | cons y' ys ih =>
      intro iv
      show (d y' ^^^ iv) :: decrypt d y' (ys ++ [y]) = _
      rw [ih, List.getLast_cons (List.cons_ne_nil y' ys)]
      rfl

/-- What follows other blocks is chained from the last of them. -/
theorem decrypt_append (d : β → β) (ys ys' : List β) :
    ∀ iv, decrypt d iv (ys ++ ys') =
      decrypt d iv ys ++ decrypt d ((iv :: ys).getLast (List.cons_ne_nil iv ys)) ys' := by
  induction ys with
  | nil => intro iv; rfl
  | cons y ys ih =>
      intro iv
      show (d y ^^^ iv) :: decrypt d y (ys ++ ys') = _
      rw [ih, List.getLast_cons (List.cons_ne_nil y ys)]
      rfl

/-- Nothing that follows changes the blocks before it. -/
theorem take_encrypt (e : β → β) (xs : List β) :
    ∀ (n : ℕ) (iv : β), (encrypt e iv xs).take n = encrypt e iv (xs.take n) := by
  induction xs with
  | nil =>
      intro n iv
      rw [List.take_nil]
      exact List.take_nil
  | cons x xs ih =>
      intro n iv
      cases n with
      | zero => rfl
      | succ n =>
          show e (x ^^^ iv) :: (encrypt e (e (x ^^^ iv)) xs).take n = _
          rw [ih]
          rfl

section Inverse

variable [Zero β] [LawfulXor β] {e d : β → β}

/-- **Decryption inverts encryption**, from the same initial block. -/
theorem decrypt_encrypt (h : Function.LeftInverse d e) (xs : List β) :
    ∀ iv, decrypt d iv (encrypt e iv xs) = xs := by
  induction xs with
  | nil => intro iv; rfl
  | cons x xs ih =>
      intro iv
      show (d (e (x ^^^ iv)) ^^^ iv) :: decrypt d (e (x ^^^ iv)) (encrypt e (e (x ^^^ iv)) xs) = _
      rw [h, xor_cancel_right, ih]

/-- **Encryption inverts decryption**, from the same initial block. -/
theorem encrypt_decrypt (h : Function.LeftInverse e d) (ys : List β) :
    ∀ iv, encrypt e iv (decrypt d iv ys) = ys := by
  induction ys with
  | nil => intro iv; rfl
  | cons y ys ih =>
      intro iv
      show e (d y ^^^ iv ^^^ iv) :: encrypt e (e (d y ^^^ iv ^^^ iv)) (decrypt d y ys) = _
      rw [xor_cancel_right, h, ih]

/-- **Encryptions from the same initial block agree as far as the texts do.** -/
theorem take_encrypt_eq_iff (h : Function.LeftInverse d e) (iv : β) (xs xs' : List β) (n : ℕ) :
    (encrypt e iv xs).take n = (encrypt e iv xs').take n ↔ xs.take n = xs'.take n := by
  have hinj : Function.Injective (encrypt e iv) :=
    Function.LeftInverse.injective (fun xs => decrypt_encrypt h xs iv)
  rw [take_encrypt, take_encrypt]
  exact hinj.eq_iff

/-- **Another block in the middle** makes another block of the text, of which nothing
can be said, and changes the next one by the difference; no other block changes. -/
theorem decrypt_changed (d : β → β) (iv : β) (before after : List β)
    (x y next : β) :
    ∃ head old new followed tail, head.length = before.length ∧ tail.length = after.length ∧
      decrypt d iv (before ++ x :: next :: after) = head ++ old :: followed :: tail ∧
      decrypt d iv (before ++ y :: next :: after)
        = head ++ new :: (followed ^^^ (x ^^^ y)) :: tail := by
  have hlast := List.cons_ne_nil iv before
  refine ⟨decrypt d iv before, d x ^^^ (iv :: before).getLast hlast,
    d y ^^^ (iv :: before).getLast hlast, d next ^^^ x, decrypt d next after,
    length_decrypt d _ iv, length_decrypt d _ next, decrypt_append d before _ iv, ?_⟩
  have hnext : d next ^^^ x ^^^ (x ^^^ y) = d next ^^^ y := by
    rw [← LawfulXor.xor_assoc, xor_cancel_right]
  rw [hnext]
  exact decrypt_append d before _ iv

end Inverse

end Library.Cbc
