/-
  EzBakeCommon.Library.JavaString — Java strings as lists of UTF-16 code units.

  Indices count code units, as in Java.  `trim` drops the code units up to
  U+0020 at both ends; `substring` throws (`none`) unless its bounds are in
  order and inside the text.

  Main results:
    * `trim_eq_self` — a text that starts and ends visibly is its own trim.
    * `trim_surrounded` — blanks around a text make no difference to its trim.
    * `substring_middle` — cutting a prefix and a suffix off by their lengths.
    * `length_trim_le` — a trimmed text is no longer than the text.
-/
import Mathlib.Data.List.DropRight
import Mathlib.Tactic.TypeStar

namespace Library

/-- The code units of a `java.lang.String`. -/
abbrev JavaString := List UInt16

namespace JavaString

/-- A text of characters that are one code unit each. -/
def ofChars (cs : List Char) : JavaString := cs.map (fun c => UInt16.ofNat c.toNat)

/-- What `trim` removes. -/
def isBlank (u : UInt16) : Bool := u ≤ 0x20

def trim (s : JavaString) : JavaString := (s.dropWhile isBlank).rdropWhile isBlank

def startsWith (s pre : JavaString) : Bool := pre.isPrefixOf s

def endsWith (s suf : JavaString) : Bool := suf.isSuffixOf s

/-- `s.substring(beginIndex, endIndex)`. -/
def substring (s : JavaString) (beginIndex endIndex : Int) : Option JavaString :=
  if 0 ≤ beginIndex ∧ beginIndex ≤ endIndex ∧ endIndex ≤ s.length then
    some ((s.take endIndex.toNat).drop beginIndex.toNat)
  else none

theorem startsWith_iff {s pre : JavaString} : s.startsWith pre = true ↔ pre <+: s :=
  List.isPrefixOf_iff_prefix

theorem endsWith_iff {s suf : JavaString} : s.endsWith suf = true ↔ suf <:+ s :=
  List.isSuffixOf_iff_suffix

/-- A text that starts and ends with something `trim` keeps. -/
theorem trim_eq_self {s : JavaString} {u w : UInt16} (hfirst : s.head? = some u)
    (hu : isBlank u = false) (hlast : s.getLast? = some w) (hw : isBlank w = false) :
    s.trim = s := by
  have hdrop : s.dropWhile isBlank = s := by
    cases s with
    | nil => rfl
    | cons a l =>
        obtain rfl : a = u := by simpa using hfirst
        exact List.dropWhile_cons_of_neg (by simp [hu])
  unfold trim
  rw [hdrop, List.rdropWhile_eq_self_iff]
  intro hne
  have hlast' : s.getLast hne = w := by
    rw [List.getLast?_eq_some_getLast hne] at hlast
    exact Option.some.inj hlast
  rw [hlast', hw]
  exact Bool.false_ne_true

/-- What `trim` removes makes no difference around a text. -/
theorem trim_surrounded {before after : JavaString} (hbefore : ∀ u ∈ before, isBlank u = true)
    (hafter : ∀ u ∈ after, isBlank u = true) (s : JavaString) :
    (before ++ s ++ after).trim = s.trim := by
  have hright : ∀ l : JavaString, (l ++ after).rdropWhile isBlank = l.rdropWhile isBlank := by
    intro l
    unfold List.rdropWhile
    rw [List.reverse_append, List.dropWhile_append_of_pos]
    intro u hu
    exact hafter u (List.mem_reverse.mp hu)
  unfold trim
  rw [List.append_assoc, List.dropWhile_append_of_pos hbefore, List.dropWhile_append]
  cases hs : s.dropWhile isBlank with
  | nil =>
      -- the text is blank, and so is all of it
      have hblank : after.dropWhile isBlank = [] := List.dropWhile_eq_nil_iff.mpr hafter
      rw [if_pos List.isEmpty_nil, hblank]
  | cons u l =>
      rw [if_neg (by simp)]
      exact hright _

theorem length_trim_le (s : JavaString) : s.trim.length ≤ s.length :=
  ((List.rdropWhile_prefix _ _).isInfix.trans (List.dropWhile_suffix _).isInfix).length_le

/-- **Cutting off a prefix and a suffix by their lengths leaves the middle.** -/
theorem substring_middle (pre mid suf : JavaString) :
    (pre ++ mid ++ suf).substring pre.length ((pre ++ mid ++ suf).length - suf.length)
      = some mid := by
  have hlen : (pre ++ mid ++ suf).length = pre.length + mid.length + suf.length := by
    rw [List.length_append, List.length_append]
  have hend : (((pre ++ mid ++ suf).length : Int) - suf.length).toNat
      = (pre ++ mid).length := by
    rw [hlen, List.length_append]
    omega
  unfold substring
  rw [if_pos ⟨by omega, by omega, by omega⟩, hend, List.take_left]
  exact congrArg some List.drop_left

end JavaString

end Library
