/-
  EzBakeCommon.Hosts.ThriftPrivateInfo — where the thrift runner listens.

  `getThriftPrivateInfo` looks for blank values, converts the port, and leaves its
  range to `HostAndPort`, to which a negative number is a very large one.  All of
  that refuses what it should.  What comes before does not: a variable that is
  not set is made a string at once, and the test for it, which
  `inOpenShiftContainer` has, is missing.  So the function does what it should
  exactly if both variables are set (`exactly_usable_iff`).
-/
import EzBakeCommon.Hosts.OpenShiftUtil

namespace EzBakeCommon.Hosts

open Library

/-! ## §1. Numerals. -/

/-- Digits after an optional sign, and the number that they denote. -/
def IsIntNumeral (text : StdString) (value : Int) : Prop :=
  ∃ digits, Decimal.IsNumeral digits ∧
    (((text = digits ∨ text = 43 :: digits) ∧ value = Decimal.value digits) ∨
      (text = 45 :: digits ∧ value = -(Decimal.value digits : Int)))

theorem readInRange_eq_some {digits : StdString} {value : Int} {n : Int32} :
    readInRange digits value = some n ↔ Decimal.IsNumeral digits ∧ value = n.toInt := by
  unfold readInRange
  constructor
  · intro h
    split at h
    next hread =>
      obtain ⟨hnum, hlow, hhigh⟩ := hread
      obtain rfl := Option.some.inj h
      exact ⟨hnum, (Int32.toInt_ofInt_of_le hlow (by omega)).symm⟩
    next => exact absurd h (by simp)
  · intro h
    obtain ⟨hnum, rfl⟩ := h
    have hlow : -2147483648 ≤ n.toInt := n.le_toInt
    have hhigh : n.toInt < 2147483648 := n.toInt_lt
    rw [if_pos ⟨hnum, hlow, hhigh⟩, Int32.ofInt_toInt]

/-- **What the conversion reads** are the numerals of the numbers that an `int` has. -/
theorem readInt_eq_some {text : StdString} {n : Int32} :
    readInt text = some n ↔ IsIntNumeral text n.toInt := by
  constructor
  · intro h
    unfold readInt at h
    split at h
    next digits =>
      obtain ⟨hnum, hvalue⟩ := readInRange_eq_some.mp h
      exact ⟨digits, hnum, Or.inl ⟨Or.inr rfl, hvalue.symm⟩⟩
    next digits =>
      obtain ⟨hnum, hvalue⟩ := readInRange_eq_some.mp h
      exact ⟨digits, hnum, Or.inr ⟨rfl, hvalue.symm⟩⟩
    next =>
      obtain ⟨hnum, hvalue⟩ := readInRange_eq_some.mp h
      exact ⟨text, hnum, Or.inl ⟨Or.inl rfl, hvalue.symm⟩⟩
  · intro h
    obtain ⟨digits, hnum, ⟨rfl | rfl, hvalue⟩ | ⟨rfl, hvalue⟩⟩ := h
    · have hread := readInRange_eq_some.mpr ⟨hnum, hvalue.symm⟩
      unfold readInt
      split
      next rest => exact absurd rfl (hnum.ne_cons (by decide) rest)
      next rest => exact absurd rfl (hnum.ne_cons (by decide) rest)
      next => exact hread
    · exact readInRange_eq_some.mpr ⟨hnum, hvalue.symm⟩
    · exact readInRange_eq_some.mpr ⟨hnum, hvalue.symm⟩

/-! ## §2. Ports. -/

/-- An `int` and the `unsigned int` that it is passed as. -/
theorem toInt_eq_toUInt32 (n : Int32) :
    n.toInt = if 2 * n.toUInt32.toNat < 4294967296 then (n.toUInt32.toNat : Int)
      else n.toUInt32.toNat - 4294967296 :=
  BitVec.toInt_eq_toNat_cond n.toBitVec

/-- It is in the range of ports if it was before. -/
theorem toUInt32_le_maxPort {n : Int32} :
    n.toUInt32 ≤ maxPort ↔ 0 ≤ n.toInt ∧ n.toInt ≤ 65535 := by
  have hvalue := toInt_eq_toUInt32 n
  have hport : n.toUInt32 ≤ maxPort ↔ n.toUInt32.toNat ≤ 65535 := UInt32.le_iff_toNat_le
  have hlt := n.toUInt32.toNat_lt
  rw [hport]
  split at hvalue
  next => omega
  next => omega

/-- And then it is the same number. -/
theorem toNat_toUInt32 {n : Int32} (h : n.toUInt32 ≤ maxPort) :
    (n.toUInt32.toNat : Int) = n.toInt := by
  have hport : n.toUInt32.toNat ≤ 65535 := UInt32.le_iff_toNat_le.mp h
  rw [toInt_eq_toUInt32, if_pos (by omega)]

/-! ## §3. Environments. -/

namespace OpenShiftUtil

/-- Both variables are set and not only spaces, and the second is the numeral of a port. -/
def Usable (env : Environment) : Prop :=
  ∃ ip port value, env .javaThriftrunnerIp = some ip ∧ env .javaThriftrunnerTcpPort = some port ∧
    ¬ OnlySpaces ip ∧ ¬ OnlySpaces port ∧ IsIntNumeral port value ∧ 0 ≤ value ∧ value ≤ 65535

/-- The function returns exactly in a usable environment, the host and the port that
it says; in any other it raises an exception; and it makes no string of a null pointer. -/
structure ExactlyUsable (cast : LexicalCastInt) (env : Environment) : Prop where
  returns : (∃ h, getThriftPrivateInfo env cast = .ok h) ↔ Usable env
  parts : ∀ h, getThriftPrivateInfo env cast = .ok h → ∃ text value port,
    env .javaThriftrunnerIp = some h.host ∧ env .javaThriftrunnerTcpPort = some text ∧
    IsIntNumeral text value ∧ h.port = some port ∧ (port.toNat : Int) = value
  raises : (∀ h, getThriftPrivateInfo env cast ≠ .ok h) →
    ∃ ex, getThriftPrivateInfo env cast = .error (.thrown ex)
  no_null : getThriftPrivateInfo env cast ≠ .error .undefined

theorem convertToInt_read {cast : LexicalCastInt} {text : StdString} {n defaultValue : Int32}
    (h : cast.toInt text = some n) : convertToInt cast (some text) defaultValue = .ok n := by
  unfold convertToInt
  dsimp only
  rw [h]

theorem convertToInt_unread {cast : LexicalCastInt} {text : StdString} {defaultValue : Int32}
    (h : cast.toInt text = none) : convertToInt cast (some text) defaultValue
      = .error (.thrown (.hostException .badLexicalCast)) := by
  unfold convertToInt
  dsimp only
  rw [h]

section Set

variable {env : Environment} {cast : LexicalCastInt} {ip port : StdString}

theorem getThriftPrivateInfo_unset
    (h : env .javaThriftrunnerIp = none ∨ env .javaThriftrunnerTcpPort = none) :
    getThriftPrivateInfo env cast = .error .undefined := by
  unfold getThriftPrivateInfo
  cases hip : env .javaThriftrunnerIp with
  | none => rfl
  | some ip =>
      rw [hip] at h
      rw [h.resolve_left (by simp)]
      rfl

variable (hip : env .javaThriftrunnerIp = some ip)
  (hport : env .javaThriftrunnerTcpPort = some port)
include hip hport

theorem usable_iff : Usable env ↔ ¬ OnlySpaces ip ∧ ¬ OnlySpaces port ∧
    ∃ value, IsIntNumeral port value ∧ 0 ≤ value ∧ value ≤ 65535 := by
  constructor
  · intro h
    obtain ⟨ip', port', value, hip', hport', hspacesIp, hspacesPort, hvalue⟩ := h
    obtain rfl := Option.some.inj (hip.symm.trans hip')
    obtain rfl := Option.some.inj (hport.symm.trans hport')
    exact ⟨hspacesIp, hspacesPort, value, hvalue⟩
  · intro h
    obtain ⟨hspacesIp, hspacesPort, value, hvalue⟩ := h
    exact ⟨ip, port, value, hip, hport, hspacesIp, hspacesPort, hvalue⟩

theorem getThriftPrivateInfo_set : getThriftPrivateInfo env cast =
    if findFirstNotBlank ip = none then .error (notSet .javaThriftrunnerIp)
    else if findFirstNotBlank port = none then .error (notSet .javaThriftrunnerTcpPort)
    else convertToInt cast (some port) (-1) >>= fun n =>
      match HostAndPort.fromParts ip n.toUInt32 with
      | .ok h => .ok h
      | .error ex => .error (.thrown (.hostException ex)) := by
  unfold getThriftPrivateInfo
  rw [hip, hport]
  rfl

/-- **What the function returns** where both variables are set. -/
theorem getThriftPrivateInfo_eq_ok {h : HostAndPort} :
    getThriftPrivateInfo env cast = .ok h ↔ ¬ OnlySpaces ip ∧ ¬ OnlySpaces port ∧
      ∃ n, cast.toInt port = some n ∧ n.toUInt32 ≤ maxPort ∧ h.host = ip ∧
        h.port = some n.toUInt32 := by
  rw [getThriftPrivateInfo_set hip hport, ← findFirstNotBlank_eq_none,
    ← findFirstNotBlank_eq_none]
  by_cases hblankIp : findFirstNotBlank ip = none
  · simp [hblankIp]
  · by_cases hblankPort : findFirstNotBlank port = none
    · simp [hblankIp, hblankPort]
    · rw [if_neg hblankIp, if_neg hblankPort, and_iff_right hblankIp, and_iff_right hblankPort]
      cases hread : cast.toInt port with
      | none =>
          rw [convertToInt_unread hread, stops_bind]
          simp
      | some n =>
          rw [convertToInt_read hread, returns_bind]
          simp only [Option.some.injEq, exists_eq_left', ← HostAndPort.fromParts_eq_ok]
          cases HostAndPort.fromParts ip n.toUInt32 <;> simp

/-- Whatever else it meets it raises an exception. -/
theorem getThriftPrivateInfo_defined : getThriftPrivateInfo env cast ≠ .error .undefined := by
  rw [getThriftPrivateInfo_set hip hport]
  split
  next => exact nofun
  next =>
    split
    next => exact nofun
    next =>
      cases hread : cast.toInt port with
      | none =>
          rw [convertToInt_unread hread, stops_bind]
          exact nofun
      | some n =>
          rw [convertToInt_read hread, returns_bind]
          cases HostAndPort.fromParts ip n.toUInt32 with
          | ok h => exact nofun
          | error ex => exact nofun

theorem getThriftPrivateInfo_raises (hnone : ∀ h, getThriftPrivateInfo env cast ≠ .ok h) :
    ∃ ex, getThriftPrivateInfo env cast = .error (.thrown ex) := by
  cases hresult : getThriftPrivateInfo env cast with
  | ok h => exact absurd hresult (hnone h)
  | error stop =>
      cases stop with
      | thrown ex => exact ⟨ex, rfl⟩
      | undefined => exact absurd hresult (getThriftPrivateInfo_defined hip hport)

variable (hcast : cast.Documented)
include hcast

/-- **It returns exactly if the environment is usable**: a value in the range of ports is
one that an `int` has, and it is passed as itself. -/
theorem getThriftPrivateInfo_returns :
    (∃ h, getThriftPrivateInfo env cast = .ok h) ↔ Usable env := by
  rw [usable_iff hip hport]
  constructor
  · intro hreturns
    obtain ⟨h, hh⟩ := hreturns
    obtain ⟨hspacesIp, hspacesPort, n, hread, hle, -⟩ :=
      (getThriftPrivateInfo_eq_ok hip hport).mp hh
    rw [hcast] at hread
    exact ⟨hspacesIp, hspacesPort, n.toInt, readInt_eq_some.mp hread, toUInt32_le_maxPort.mp hle⟩
  · intro husable
    obtain ⟨hspacesIp, hspacesPort, value, hnum, hlow, hhigh⟩ := husable
    have hvalue : (Int32.ofInt value).toInt = value :=
      Int32.toInt_ofInt_of_le (by omega) (by omega)
    rw [← hvalue] at hnum hlow hhigh
    have hread := (hcast port).trans (readInt_eq_some.mpr hnum)
    have hle := toUInt32_le_maxPort.mpr ⟨hlow, hhigh⟩
    exact ⟨⟨ip, some (Int32.ofInt value).toUInt32, HostAndPort.inRange_some hle⟩,
      (getThriftPrivateInfo_eq_ok hip hport).mpr
        ⟨hspacesIp, hspacesPort, _, hread, hle, rfl, rfl⟩⟩

/-- What is returned has the host and the port of the environment. -/
theorem getThriftPrivateInfo_parts {h : HostAndPort}
    (hh : getThriftPrivateInfo env cast = .ok h) : ∃ text value port,
    env .javaThriftrunnerIp = some h.host ∧ env .javaThriftrunnerTcpPort = some text ∧
    IsIntNumeral text value ∧ h.port = some port ∧ (port.toNat : Int) = value := by
  obtain ⟨-, -, n, hread, hle, rfl, hown⟩ := (getThriftPrivateInfo_eq_ok hip hport).mp hh
  rw [hcast] at hread
  exact ⟨port, n.toInt, n.toUInt32, hip, hport, readInt_eq_some.mp hread, hown,
    toNat_toUInt32 hle⟩

end Set

/-- **The function succeeds exactly on usable environments, and fails by an exception, if and
only if both variables are set.** -/
theorem exactly_usable_iff (cast : LexicalCastInt) (hcast : cast.Documented) (env : Environment) :
    ExactlyUsable cast env ↔
      env .javaThriftrunnerIp ≠ none ∧ env .javaThriftrunnerTcpPort ≠ none := by
  constructor
  · intro h
    refine ⟨?_, ?_⟩
    · exact fun hunset => h.no_null (getThriftPrivateInfo_unset (Or.inl hunset))
    · exact fun hunset => h.no_null (getThriftPrivateInfo_unset (Or.inr hunset))
  · intro hset
    obtain ⟨ip, hip⟩ := Option.ne_none_iff_exists'.mp hset.1
    obtain ⟨port, hport⟩ := Option.ne_none_iff_exists'.mp hset.2
    exact {
      returns := getThriftPrivateInfo_returns hip hport hcast
      parts := fun _ hh => getThriftPrivateInfo_parts hip hport hcast hh
      raises := getThriftPrivateInfo_raises hip hport
      no_null := getThriftPrivateInfo_defined hip hport }

/-- `"127.0.0.1"` and `"9090"`. -/
def local9090 : Environment
  | .javaThriftrunnerIp => some [49, 50, 55, 46, 48, 46, 48, 46, 49]
  | .javaThriftrunnerTcpPort => some [57, 48, 57, 48]
  | .repoDir => none

/-- Both variables are set there. -/
theorem local_exactly_usable : ExactlyUsable LexicalCastInt.cLocale local9090 :=
  (exactly_usable_iff LexicalCastInt.cLocale LexicalCastInt.cLocale_documented local9090).mpr
    ⟨by decide, by decide⟩

/-- Outside a container nothing is set, and a string is made of a null pointer. -/
theorem unset_variable_read :
    getThriftPrivateInfo (fun _ => none) LexicalCastInt.cLocale = .error .undefined ∧
      ¬ ExactlyUsable LexicalCastInt.cLocale (fun _ => none) := by
  have hnull : getThriftPrivateInfo (fun _ => none) LexicalCastInt.cLocale = .error .undefined :=
    getThriftPrivateInfo_unset (Or.inl rfl)
  exact ⟨hnull, fun h => h.no_null hnull⟩

end OpenShiftUtil

end EzBakeCommon.Hosts
