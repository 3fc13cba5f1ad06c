/-
  EzBakeCommon.Hosts.HostAndPort — the class HostAndPort, function by function.

  A host is the bytes of a `std::string`; the port is optional, and the
  constructor that takes one refuses it above `MAX_PORT`, so no object has such a
  port.  `boost::lexical_cast<unsigned int>` is a parameter; what is documented
  of it is `LexicalCast.Documented`.
-/
import EzBakeCommon.Library.Decimal

namespace EzBakeCommon.Hosts

open Library

/-- The bytes of a `std::string`. -/
abbrev StdString := List UInt8

/-- What the functions throw. -/
inductive HostException where
  | outOfRange (message : String)
  | invalidArgument (message : String)
  /-- `boost::bad_lexical_cast` -/
  | badLexicalCast
  deriving DecidableEq

/-! ## §1. `boost::lexical_cast<unsigned int>`. -/

/-- The conversion; nothing where it throws. -/
structure LexicalCast where
  toUnsignedInt : StdString → Option UInt32

/-- Digits whose value fits in 32 bits. -/
def readDigits (digits : StdString) : Option UInt32 :=
  if Decimal.IsNumeral digits ∧ Decimal.value digits < 4294967296 then
    some (UInt32.ofNat (Decimal.value digits))
  else none

/-- An optional sign, then digits; after `-` the value is negated modulo 2^32. -/
def readSigned : StdString → Option UInt32
  | 43 :: digits => readDigits digits
  | 45 :: digits => (readDigits digits).map (fun n => -n)
  | digits => readDigits digits

/-- It reads these texts so, and throws at any other. -/
def LexicalCast.Documented (cast : LexicalCast) : Prop :=
  ∀ text, cast.toUnsignedInt text = readSigned text

/-- It reads back what `std::to_string` writes, and throws at the empty text. -/
structure LexicalCast.ReadsBack (cast : LexicalCast) : Prop where
  written : ∀ n : UInt32, cast.toUnsignedInt (Decimal.text n.toNat) = some n
  empty : cast.toUnsignedInt [] = none

/-- The conversion in the C locale. -/
def LexicalCast.cLocale : LexicalCast := ⟨readSigned⟩

theorem LexicalCast.cLocale_documented : LexicalCast.cLocale.Documented := fun _ => rfl

/-! ## §2. The class. -/

/-- `DELIM` -/
def delim : UInt8 := 58

/-- `MAX_PORT` -/
def maxPort : UInt32 := 65535

/-- `_host` and `_port`. -/
structure HostAndPort where
  host : StdString
  port : Option UInt32
  inRange : ∀ p ∈ port, p ≤ maxPort
  deriving DecidableEq

namespace HostAndPort

theorem inRange_some {port : UInt32} (h : port ≤ maxPort) : ∀ p ∈ some port, p ≤ maxPort := by
  intro p hp
  obtain rfl := Option.some.inj hp
  exact h

/-- The constructor without a port. -/
def fromHost (host : StdString) : HostAndPort := ⟨host, none, fun _ h => nomatch h⟩

/-- The constructor with a port. -/
def fromParts (host : StdString) (port : UInt32) : Except HostException HostAndPort :=
  if h : maxPort < port then .error (.outOfRange "port out of range")
  else .ok ⟨host, some port, inRange_some (UInt32.not_lt.mp h)⟩

/-- `str.find(DELIM)`, then `substr` before and after it. -/
def fromString (cast : LexicalCast) (str : StdString) : Except HostException HostAndPort :=
  match str.findIdx? (fun c => c = delim) with
  | none => .ok (fromHost str)
  | some delimPosition =>
      match cast.toUnsignedInt (str.drop (delimPosition + 1)) with
      | none => .error .badLexicalCast
      | some port => fromParts (str.take delimPosition) port

section Members

variable (h : HostAndPort)

def getHostText : StdString := h.host

def getPort : Except HostException UInt32 :=
  match h.port with
  | none => .error (.invalidArgument "no port defined")
  | some port => .ok port

/-- It catches what `getPort` throws. -/
def getPortOrDefault (defaultPort : UInt32) : UInt32 :=
  match h.getPort with
  | .ok port => port
  | .error _ => defaultPort

def hasPort : Bool := h.port.isSome

def toString : StdString :=
  match h.port with
  | some port => h.host ++ [delim] ++ Decimal.text port.toNat
  | none => h.host ++ [delim]

/-- `operator==` -/
def eq (rhs : HostAndPort) : Bool :=
  if h.host = rhs.host then
    match h.port, rhs.port with
    | some port, some rhsPort => port = rhsPort
    | none, none => true
    | _, _ => false
  else false

/-- `operator!=` -/
def ne (rhs : HostAndPort) : Bool := !h.eq rhs

/-- `operator<`; the hosts are compared as `std::string` compares them. -/
def lt (rhs : HostAndPort) : Bool :=
  if h.host = rhs.host then
    match h.port, rhs.port with
    | some port, some rhsPort => port < rhsPort
    | some _, none => false
    | none, _ => true
  else h.host < rhs.host

end Members

/-! ## §3. What the functions do. -/

variable {h : HostAndPort} {host text : StdString} {port : UInt32}

theorem fromParts_own (hport : h.port = some port) : fromParts h.host port = .ok h := by
  obtain ⟨host, own, inRange⟩ := h
  obtain rfl : own = some port := hport
  exact dif_neg (UInt32.not_lt.mpr (inRange port rfl))

/-- **Every object is built by one of the constructors.** -/
theorem built (h : HostAndPort) :
    h = fromHost h.host ∨ ∃ port, fromParts h.host port = .ok h := by
  cases hport : h.port with
  | none =>
      obtain ⟨host, port, inRange⟩ := h
      obtain rfl : port = none := hport
      exact Or.inl rfl
  | some port => exact Or.inr ⟨port, fromParts_own hport⟩

theorem fromParts_eq_ok :
    fromParts host port = .ok h ↔ port ≤ maxPort ∧ h.host = host ∧ h.port = some port := by
  constructor
  · intro hok
    unfold fromParts at hok
    split at hok
    next => exact absurd hok (by simp)
    next hle =>
      obtain rfl := Except.ok.inj hok
      exact ⟨UInt32.not_lt.mp hle, rfl, rfl⟩
  · intro hparts
    obtain ⟨-, rfl, hport⟩ := hparts
    exact fromParts_own hport

/-- The accessors return the parts that an object is built from. -/
theorem fromParts_accessors (hok : fromParts host port = .ok h) (defaultPort : UInt32) :
    h.getHostText = host ∧ h.getPort = .ok port ∧ h.getPortOrDefault defaultPort = port := by
  obtain ⟨-, hhost, hport⟩ := fromParts_eq_ok.mp hok
  have hget : h.getPort = .ok port := by
    unfold getPort
    rw [hport]
  refine ⟨hhost, hget, ?_⟩
  unfold getPortOrDefault
  rw [hget]

/-- The first delimiter decides what is the host and what the port. -/
theorem fromString_delimited (cast : LexicalCast) (hhost : delim ∉ host) :
    fromString cast (host ++ delim :: text) =
      match cast.toUnsignedInt text with
      | none => .error .badLexicalCast
      | some port => fromParts host port := by
  have hfind : (host ++ delim :: text).findIdx? (fun c => c = delim) = some host.length := by
    have hnone : host.findIdx? (fun c => c = delim) = none := by
      rw [List.findIdx?_eq_none_iff]
      intro c hc
      simpa using fun heq : c = delim => hhost (heq ▸ hc)
    rw [List.findIdx?_append, hnone, List.findIdx?_cons]
    simp
  unfold fromString
  rw [hfind]
  show (match cast.toUnsignedInt ((host ++ delim :: text).drop (host.length + 1)) with
    | none => _
    | some port => fromParts ((host ++ delim :: text).take host.length) port) = _
  rw [List.take_left, ← List.drop_drop, List.drop_left]
  rfl

end HostAndPort

end EzBakeCommon.Hosts
