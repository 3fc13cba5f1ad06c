/-
  EzBakeCommon.Hosts.Text — what toString writes and what fromString reads.

  `toString` writes the delimiter also where there is no port, and `fromString`
  then converts the empty text after it.  So a text is read back exactly if it
  has a port (`read_back_iff`).

  `fromString` accepts whatever the conversion accepts, if it comes to no more than
  `MAX_PORT`: besides numerals also numerals with a sign, the value of a negative
  one taken modulo 2^32.  Everything else it gets right (`fromString_exact_iff`).
-/
import EzBakeCommon.Hosts.HostAndPort

namespace EzBakeCommon.Hosts

open Library

/-! ## §1. The conversion. -/

section Conversion

variable {cast : LexicalCast} {digits : StdString}

theorem readDigits_eq_some {n : UInt32} : readDigits digits = some n ↔
    Decimal.IsNumeral digits ∧ n.toNat = Decimal.value digits := by
  unfold readDigits
  constructor
  · intro h
    split at h
    next hread =>
      obtain rfl := Option.some.inj h
      exact ⟨hread.1, UInt32.toNat_ofNat_of_lt' hread.2⟩
    next => exact absurd h (by simp)
  · intro h
    obtain ⟨hnum, hvalue⟩ := h
    rw [← hvalue, if_pos ⟨hnum, n.toNat_lt⟩, UInt32.ofNat_toNat]

/-- A numeral starts with no sign. -/
theorem readSigned_numeral (hnum : Decimal.IsNumeral digits) :
    readSigned digits = readDigits digits := by
  unfold readSigned
  split
  next rest => exact absurd rfl (hnum.ne_cons (by decide) rest)
  next rest => exact absurd rfl (hnum.ne_cons (by decide) rest)
  next => rfl

/-- **The documented conversion reads back what `std::to_string` writes.** -/
theorem LexicalCast.Documented.readsBack (hcast : cast.Documented) : cast.ReadsBack where
  written := by
    intro n
    have hnum := Decimal.isNumeral_text n.toNat
    rw [hcast, readSigned_numeral hnum]
    exact readDigits_eq_some.mpr ⟨hnum, (Decimal.value_text n.toNat).symm⟩
  empty := hcast []

end Conversion

/-! ## §2. Round trip. -/

namespace HostAndPort

/-- **A text that `toString` writes is read back if and only if the object has a
port**: any object, whether built by `fromHost` or by `fromParts`. -/
theorem read_back_iff (cast : LexicalCast) (hcast : cast.ReadsBack) (h : HostAndPort)
    (hhost : delim ∉ h.host) :
    fromString cast h.toString = .ok h ↔ h.hasPort = true := by
  unfold toString hasPort
  cases hport : h.port with
  | none =>
      -- the empty text after the delimiter is no number
      rw [show h.host ++ [delim] = h.host ++ delim :: [] from rfl, fromString_delimited cast hhost,
        hcast.empty]
      simp
  | some port =>
      show fromString cast (h.host ++ [delim] ++ Decimal.text port.toNat) = _ ↔ _
      rw [List.append_assoc, List.singleton_append, fromString_delimited cast hhost,
        hcast.written]
      exact iff_of_true (fromParts_own hport) rfl

/-- `"localhost"` -/
def localhost : StdString := [108, 111, 99, 97, 108, 104, 111, 115, 116]

/-- `"localhost:1234"` -/
def localhost1234 : HostAndPort := ⟨localhost, some 1234, inRange_some (by decide)⟩

/-- It is read back. -/
theorem localhost_read_back :
    fromString LexicalCast.cLocale localhost1234.toString = .ok localhost1234 :=
  (read_back_iff LexicalCast.cLocale LexicalCast.cLocale_documented.readsBack localhost1234
    (by decide)).mpr rfl

/-- Without the port it is written as `"localhost:"`, which is refused. -/
theorem portless_not_read_back :
    ¬ ∀ h : HostAndPort, delim ∉ h.host →
      fromString LexicalCast.cLocale h.toString = .ok h := by
  intro h
  have hread := h (fromHost localhost) (by decide)
  have hthrown : fromString LexicalCast.cLocale (fromHost localhost).toString
      = .error .badLexicalCast := rfl
  rw [hthrown] at hread
  exact absurd hread (by simp)

/-! ## §3. What is accepted. -/

/-- The text before the first delimiter. -/
def hostText (str : StdString) : StdString := str.takeWhile (fun c => c ≠ delim)

/-- The text after it. -/
def portText (str : StdString) : StdString := (str.dropWhile (fun c => c ≠ delim)).tail

/-- A numeral of at most `MAX_PORT`. -/
def IsPortNumeral (text : StdString) : Prop :=
  Decimal.IsNumeral text ∧ Decimal.value text ≤ 65535

/-- A numeral after a sign whose value is at most `MAX_PORT`, that of a negative
one taken modulo 2^32. -/
def IsSignedPort (text : StdString) : Prop :=
  ∃ digits, Decimal.IsNumeral digits ∧
    ((text = 43 :: digits ∧ Decimal.value digits ≤ 65535) ∨
      (text = 45 :: digits ∧ Decimal.value digits < 4294967296 ∧
        (4294967296 - Decimal.value digits) % 4294967296 ≤ 65535))

/-- The text is accepted exactly if what follows the first delimiter is a port
number, and then its two parts are the host and the port. -/
structure ReadsExactly (cast : LexicalCast) (str : StdString) : Prop where
  accepted : (∃ h, fromString cast str = .ok h) ↔ IsPortNumeral (portText str)
  parts : ∀ h, fromString cast str = .ok h → h.host = hostText str ∧
    ∃ port, h.port = some port ∧ port.toNat = Decimal.value (portText str)

section Accepts

variable {cast : LexicalCast} {str host text : StdString} {port : UInt32}

theorem parts_delimited (hhost : delim ∉ host) :
    hostText (host ++ delim :: text) = host ∧ portText (host ++ delim :: text) = text := by
  have hpass : ∀ c ∈ host, decide (c ≠ delim) = true := by
    intro c hc
    exact decide_eq_true (fun heq => hhost (heq ▸ hc))
  unfold hostText portText
  rw [List.takeWhile_append_of_pos hpass, List.dropWhile_append_of_pos hpass,
    List.takeWhile_cons_of_neg (by simp), List.dropWhile_cons_of_neg (by simp), List.append_nil]
  exact ⟨rfl, rfl⟩

/-- A text is accepted if what is converted is a port in range. -/
theorem fromString_eq_ok (hhost : delim ∉ host) {h : HostAndPort} :
    fromString cast (host ++ delim :: text) = .ok h ↔
      ∃ port, cast.toUnsignedInt text = some port ∧ port ≤ maxPort ∧ h.host = host ∧
        h.port = some port := by
  rw [fromString_delimited cast hhost]
  cases hcast : cast.toUnsignedInt text with
  | none => simp
  | some port =>
      show fromParts host port = .ok h ↔ _
      rw [fromParts_eq_ok]
      simp

theorem le_maxPort_iff : port ≤ maxPort ↔ port.toNat ≤ 65535 := UInt32.le_iff_toNat_le

/-- A port number is converted to itself. -/
theorem readSigned_portNumeral (h : IsPortNumeral text) :
    ∃ port, readSigned text = some port ∧ port ≤ maxPort := by
  obtain ⟨hnum, hle⟩ := h
  have hvalue : (UInt32.ofNat (Decimal.value text)).toNat = Decimal.value text :=
    UInt32.toNat_ofNat_of_lt' (Nat.lt_of_le_of_lt hle (by decide))
  refine ⟨UInt32.ofNat (Decimal.value text), ?_, le_maxPort_iff.mpr (by omega)⟩
  rw [readSigned_numeral hnum]
  exact readDigits_eq_some.mpr ⟨hnum, hvalue⟩

/-- A signed port is converted too, and is no numeral. -/
theorem readSigned_signedPort (h : IsSignedPort text) :
    (∃ port, readSigned text = some port ∧ port ≤ maxPort) ∧ ¬ Decimal.IsNumeral text := by
  obtain ⟨digits, hnum, ⟨rfl, hle⟩ | ⟨rfl, hlt, hle⟩⟩ := h
  · obtain ⟨port, hport, hle⟩ := readSigned_portNumeral ⟨hnum, hle⟩
    rw [readSigned_numeral hnum] at hport
    refine ⟨⟨port, hport, hle⟩, ?_⟩
    exact fun hplus => hplus.ne_cons (by decide) digits rfl
  · have hvalue : (UInt32.ofNat (Decimal.value digits)).toNat = Decimal.value digits :=
      UInt32.toNat_ofNat_of_lt' hlt
    have hdigits : readDigits digits = some (UInt32.ofNat (Decimal.value digits)) :=
      readDigits_eq_some.mpr ⟨hnum, hvalue⟩
    refine ⟨⟨-UInt32.ofNat (Decimal.value digits), ?_, ?_⟩, ?_⟩
    · show (readDigits digits).map (fun n => -n) = _
      rw [hdigits]
      rfl
    · rw [le_maxPort_iff, UInt32.toNat_neg, hvalue]
      exact hle
    · exact fun hminus => hminus.ne_cons (by decide) digits rfl

/-- Whatever is converted to a port in range is a port number or a signed port. -/
theorem port_of_readSigned (h : readSigned text = some port) (hle : port ≤ maxPort) :
    (IsPortNumeral text ∧ port.toNat = Decimal.value text) ∨ IsSignedPort text := by
  have hbound := le_maxPort_iff.mp hle
  unfold readSigned at h
  split at h
  next digits =>
    obtain ⟨hnum, hvalue⟩ := readDigits_eq_some.mp h
    exact Or.inr ⟨digits, hnum, Or.inl ⟨rfl, by omega⟩⟩
  next digits =>
    obtain ⟨n, hn, rfl⟩ := Option.map_eq_some_iff.mp h
    obtain ⟨hnum, hvalue⟩ := readDigits_eq_some.mp hn
    rw [UInt32.toNat_neg, hvalue] at hbound
    exact Or.inr ⟨digits, hnum, Or.inr ⟨rfl, hvalue ▸ n.toNat_lt, hbound⟩⟩
  next digits =>
    obtain ⟨hnum, hvalue⟩ := readDigits_eq_some.mp h
    exact Or.inl ⟨⟨hnum, by omega⟩, hvalue⟩

end Accepts

/-- **Every text with a delimiter is read as it should be if and only if no signed
port follows the first one.** -/
theorem fromString_exact_iff (cast : LexicalCast) (hcast : cast.Documented) (str : StdString)
    (hstr : delim ∈ str) :
    ReadsExactly cast str ↔ ¬ IsSignedPort (portText str) := by
  obtain ⟨host, text, rfl, hhost⟩ := List.eq_append_cons_of_mem hstr
  obtain ⟨hhostText, hportText⟩ := @parts_delimited host text hhost
  rw [hportText]
  have hok : ∀ h, fromString cast (host ++ delim :: text) = .ok h ↔
      ∃ port, readSigned text = some port ∧ port ≤ maxPort ∧ h.host = host ∧
        h.port = some port := by
    intro h
    rw [fromString_eq_ok hhost, hcast]
  have hsome : ∀ port, readSigned text = some port → port ≤ maxPort →
      ∃ h, fromString cast (host ++ delim :: text) = .ok h := by
    intro port hport hle
    exact ⟨⟨host, some port, inRange_some hle⟩,
      (hok _).mpr ⟨port, hport, hle, rfl, rfl⟩⟩
  constructor
  · intro h hsigned
    obtain ⟨⟨port, hport, hle⟩, hnot⟩ := readSigned_signedPort hsigned
    have hnum := h.accepted.mp (hsome port hport hle)
    rw [hportText] at hnum
    exact hnot hnum.1
  · intro hsigned
    -- what is left to be converted to a port in range is a port number
    have hnumeral : ∀ port, readSigned text = some port → port ≤ maxPort →
        IsPortNumeral text ∧ port.toNat = Decimal.value text := by
      intro port hport hle
      exact (port_of_readSigned hport hle).resolve_right hsigned
    constructor
    case accepted =>
      rw [hportText]
      constructor
      · intro haccepted
        obtain ⟨h, hh⟩ := haccepted
        obtain ⟨port, hport, hle, -, -⟩ := (hok h).mp hh
        exact (hnumeral port hport hle).1
      · intro hnum
        obtain ⟨port, hport, hle⟩ := readSigned_portNumeral hnum
        exact hsome port hport hle
    case parts =>
      intro h hh
      obtain ⟨port, hport, hle, hhosts, hports⟩ := (hok h).mp hh
      rw [hhostText, hportText]
      exact ⟨hhosts, port, hports, (hnumeral port hport hle).2⟩

/-- `"h:80"` is read as it should be. -/
theorem plain_port_exact : ReadsExactly LexicalCast.cLocale [104, 58, 56, 48] := by
  refine (fromString_exact_iff LexicalCast.cLocale LexicalCast.cLocale_documented
    [104, 58, 56, 48] (by decide)).mpr ?_
  intro h
  exact (readSigned_signedPort h).2 (by decide)

/-- `"h:-4294967216"` is accepted as port 80. -/
theorem negative_port_accepted :
    fromString LexicalCast.cLocale [104, 58, 45, 52, 50, 57, 52, 57, 54, 55, 50, 49, 54]
        = fromParts [104] 80 ∧
      ¬ ReadsExactly LexicalCast.cLocale [104, 58, 45, 52, 50, 57, 52, 57, 54, 55, 50, 49, 54] := by
  have hread : fromString LexicalCast.cLocale
      [104, 58, 45, 52, 50, 57, 52, 57, 54, 55, 50, 49, 54] = fromParts [104] 80 := rfl
  refine ⟨hread, ?_⟩
  intro h
  have hnum := h.accepted.mp ⟨⟨[104], some 80, inRange_some (by decide)⟩, hread⟩
  exact absurd hnum.1 (by decide)

end HostAndPort

end EzBakeCommon.Hosts
