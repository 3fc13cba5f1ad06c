/-
  EzBakeCommon.Hosts.Printing — a printed object is known by its text.

  `toString` writes the delimiter between the host and the port, and after a host
  without one.  The host may have delimiters itself, so `fromString` may read the
  text as another object; but no digit is a delimiter, so the last one in the
  text is the one `toString` has written, and what follows it is the port
  (`toString_eq_iff`).
-/
import EzBakeCommon.Hosts.Order

namespace EzBakeCommon.Hosts.HostAndPort

open Library

/-- What is written after the delimiter. -/
def writtenPort : Option UInt32 → StdString
  | some port => Decimal.text port.toNat
  | none => []

theorem toString_eq (h : HostAndPort) : h.toString = h.host ++ delim :: writtenPort h.port := by
  obtain ⟨host, port, inRange⟩ := h
  cases port with
  | some port => exact List.append_assoc host [delim] _
  | none => rfl

theorem delim_not_mem_writtenPort (port : Option UInt32) : delim ∉ writtenPort port := by
  cases port with
  | some port =>
      intro h
      have hdigit := (Decimal.isNumeral_text port.toNat).2 delim h
      exact absurd hdigit (by decide)
  | none => exact List.not_mem_nil

/-- Different ports are written differently, and none as no port at all. -/
theorem writtenPort_injective {port port' : Option UInt32}
    (h : writtenPort port = writtenPort port') : port = port' := by
  have hvalue : ∀ p : UInt32, Decimal.value (writtenPort (some p)) = p.toNat :=
    fun p => Decimal.value_text p.toNat
  have hne : ∀ p : UInt32, writtenPort (some p) ≠ [] := fun p => (Decimal.isNumeral_text p.toNat).1
  cases port with
  | some p =>
      cases port' with
      | some p' =>
          have hnat := congrArg Decimal.value h
          rw [hvalue, hvalue] at hnat
          exact congrArg some (UInt32.toNat_inj.mp hnat)
      | none => exact absurd h (hne p)
  | none =>
      cases port' with
      | some p' => exact absurd h.symm (hne p')
      | none => rfl

/-- After the last delimiter there is no other. -/
theorem nothing_between {between after after' : StdString} (h : delim ∉ after)
    (heq : delim :: after = between ++ delim :: after') : between = [] ∧ after = after' := by
  cases between with
  | nil => exact ⟨rfl, List.tail_eq_of_cons_eq heq⟩
  | cons c between =>
      have hafter : after = between ++ delim :: after' := List.tail_eq_of_cons_eq heq
      rw [hafter] at h
      exact absurd (List.mem_append_right between List.mem_cons_self) h

/-- The last delimiter parts a text in one way. -/
theorem last_delimiter {before before' after after' : StdString} (h : delim ∉ after)
    (h' : delim ∉ after') (heq : before ++ delim :: after = before' ++ delim :: after') :
    before = before' ∧ after = after' := by
  rcases List.append_eq_append_iff.mp heq with ⟨c, hbefore, hrest⟩ | ⟨c, hbefore, hrest⟩
  · obtain ⟨hnil, hafter⟩ := nothing_between h hrest
    rw [hnil, List.append_nil] at hbefore
    exact ⟨hbefore.symm, hafter⟩
  · obtain ⟨hnil, hafter⟩ := nothing_between h' hrest
    rw [hnil, List.append_nil] at hbefore
    exact ⟨hbefore, hafter.symm⟩

/-- **Two objects print the same text exactly if they are equal.** -/
theorem toString_eq_iff (h h' : HostAndPort) :
    h.toString = h'.toString ↔ h.eq h' = true := by
  rw [eq_iff]
  constructor
  · intro htext
    rw [toString_eq, toString_eq] at htext
    obtain ⟨hhost, hport⟩ := last_delimiter (delim_not_mem_writtenPort h.port)
      (delim_not_mem_writtenPort h'.port) htext
    have hports := writtenPort_injective hport
    obtain ⟨host, port, inRange⟩ := h
    obtain ⟨host', port', inRange'⟩ := h'
    dsimp only at hhost hports
    subst hhost
    subst hports
    rfl
  · intro heq
    rw [heq]

end EzBakeCommon.Hosts.HostAndPort
