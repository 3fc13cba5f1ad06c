/-
  EzBakeCommon.Hosts.Order — operator< of HostAndPort.

  Hosts come first, then ports, a host without a port before the same host with
  any port.  Two objects without a port and with the same host are equal, and
  `operator<` says of each that it is less than the other.  So the comparison is a
  strict total order exactly on objects that all have a port
  (`strictTotalOn_iff`); it is transitive on all of them.
-/
import EzBakeCommon.Hosts.HostAndPort
import Mathlib.Data.Set.Basic

namespace EzBakeCommon.Hosts.HostAndPort

variable {h h' h'' : HostAndPort}

/-! ## §1. The comparisons. -/

/-- `operator==` is equality. -/
theorem eq_iff : h.eq h' = true ↔ h = h' := by
  obtain ⟨host, port, inRange⟩ := h
  obtain ⟨host', port', inRange'⟩ := h'
  unfold eq
  rw [mk.injEq]
  by_cases hhost : host = host'
  · rw [if_pos hhost]
    cases port <;> cases port' <;> simp [hhost]
  · rw [if_neg hhost]
    simp [hhost]

theorem ne_iff : h.ne h' = true ↔ h ≠ h' := by
  unfold ne
  rw [Bool.not_eq_true', ← Bool.not_eq_true, eq_iff]

/-- Hosts first; on a tie no port is before any, also before no port. -/
theorem lt_iff : h.lt h' = true ↔ h.host < h'.host ∨
    (h.host = h'.host ∧ (h.port = none ∨
      ∃ port port', h.port = some port ∧ h'.port = some port' ∧ port < port')) := by
  unfold lt
  by_cases hhost : h.host = h'.host
  · rw [if_pos hhost, hhost]
    have hirrefl : ¬ h'.host < h'.host := List.lt_irrefl _
    cases h.port <;> cases h'.port <;> simp [hirrefl]
  · rw [if_neg hhost]
    simp [hhost]

/-- **An object is less than itself exactly if it has no port.** -/
theorem lt_self_iff : h.lt h = true ↔ h.port = none := by
  rw [lt_iff]
  constructor
  · intro hlt
    rcases hlt with hlt | ⟨-, hnone | ⟨port, port', hport, hport', hlt⟩⟩
    · exact absurd hlt (List.lt_irrefl _)
    · exact hnone
    · rw [hport] at hport'
      obtain rfl := Option.some.inj hport'
      exact absurd hlt (UInt32.lt_irrefl _)
  · intro hnone
    exact Or.inr ⟨rfl, Or.inl hnone⟩

theorem lt_trans (hlt : h.lt h' = true) (hlt' : h'.lt h'' = true) : h.lt h'' = true := by
  rw [lt_iff] at hlt hlt' ⊢
  rcases hlt with hlt | ⟨heq, hport⟩
  · rcases hlt' with hlt' | ⟨heq', -⟩
    · exact Or.inl (List.lt_trans hlt hlt')
    · exact Or.inl (heq' ▸ hlt)
  · rcases hlt' with hlt' | ⟨heq', hport'⟩
    · exact Or.inl (heq ▸ hlt')
    · refine Or.inr ⟨heq.trans heq', ?_⟩
      rcases hport with hnone | ⟨p, q, hp, hq, hpq⟩
      · exact Or.inl hnone
      · -- a port that another is less than is one
        rcases hport' with hnone' | ⟨q', r, hq', hr, hqr⟩
        · rw [hnone'] at hq
          exact absurd hq (by simp)
        · rw [hq] at hq'
          obtain rfl := Option.some.inj hq'
          exact Or.inr ⟨p, r, hp, hr, UInt32.lt_trans hpq hqr⟩

/-- Any two objects are comparable. -/
theorem lt_or_eq_or_lt : h.lt h' = true ∨ h = h' ∨ h'.lt h = true := by
  rw [lt_iff, lt_iff]
  rcases Std.lt_trichotomy h.host h'.host with hlt | heq | hgt
  · exact Or.inl (Or.inl hlt)
  · cases hp : h.port with
    | none => exact Or.inl (Or.inr ⟨heq, Or.inl rfl⟩)
    | some p =>
        cases hq : h'.port with
        | none => exact Or.inr (Or.inr (Or.inr ⟨heq.symm, Or.inl rfl⟩))
        | some q =>
            rcases Std.lt_trichotomy p q with hlt | rfl | hgt
            · exact Or.inl (Or.inr ⟨heq, Or.inr ⟨p, q, rfl, rfl, hlt⟩⟩)
            · refine Or.inr (Or.inl (eq_iff.mp ?_))
              unfold eq
              rw [if_pos heq, hp, hq]
              exact decide_eq_true rfl
            · exact Or.inr (Or.inr (Or.inr ⟨heq.symm, Or.inr ⟨q, p, rfl, rfl, hgt⟩⟩))
  · exact Or.inr (Or.inr (Or.inl hgt))

/-! ## §2. A strict total order. -/

/-- Exactly one of three. -/
def ExactlyOne (a b c : Bool) : Prop :=
  (a = true ∧ b = false ∧ c = false) ∨ (a = false ∧ b = true ∧ c = false) ∨
    (a = false ∧ b = false ∧ c = true)

/-- On these objects `operator<` is a strict total order that agrees with
`operator==`. -/
structure StrictTotalOn (s : Set HostAndPort) : Prop where
  trichotomy : ∀ a ∈ s, ∀ b ∈ s, ExactlyOne (a.lt b) (a.eq b) (b.lt a)
  irrefl : ∀ a ∈ s, a.lt a = false
  trans : ∀ a ∈ s, ∀ b ∈ s, ∀ c ∈ s, a.lt b = true → b.lt c = true → a.lt c = true

/-- **`operator<` is a strict total order on objects if and only if all of them have
a port.** -/
theorem strictTotalOn_iff (s : Set HostAndPort) :
    StrictTotalOn s ↔ ∀ a ∈ s, a.hasPort = true := by
  have hself : ∀ a : HostAndPort, a.lt a = false ↔ a.hasPort = true := by
    intro a
    rw [← Bool.not_eq_true, lt_self_iff]
    unfold hasPort
    cases a.port <;> simp
  constructor
  · intro h a ha
    exact (hself a).mp (h.irrefl a ha)
  · intro hports
    have hirrefl : ∀ a ∈ s, a.lt a = false := fun a ha => (hself a).mpr (hports a ha)
    refine ⟨?_, hirrefl, fun a _ b _ c _ => lt_trans⟩
    intro a ha b hb
    -- two of the three would make an object less than itself
    have hnot : ∀ c ∈ s, c.lt c ≠ true := fun c hc => by simp [hirrefl c hc]
    rcases @lt_or_eq_or_lt a b with hlt | rfl | hgt
    · refine Or.inl ⟨hlt, ?_, ?_⟩
      · rw [← Bool.not_eq_true, eq_iff]
        intro heq
        exact hnot a ha (heq ▸ hlt)
      · rw [← Bool.not_eq_true]
        intro hgt
        exact hnot a ha (lt_trans hlt hgt)
    · exact Or.inr (Or.inl ⟨hirrefl a ha, eq_iff.mpr rfl, hirrefl a ha⟩)
    · refine Or.inr (Or.inr ⟨?_, ?_, hgt⟩)
      · rw [← Bool.not_eq_true]
        intro hlt
        exact hnot a ha (lt_trans hlt hgt)
      · rw [← Bool.not_eq_true, eq_iff]
        intro heq
        exact hnot b hb (heq ▸ hgt)

/-- A host without a port is less than itself. -/
theorem portless_below_itself :
    ¬ StrictTotalOn Set.univ ∧ (fromHost [104]).lt (fromHost [104]) = true := by
  have hlt : (fromHost [104]).lt (fromHost [104]) = true := by decide
  refine ⟨?_, hlt⟩
  intro h
  rw [h.irrefl _ (Set.mem_univ _)] at hlt
  exact Bool.noConfusion hlt

end EzBakeCommon.Hosts.HostAndPort
