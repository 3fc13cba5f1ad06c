/-
  EzBakeCommon.Library.Machine — sessions of a deterministic machine.

  A machine answers a call and moves to a next state.  A SESSION records every
  call made so far, newest first, together with the state it has reached, so
  that what is claimed about runs can speak of the past as well as the present.

  Main results:
    * `run_induction` — what holds of the empty session and survives one more
      call holds of every session.
    * `run_project` — two sessions, the second making only the calls of the
      first that pass a filter, stay related if each single call keeps them so.
      With the filter that keeps everything this is lockstep simulation.
-/
import Mathlib.Data.List.Forall2
import Mathlib.Data.List.Induction
import Mathlib.Tactic.TypeStar

namespace Library

/-- A deterministic machine: a call takes a state to an answer and a next state. -/
structure Machine (S C O : Type*) where
  step : S → C → O × S

/-- One call as it happened. -/
structure Event (S C O : Type*) where
  before : S
  call : C
  answer : O
  after : S

/-- The calls made so far, NEWEST FIRST, and the state they led to. -/
structure Session (S C O : Type*) where
  history : List (Event S C O)
  state : S

namespace Machine

variable {S C O : Type*}

/-- The event of making call `c` in state `s`. -/
def event (M : Machine S C O) (s : S) (c : C) : Event S C O :=
  ⟨s, c, (M.step s c).1, (M.step s c).2⟩

/-- One more call. -/
def extend (M : Machine S C O) (r : Session S C O) (c : C) : Session S C O :=
  ⟨M.event r.state c :: r.history, (M.step r.state c).2⟩

/-- The session that makes the calls `cs`, in order, from state `s`. -/
def run (M : Machine S C O) (s : S) (cs : List C) : Session S C O :=
  cs.foldl M.extend ⟨[], s⟩

theorem run_concat (M : Machine S C O) (s : S) (cs : List C) (c : C) :
    M.run s (cs ++ [c]) = M.extend (M.run s cs) c := by
  unfold run
  rw [List.foldl_append]
  rfl

/-- The state a session has reached, without its history. -/
theorem run_state (M : Machine S C O) (s : S) (cs : List C) :
    (M.run s cs).state = cs.foldl (fun s c => (M.step s c).2) s := by
  induction cs using List.reverseRecOn with
  | nil => rfl
  | append_singleton cs c ih =>
      rw [run_concat, List.foldl_append, ← ih]
      rfl

/-- Calls made after a session are calls from the state it has reached. -/
theorem run_append (M : Machine S C O) (s : S) (cs cs' : List C) :
    (M.run s (cs ++ cs')).state = (M.run (M.run s cs).state cs').state ∧
    (M.run s (cs ++ cs')).history
      = (M.run (M.run s cs).state cs').history ++ (M.run s cs).history := by
  induction cs' using List.reverseRecOn with
  | nil =>
      rw [List.append_nil]
      exact ⟨rfl, rfl⟩
  | append_singleton cs' c ih =>
      obtain ⟨hstate, hhist⟩ := ih
      rw [← List.append_assoc, run_concat, run_concat]
      refine ⟨congrArg (fun s => (M.step s c).2) hstate, ?_⟩
      show M.event _ c :: _ = M.event _ c :: _ ++ _
      rw [hstate, hhist, List.cons_append]

/-- The events of a session are its calls. -/
theorem run_history_calls (M : Machine S C O) (s : S) (cs : List C) :
    (M.run s cs).history.map Event.call = cs.reverse := by
  induction cs using List.reverseRecOn with
  | nil => rfl
  | append_singleton cs c ih =>
      rw [run_concat, List.reverse_append]
      exact congrArg (c :: ·) ih

/-! ## §1. One session. -/

/-- **The invariant rule for sessions.** -/
theorem run_induction (M : Machine S C O) {s : S} {I : Session S C O → Prop}
    (h0 : I ⟨[], s⟩) (hstep : ∀ r c, I r → I (M.extend r c)) :
    ∀ cs : List C, I (M.run s cs) := by
  intro cs
  -- the newest call is the last of the list
  induction cs using List.reverseRecOn with
  | nil => exact h0
  | append_singleton cs c ih =>
      rw [run_concat]
      exact hstep _ c ih

/-- The invariant rule for invariants that speak of the calls themselves. -/
theorem run_calls_induction (M : Machine S C O) {s : S} {I : List C → Session S C O → Prop}
    (h0 : I [] ⟨[], s⟩) (hstep : ∀ cs c r, I cs r → I (cs ++ [c]) (M.extend r c)) :
    ∀ cs : List C, I cs (M.run s cs) := by
  intro cs
  induction cs using List.reverseRecOn with
  | nil => exact h0
  | append_singleton cs c ih =>
      rw [run_concat]
      exact hstep cs c _ ih

/-- The invariant rule for invariants of the state alone. -/
theorem state_induction (M : Machine S C O) {s : S} {I : S → Prop}
    (h0 : I s) (hstep : ∀ s c, I s → I (M.step s c).2) :
    ∀ cs : List C, I (M.run s cs).state :=
  M.run_induction (I := fun r => I r.state) h0 (fun r c h => hstep r.state c h)

/-- **Two properties of events agree along a run** if they agree at every event
    from a state in which `J` holds, and the first of them keeps `J`. -/
theorem history_iff (M : Machine S C O) {s : S} {J : S → Prop} {P Q : Event S C O → Prop}
    (h0 : J s) (hiff : ∀ s c, J s → (P (M.event s c) ↔ Q (M.event s c)))
    (hnext : ∀ s c, J s → P (M.event s c) → J (M.step s c).2) (cs : List C) :
    (∀ e ∈ (M.run s cs).history, P e) ↔ ∀ e ∈ (M.run s cs).history, Q e := by
  have key : ((∀ e ∈ (M.run s cs).history, P e) ↔ ∀ e ∈ (M.run s cs).history, Q e) ∧
      ((∀ e ∈ (M.run s cs).history, P e) → J (M.run s cs).state) := by
    refine M.run_induction (I := fun r => ((∀ e ∈ r.history, P e) ↔ ∀ e ∈ r.history, Q e) ∧
      ((∀ e ∈ r.history, P e) → J r.state)) ⟨by simp, fun _ => h0⟩ ?_ cs
    intro r c ih
    obtain ⟨hPQ, hJ⟩ := ih
    show ((∀ e ∈ M.event r.state c :: r.history, P e) ↔
      ∀ e ∈ M.event r.state c :: r.history, Q e) ∧
      ((∀ e ∈ M.event r.state c :: r.history, P e) → J (M.step r.state c).2)
    simp only [List.forall_mem_cons]
    constructor
    · constructor
      · intro h
        exact ⟨(hiff _ c (hJ h.2)).mp h.1, hPQ.mp h.2⟩
      · intro h
        have hP := hPQ.mpr h.2
        exact ⟨(hiff _ c (hJ hP)).mpr h.1, hP⟩
    · intro h
      exact hnext _ c (hJ h.2) h.1
  exact key.1

/-! ## §2. Two sessions. -/

/-- Two lists of calls that ask the same, call by call. -/
theorem forall₂_of_map_eq {C C' Q : Type*} {f : C → Q} {g : C' → Q} {P : C → Prop} :
    ∀ {cs : List C} {cs' : List C'}, cs.map f = cs'.map g → (∀ c ∈ cs, P c) →
      List.Forall₂ (fun c c' => f c = g c' ∧ P c) cs cs'
  | [], [], _, _ => List.Forall₂.nil
  | [], c' :: cs', h, _ => absurd h (by simp)
  | c :: cs, [], h, _ => absurd h (by simp)
  | c :: cs, c' :: cs', h, hP => by
      simp only [List.map_cons, List.cons.injEq] at h
      exact List.Forall₂.cons ⟨h.1, hP c List.mem_cons_self⟩
        (forall₂_of_map_eq h.2 (fun d hd => hP d (List.mem_cons_of_mem c hd)))

section Project

variable {S' C' O' : Type*}

/-- **The projection rule.**  `cs'` makes, call by call, the calls of `cs` that
    `keep` lets through; a kept call moves both sessions, a dropped one only
    the first. -/
theorem run_project (M : Machine S C O) (M' : Machine S' C' O') {s : S} {s' : S'}
    {R : Session S C O → Session S' C' O' → Prop} {Q : C → C' → Prop} (keep : C → Bool)
    (h0 : R ⟨[], s⟩ ⟨[], s'⟩)
    (hkeep : ∀ r r' c c', keep c = true → Q c c' → R r r' →
      R (M.extend r c) (M'.extend r' c'))
    (hdrop : ∀ r r' c, keep c = false → R r r' → R (M.extend r c) r') :
    ∀ (cs : List C) (cs' : List C'), List.Forall₂ Q (cs.filter keep) cs' →
      R (M.run s cs) (M'.run s' cs') := by
  have key : ∀ (cs : List C) (cs' : List C') (r : Session S C O) (r' : Session S' C' O'),
      List.Forall₂ Q (cs.filter keep) cs' → R r r' →
      R (cs.foldl M.extend r) (cs'.foldl M'.extend r') := by
    intro cs
    -- from any two related sessions, by the calls still to be made
    induction cs with
    | nil =>
        intro cs' r r' hQ hR
        cases hQ
        exact hR
    | cons c cs ih =>
        intro cs' r r' hQ hR
        cases hc : keep c with
        | false =>
            rw [List.filter_cons_of_neg (by simp [hc])] at hQ
            exact ih cs' _ r' hQ (hdrop r r' c hc hR)
        | true =>
            rw [List.filter_cons_of_pos hc] at hQ
            cases hQ with
            | @cons _ c' _ cs' hq hQ =>
                show R (cs.foldl M.extend (M.extend r c))
                  (cs'.foldl M'.extend (M'.extend r' c'))
                exact ih cs' _ _ hQ (hkeep r r' c c' hc hq hR)
  intro cs cs' hQ
  exact key cs cs' _ _ hQ h0

/-- **The lockstep rule.** -/
theorem run_lockstep (M : Machine S C O) (M' : Machine S' C' O') {s : S} {s' : S'}
    {R : Session S C O → Session S' C' O' → Prop} {Q : C → C' → Prop}
    (h0 : R ⟨[], s⟩ ⟨[], s'⟩)
    (hstep : ∀ r r' c c', Q c c' → R r r' → R (M.extend r c) (M'.extend r' c'))
    (cs : List C) (cs' : List C') (hQ : List.Forall₂ Q cs cs') :
    R (M.run s cs) (M'.run s' cs') := by
  refine M.run_project M' (fun _ => true) h0 (fun r r' c c' _ => hstep r r' c c')
    (fun _ _ _ h => absurd h (by simp)) cs cs' ?_
  rw [List.filter_true]
  exact hQ

end Project

/-- **Calls that change nothing can be left out**: the remaining ones happen in
    the same states, with the same answers. -/
theorem run_skip (M : Machine S C O) (keep : C → Bool)
    (hskip : ∀ s c, keep c = false → (M.step s c).2 = s) (s : S) (cs : List C) :
    (M.run s (cs.filter keep)).state = (M.run s cs).state ∧
    (M.run s (cs.filter keep)).history
      = (M.run s cs).history.filter (fun e => keep e.call) := by
  refine M.run_project M (Q := Eq) (R := fun r r' => r'.state = r.state ∧
    r'.history = r.history.filter (fun e => keep e.call)) keep ⟨rfl, rfl⟩ ?_ ?_ cs _
    (List.forall₂_refl _)
  · -- a kept call is the same event in both sessions
    intro r r' c c' hc hcc hR
    obtain ⟨hstate, hhist⟩ := hR
    subst hcc
    refine ⟨congrArg (fun s => (M.step s c).2) hstate, ?_⟩
    show M.event r'.state c :: r'.history = (M.event r.state c :: r.history).filter _
    rw [List.filter_cons_of_pos (by simp [event, hc]), hstate, hhist]
  · intro r r' c hc hR
    obtain ⟨hstate, hhist⟩ := hR
    refine ⟨hstate.trans (hskip r.state c hc).symm, ?_⟩
    show r'.history = (M.event r.state c :: r.history).filter _
    rw [List.filter_cons_of_neg (by simp [event, hc]), hhist]

/-! ## §3. Programs that use the machine. -/

/-- Some calls lead from `s` to `s'`. -/
def Reaches (M : Machine S C O) (s s' : S) : Prop :=
  ∃ cs : List C, cs.foldl (fun s c => (M.step s c).2) s = s'

namespace Reaches

variable {M : Machine S C O} {s s' s'' : S}

theorem refl : M.Reaches s s := ⟨[], rfl⟩

theorem call (c : C) : M.Reaches s (M.step s c).2 := ⟨[c], rfl⟩

theorem trans (h : M.Reaches s s') (h' : M.Reaches s' s'') : M.Reaches s s'' := by
  obtain ⟨cs, hcs⟩ := h
  obtain ⟨cs', hcs'⟩ := h'
  refine ⟨cs ++ cs', ?_⟩
  rw [List.foldl_append, hcs, hcs']

/-- The invariant rule for programs that use the machine. -/
theorem invariant {I : S → Prop} (hstep : ∀ s c, I s → I (M.step s c).2)
    (h : M.Reaches s s') (hs : I s) : I s' := by
  obtain ⟨cs, rfl⟩ := h
  induction cs generalizing s with
  | nil => exact hs
  | cons c cs ih => exact ih (hstep s c hs)

end Reaches

end Machine

end Library
