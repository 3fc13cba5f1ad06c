/-
  EzBakeCommon.Properties.Threads — threads that share an EzProperties.

  The tables of `java.util.Properties` have a lock, and the provider is set under it;
  but no method of EzProperties holds it for longer than one call of the base class.
  `setProperty` looks whether there is a provider, reads the field again, and
  stores what it has encrypted; `mergeProperties` looks for collisions, and then puts
  all of the argument; a load does so file by file.  Other threads may act in between.
  A call that no other thread interrupts is the method (`uninterrupted_call`).

  So a merge that may not override can override all the same, if the name has come up
  after it has looked: what is shown at some moment stays for good under calls that
  may not override exactly if no thread has looked already and is about to put another
  value (`strict_interleaving_keeps_iff`).

  The reading methods change nothing and take no part here.  A thread sees what was
  written last.
-/
import EzBakeCommon.Properties.Journal
import Mathlib.Logic.Function.Basic
import Mathlib.Logic.Function.Iterate

namespace EzBakeCommon.Properties.Threads

open Library JavaString
open EzProperties (Op Answer Directory)

/-! ## §1. Threads. -/

/-- Where a thread is. -/
inductive Pc where
  /-- Between calls; how the last one ended. -/
  | idle (verdict : Option (Except JavaException Unit))
  /-- In `setProperty`: there was a provider. -/
  | encrypting (key : JavaString) (value : Option JavaString)
  /-- In `setProperty`: this is stored next. -/
  | storing (key : JavaString) (value : Option JavaString)
  /-- In `loadFromDirectory`: these files are still to be merged. -/
  | loading (ds : List (Except JavaException Table)) (shouldOverride : Bool)
  /-- In `mergeProperties`, of a load that has these files left: nothing collides, and
  `putAll` is next. -/
  | putting (toMerge : PropertiesRef) (ds : List (Except JavaException Table))
      (shouldOverride : Bool)

/-- The shared object, and every thread. -/
structure World (Tid : Type*) where
  object : EzProperties
  pc : Tid → Pc

/-- What may happen next. -/
inductive Action (Tid Url : Type*) where
  | invoke (t : Tid) (op : Op Url)
  | proceed (t : Tid)

variable {Tid Url : Type*} [DecidableEq Tid]

/-- Thread `t` moves on, and leaves the shared object like this. -/
def World.goto (w : World Tid) (t : Tid) (object : EzProperties) (pc : Pc) : World Tid :=
  ⟨object, Function.update w.pc t pc⟩

/-- Thread `t` returns or throws. -/
def World.finish (w : World Tid) (t : Tid) (result : Except JavaException Unit × EzProperties) :
    World Tid :=
  w.goto t result.2 (.idle (some result.1))

section Steps

variable (w : World Tid) (t : Tid)

/-- `mergeProperties` as far as `putAll`. -/
def check (toMerge : PropertiesRef) (ds : List (Except JavaException Table))
    (shouldOverride : Bool) : World Tid :=
  if !shouldOverride && toMerge.isEmpty then w.finish t (.error .nullPointer, w.object)
  else if !shouldOverride && !decide (w.object.getCollisions toMerge = ∅) then
    w.finish t (.error (.duplicateProperty (w.object.getCollisions toMerge)), w.object)
  else w.goto t w.object (.putting toMerge ds shouldOverride)

/-- The next step of a call that has begun. -/
def proceed : World Tid :=
  match w.pc t with
  | .idle _ => w
  -- the field is read for the second time
  | .encrypting key value =>
      match w.object.cryptoProvider with
      | none => w.finish t (.error .nullPointer, w.object)
      | some provider =>
          match encryptPropertyValue value provider with
          | .ok encrypted => w.goto t w.object (.storing key (some encrypted))
          | .error x => w.finish t (.error x, w.object)
  | .storing key value => w.finish t (w.object.superSetProperty key value)
  | .loading [] _ => w.finish t (.ok (), w.object)
  | .loading (.error x :: _) _ => w.finish t (.error x, w.object)
  | .loading (.ok pro :: ds) shouldOverride => check w t [⟨.properties, pro⟩] ds shouldOverride
  | .putting toMerge ds shouldOverride =>
      match w.object.putAll toMerge with
      | (.ok _, object) => w.goto t object (.loading ds shouldOverride)
      | (.error x, object) => w.finish t (.error x, object)

/-- The first step of a call. -/
def invoke : Op Url → World Tid
  | .setTextCryptoProvider provider => w.finish t (.ok (), w.object.setTextCryptoProvider provider)
  | .setProperty key value isEncrypted =>
      if isEncrypted then
        match w.object.cryptoProvider with
        | none => w.finish t
            (.error (.illegalState "Crypto provider has not been initialized!"), w.object)
        | some _ => w.goto t w.object (.encrypting key value)
      else w.goto t w.object (.storing key value)
  | .mergeProperties toMerge shouldOverride => check w t toMerge [] shouldOverride
  | .loadFromDirectory directory globPattern shouldOverride =>
      match directory with
      | none => w.finish t
          (.error (.illegalArgument "The directory null is null or does not exist!"), w.object)
      | some directory =>
          if !directory.isDirectory then
            w.finish t (.error (.illegalArgument
              ("The directory " ++ directory.name ++ " is null or does not exist!")), w.object)
          else
            match directory.stream globPattern with
            | .error x => w.finish t (.error x, w.object)
            | .ok ds => w.goto t w.object (.loading ds shouldOverride)
  | .loadFromClassPath cp resource shouldOverride =>
      match cp.getResource resource with
      | none => w.finish t (.error (.illegalArgument (resource.getD "null"
          ++ " is either or null or does not exist on the class path!")), w.object)
      | some resourceUrl =>
          match cp.load resourceUrl with
          | .ok toMerge => check w t [⟨.properties, toMerge⟩] [] shouldOverride
          | .error x => w.finish t (.error x, w.object)
  | _ => w

/-- One action; one that is not possible does nothing. -/
def act : Action Tid Url → World Tid
  | .invoke t op =>
      match w.pc t with
      | .idle _ => invoke w t op
      | _ => w
  | .proceed t => proceed w t

end Steps

/-- The threads as one machine. -/
def threads (Tid Url : Type*) [DecidableEq Tid] : Machine (World Tid) (Action Tid Url) Unit :=
  ⟨fun w a => ((), act w a)⟩

/-- The world that a schedule leads to, from idle threads. -/
def interleaving (e : EzProperties) (schedule : List (Action Tid Url)) : World Tid :=
  ((threads Tid Url).run ⟨e, fun _ => .idle none⟩ schedule).state

/-! ## §2. One thread alone. -/

section Alone

/-- What follows a merge. -/
def World.afterMerge (w : World Tid) (t : Tid) (ds : List (Except JavaException Table))
    (shouldOverride : Bool) : Except JavaException Unit × EzProperties → World Tid
  | (.ok _, object) => w.goto t object (.loading ds shouldOverride)
  | (.error x, object) => w.finish t (.error x, object)

variable {w w' w'' : World Tid} {t : Tid}

@[simp] theorem goto_pc (object : EzProperties) (pc : Pc) : (w.goto t object pc).pc t = pc :=
  Function.update_self _ _ _

theorem goto_goto (object object' : EzProperties) (pc pc' : Pc) :
    (w.goto t object pc).goto t object' pc' = w.goto t object' pc' := by
  unfold World.goto
  rw [Function.update_idem]

theorem finish_goto (object : EzProperties) (pc : Pc)
    (result : Except JavaException Unit × EzProperties) :
    (w.goto t object pc).finish t result = w.finish t result := goto_goto _ _ _ _

theorem afterMerge_goto (object : EzProperties) (pc : Pc) (ds : List (Except JavaException Table))
    (shouldOverride : Bool) (result : Except JavaException Unit × EzProperties) :
    (w.goto t object pc).afterMerge t ds shouldOverride result
      = w.afterMerge t ds shouldOverride result := by
  obtain ⟨verdict, object'⟩ := result
  cases verdict with
  | ok u => exact goto_goto _ _ _ _
  | error x => exact finish_goto _ _ _

theorem proceed_encrypting {key : JavaString} {value : Option JavaString}
    (hpc : w.pc t = .encrypting key value) {provider : TextCryptoProvider}
    (hprovider : w.object.cryptoProvider = some provider) :
    proceed w t = match encryptPropertyValue value provider with
      | .ok encrypted => w.goto t w.object (.storing key (some encrypted))
      | .error x => w.finish t (.error x, w.object) := by
  unfold proceed
  rw [hpc]
  dsimp only
  rw [hprovider]

theorem proceed_storing {key : JavaString} {value : Option JavaString}
    (hpc : w.pc t = .storing key value) :
    proceed w t = w.finish t (w.object.superSetProperty key value) := by
  unfold proceed
  rw [hpc]

theorem proceed_putting {toMerge : PropertiesRef} {ds : List (Except JavaException Table)}
    {shouldOverride : Bool} (hpc : w.pc t = .putting toMerge ds shouldOverride) :
    proceed w t = w.afterMerge t ds shouldOverride (w.object.putAll toMerge) := by
  unfold proceed
  rw [hpc]
  rfl

/-- Thread `t` gets from one world to the other by steps of its own. -/
def Alone (t : Tid) (w w' : World Tid) : Prop := ∃ n, (fun w => proceed w t)^[n] w = w'

theorem Alone.refl (t : Tid) (w : World Tid) : Alone t w w := ⟨0, rfl⟩

theorem Alone.step (h : Alone t (proceed w t) w') : Alone t w w' := by
  obtain ⟨n, hn⟩ := h
  exact ⟨n + 1, hn⟩

theorem Alone.trans (h : Alone t w w') (h' : Alone t w' w'') : Alone t w w'' := by
  obtain ⟨n, rfl⟩ := h
  obtain ⟨n', rfl⟩ := h'
  exact ⟨n' + n, Function.iterate_add_apply _ n' n w⟩

/-- **A merge alone is `mergeProperties`.** -/
theorem check_alone (w : World Tid) (t : Tid) (toMerge : PropertiesRef)
    (ds : List (Except JavaException Table)) (shouldOverride : Bool) :
    Alone t (check w t toMerge ds shouldOverride)
      (w.afterMerge t ds shouldOverride (w.object.mergeProperties toMerge shouldOverride)) := by
  unfold check EzProperties.mergeProperties
  split
  · exact Alone.refl t _
  · split
    · exact Alone.refl t _
    · refine Alone.step ?_
      rw [proceed_putting (goto_pc _ _), afterMerge_goto]
      exact Alone.refl t _

/-- **A load alone is the loop of `loadFromDirectory`.** -/
theorem load_alone (t : Tid) (shouldOverride : Bool) (ds : List (Except JavaException Table)) :
    ∀ w : World Tid, w.pc t = .loading ds shouldOverride →
      Alone t w (w.finish t (EzProperties.loadEach shouldOverride ds w.object)) := by
  induction ds with
  | nil =>
      intro w hpc
      refine Alone.step ?_
      unfold proceed
      rw [hpc]
      exact Alone.refl t _
  | cons d ds ih =>
      intro w hpc
      refine Alone.step ?_
      unfold proceed
      rw [hpc]
      cases d with
      | error x => exact Alone.refl t _
      | ok pro =>
          refine (check_alone w t [⟨.properties, pro⟩] ds shouldOverride).trans ?_
          unfold EzProperties.loadEach
          cases w.object.mergeProperties [⟨.properties, pro⟩] shouldOverride with
          | mk verdict object =>
              cases verdict with
              | error x => exact Alone.refl t _
              | ok u =>
                  have hrest := ih (w.goto t object (.loading ds shouldOverride)) (goto_pc _ _)
                  rw [finish_goto] at hrest
                  exact hrest

/-- A merge with no files behind it. -/
theorem merge_alone (w : World Tid) (t : Tid) (toMerge : PropertiesRef) (shouldOverride : Bool) :
    Alone t (check w t toMerge [] shouldOverride)
      (w.finish t (w.object.mergeProperties toMerge shouldOverride)) := by
  refine (check_alone w t toMerge [] shouldOverride).trans ?_
  cases w.object.mergeProperties toMerge shouldOverride with
  | mk verdict object =>
      cases verdict with
      | error x => exact Alone.refl t _
      | ok u =>
          have hreturn := load_alone t shouldOverride []
            (w.goto t object (.loading [] shouldOverride)) (goto_pc _ _)
          rw [finish_goto] at hreturn
          exact hreturn

/-- Storing alone is the method of the base class. -/
theorem store_alone (w : World Tid) (t : Tid) (key : JavaString) (value : Option JavaString) :
    Alone t (w.goto t w.object (.storing key value))
      (w.finish t (w.object.superSetProperty key value)) := by
  refine Alone.step ?_
  rw [proceed_storing (goto_pc _ _), finish_goto]
  exact Alone.refl t _

/-- The provider is still there when the field is read again. -/
theorem encrypt_alone (key : JavaString) (value : Option JavaString)
    {provider : TextCryptoProvider} (hprovider : w.object.cryptoProvider = some provider) :
    Alone t (w.goto t w.object (.encrypting key value))
      (w.finish t (match encryptPropertyValue value provider with
        | .ok encrypted => w.object.superSetProperty key (some encrypted)
        | .error x => (.error x, w.object))) := by
  refine Alone.step ?_
  rw [proceed_encrypting (goto_pc _ _) hprovider]
  cases encryptPropertyValue value provider with
  | error x =>
      dsimp only
      rw [finish_goto]
      exact Alone.refl t _
  | ok encrypted =>
      dsimp only
      rw [goto_goto]
      exact store_alone w t key (some encrypted)

/-- **`setProperty` alone.** -/
theorem setProperty_alone (w : World Tid) (t : Tid) (key : JavaString) (value : Option JavaString)
    (isEncrypted : Bool) :
    Alone t (invoke w t (.setProperty key value isEncrypted : Op Url))
      (w.finish t (w.object.setProperty key value isEncrypted)) := by
  unfold EzProperties.setProperty invoke
  dsimp only
  cases isEncrypted with
  | false => exact store_alone w t key value
  | true =>
      rw [if_pos rfl, if_pos rfl]
      cases hprovider : w.object.cryptoProvider with
      | none => exact Alone.refl t _
      | some provider => exact encrypt_alone key value hprovider

/-- **`loadFromDirectory` alone.** -/
theorem loadFromDirectory_alone (w : World Tid) (t : Tid) (directory : Option Directory)
    (globPattern : String) (shouldOverride : Bool) :
    Alone t (invoke w t (.loadFromDirectory directory globPattern shouldOverride : Op Url))
      (w.finish t (w.object.loadFromDirectory directory globPattern shouldOverride)) := by
  unfold EzProperties.loadFromDirectory invoke
  dsimp only
  cases directory with
  | none => exact Alone.refl t _
  | some directory =>
      dsimp only
      split
      · exact Alone.refl t _
      · cases directory.stream globPattern with
        | error x => exact Alone.refl t _
        | ok ds =>
            have hload := load_alone t shouldOverride ds
              (w.goto t w.object (.loading ds shouldOverride)) (goto_pc _ _)
            rw [finish_goto] at hload
            exact hload

/-- **`loadFromClassPath` alone.** -/
theorem loadFromClassPath_alone (w : World Tid) (t : Tid) (cp : ClassPath Url)
    (resource : Option String) (shouldOverride : Bool) :
    Alone t (invoke w t (.loadFromClassPath cp resource shouldOverride))
      (w.finish t (w.object.loadFromClassPath cp resource shouldOverride)) := by
  unfold EzProperties.loadFromClassPath invoke
  dsimp only
  cases cp.getResource resource with
  | none => exact Alone.refl t _
  | some resourceUrl =>
      dsimp only
      cases cp.load resourceUrl with
      | error x => exact Alone.refl t _
      | ok toMerge => exact merge_alone w t [⟨.properties, toMerge⟩] shouldOverride

/-- The call is one of those that change the object. -/
def isWrite : Op Url → Bool
  | .getProperty _ => false
  | .getPropertyOr _ _ => false
  | .getCollisions _ => false
  | _ => true

/-- **A call that no other thread interrupts is the method**: the thread comes to its end, the
object is what the method makes of it, and the call ends as the method does. -/
theorem uninterrupted_call {before : Option (Except JavaException Unit)}
    (hpc : w.pc t = .idle before) {op : Op Url} (hop : isWrite op = true) :
    ∃ verdict, (w.object.step op).1 = verdict.map (fun _ => .done) ∧
      Alone t (act w (.invoke t op)) (w.finish t (verdict, (w.object.step op).2)) := by
  have hinvoke : act w (.invoke t op) = invoke w t op := by
    show (match w.pc t with
      | .idle _ => invoke w t op
      | _ => w) = _
    rw [hpc]
  rw [hinvoke]
  cases op with
  | setTextCryptoProvider provider => exact ⟨.ok (), rfl, Alone.refl t _⟩
  | setProperty key value isEncrypted =>
      exact ⟨_, rfl, setProperty_alone w t key value isEncrypted⟩
  | mergeProperties toMerge shouldOverride =>
      exact ⟨_, rfl, merge_alone w t toMerge shouldOverride⟩
  | loadFromDirectory directory globPattern shouldOverride =>
      exact ⟨_, rfl, loadFromDirectory_alone w t directory globPattern shouldOverride⟩
  | loadFromClassPath cp resource shouldOverride =>
      exact ⟨_, rfl, loadFromClassPath_alone w t cp resource shouldOverride⟩
  | getProperty key => exact absurd hop Bool.false_ne_true
  | getPropertyOr key defaultValue => exact absurd hop Bool.false_ne_true
  | getCollisions toCheck => exact absurd hop Bool.false_ne_true

end Alone

/-! ## §3. Calls that may not override. -/

/-- The thread is in no call that may override. -/
def Pc.isStrict : Pc → Bool
  | .idle _ => true
  | .encrypting _ _ => false
  | .storing _ _ => false
  | .loading _ shouldOverride => !shouldOverride
  | .putting _ _ shouldOverride => !shouldOverride

/-- No call that may override begins. -/
def Action.isStrict : Action Tid Url → Bool
  | .invoke _ op => op.isStrict
  | .proceed _ => true

/-- The entries that `putAll` takes: those of the argument's own table. -/
def entries : PropertiesRef → Table
  | [] => ∅
  | layer :: _ => layer.table

section Strict

variable {w : World Tid}

/-- Nothing that the object shows is in what thread `t` has looked at. -/
def Fresh (w : World Tid) (pc : Pc) : Prop :=
  ∀ toMerge ds shouldOverride, pc = .putting toMerge ds shouldOverride →
    ∀ key value, w.object.toProperties.raw.lookup key = some value →
      (entries toMerge).lookup key = none

/-- The raw values that can be seen are the same, and the thread that has moved on, if
it is about to put anything, has just looked. -/
structure Quiet (w w' : World Tid) : Prop where
  moved : ∃ t object pc, w' = w.goto t object pc ∧
    object.toProperties.raw = w.object.toProperties.raw ∧ pc.isStrict = true ∧ Fresh w pc

theorem Quiet.finish (w : World Tid) (t : Tid) (verdict : Except JavaException Unit) :
    Quiet w (w.finish t (verdict, w.object)) :=
  ⟨t, w.object, _, rfl, rfl, rfl, fun _ _ _ h => absurd h (by simp)⟩

/-- **A strict merge looks before it writes.** -/
theorem Quiet.check (w : World Tid) (t : Tid) (toMerge : PropertiesRef)
    (ds : List (Except JavaException Table)) : Quiet w (check w t toMerge ds false) := by
  unfold Threads.check
  split
  · exact Quiet.finish w t _
  · split
    · exact Quiet.finish w t _
    next hcollides =>
      have hnone : w.object.getCollisions toMerge = ∅ := by
        by_contra hne
        exact hcollides (by simp [hne])
      refine ⟨t, w.object, _, rfl, rfl, rfl, ?_⟩
      intro toMerge' ds' shouldOverride' hpc key value hshown
      obtain ⟨rfl, rfl, rfl⟩ : toMerge = toMerge' ∧ ds = ds' ∧ false = shouldOverride' := by
        simpa using hpc
      cases toMerge with
      | nil => rfl
      | cons layer defaults =>
          cases hown : layer.table.lookup key with
          | none => exact hown
          | some v => exact absurd hnone (collisions_iff.mpr ⟨key, value, v, hshown, raw_own hown⟩)

/-- The first step of a strict call cannot be seen. -/
theorem invoke_strict (w : World Tid) (t : Tid) {op : Op Url} (hop : op.isStrict = true) :
    invoke w t op = w ∨ Quiet w (invoke w t op) := by
  cases op with
  | setTextCryptoProvider provider =>
      exact Or.inr ⟨t, w.object.setTextCryptoProvider provider, _, rfl, rfl, rfl,
        fun _ _ _ h => absurd h (by simp)⟩
  | setProperty key value isEncrypted => exact absurd hop Bool.false_ne_true
  | mergeProperties toMerge shouldOverride =>
      obtain rfl : shouldOverride = false := by simpa [EzProperties.Op.isStrict] using hop
      exact Or.inr (Quiet.check w t toMerge [])
  | loadFromDirectory directory globPattern shouldOverride =>
      obtain rfl : shouldOverride = false := by simpa [EzProperties.Op.isStrict] using hop
      refine Or.inr ?_
      unfold invoke
      dsimp only
      cases directory with
      | none => exact Quiet.finish w t _
      | some directory =>
          dsimp only
          split
          · exact Quiet.finish w t _
          · cases directory.stream globPattern with
            | error x => exact Quiet.finish w t _
            | ok ds => exact ⟨t, w.object, .loading ds false, rfl, rfl, rfl,
                fun _ _ _ h => absurd h (by simp)⟩
  | loadFromClassPath cp resource shouldOverride =>
      obtain rfl : shouldOverride = false := by simpa [EzProperties.Op.isStrict] using hop
      refine Or.inr ?_
      unfold invoke
      dsimp only
      cases cp.getResource resource with
      | none => exact Quiet.finish w t _
      | some resourceUrl =>
          dsimp only
          cases cp.load resourceUrl with
          | error x => exact Quiet.finish w t _
          | ok toMerge => exact Quiet.check w t [⟨.properties, toMerge⟩] []
  | getProperty key => exact Or.inl rfl
  | getPropertyOr key defaultValue => exact Or.inl rfl
  | getCollisions toCheck => exact Or.inl rfl

/-- A further step of a strict call is the `putAll` of a merge, or cannot be seen. -/
theorem proceed_strict {t : Tid} (hstrict : (w.pc t).isStrict = true) :
    proceed w t = w ∨ Quiet w (proceed w t) ∨
      ∃ layer defaults ds, w.pc t = .putting (layer :: defaults) ds false ∧
        proceed w t = w.goto t (w.object.withEntries layer.table) (.loading ds false) := by
  cases hpc : w.pc t with
  | idle verdict =>
      unfold proceed
      rw [hpc]
      exact Or.inl rfl
  | encrypting key value =>
      rw [hpc] at hstrict
      exact absurd hstrict Bool.false_ne_true
  | storing key value =>
      rw [hpc] at hstrict
      exact absurd hstrict Bool.false_ne_true
  | loading ds shouldOverride =>
      rw [hpc] at hstrict
      obtain rfl : shouldOverride = false := by simpa [Pc.isStrict] using hstrict
      refine Or.inr (Or.inl ?_)
      unfold proceed
      rw [hpc]
      cases ds with
      | nil => exact Quiet.finish w t _
      | cons d ds =>
          cases d with
          | error x => exact Quiet.finish w t _
          | ok pro => exact Quiet.check w t [⟨.properties, pro⟩] ds
  | putting toMerge ds shouldOverride =>
      rw [hpc] at hstrict
      obtain rfl : shouldOverride = false := by simpa [Pc.isStrict] using hstrict
      rw [proceed_putting hpc]
      cases toMerge with
      | nil => exact Or.inr (Or.inl (Quiet.finish w t _))
      | cons layer defaults => exact Or.inr (Or.inr ⟨layer, defaults, ds, rfl, rfl⟩)

/-- **What a step can do while no call may override**: nothing, something that cannot be
seen, or the `putAll` of a merge. -/
theorem act_strict (hpcs : ∀ t, (w.pc t).isStrict = true) {a : Action Tid Url}
    (ha : a.isStrict = true) :
    act w a = w ∨ Quiet w (act w a) ∨
      ∃ t layer defaults ds, w.pc t = .putting (layer :: defaults) ds false ∧
        act w a = w.goto t (w.object.withEntries layer.table) (.loading ds false) := by
  cases a with
  | invoke t op =>
      have hidle : act w (.invoke t op) = w ∨ act w (.invoke t op) = invoke w t op := by
        show (match w.pc t with
          | .idle _ => invoke w t op
          | _ => w) = w ∨ (match w.pc t with
          | .idle _ => invoke w t op
          | _ => w) = _
        cases w.pc t with
        | idle verdict => exact Or.inr rfl
        | _ => exact Or.inl rfl
      rcases hidle with h | h
      · exact Or.inl h
      · rw [h]
        exact (invoke_strict w t ha).imp id Or.inl
  | proceed t => exact (proceed_strict (hpcs t)).imp id (Or.imp id fun h => ⟨t, h⟩)

/-! ## §4. What stays. -/

/-- The key shows the value, no call that may override is on its way, and no thread is
about to put another value. -/
structure Kept (key value : JavaString) (w : World Tid) : Prop where
  shown : w.object.toProperties.raw.lookup key = some value
  strict : ∀ t, (w.pc t).isStrict = true
  agreed : ∀ t toMerge ds shouldOverride v, w.pc t = .putting toMerge ds shouldOverride →
    (entries toMerge).lookup key = some v → v = value

/-- A thread that has moved on is where it went, and the others are where they were. -/
theorem goto_cases (w : World Tid) (t t' : Tid) (object : EzProperties) (pc : Pc) :
    (w.goto t object pc).pc t' = pc ∨ (w.goto t object pc).pc t' = w.pc t' := by
  unfold World.goto
  rcases eq_or_ne t' t with rfl | hne
  · exact Or.inl (Function.update_self _ _ _)
  · exact Or.inr (Function.update_of_ne hne _ _)

/-- Strict threads stay strict. -/
theorem pcs_strict (hpcs : ∀ t, (w.pc t).isStrict = true) {a : Action Tid Url}
    (ha : a.isStrict = true) (t' : Tid) : ((act w a).pc t').isStrict = true := by
  rcases act_strict hpcs ha with h | h | h
  · rw [h]
    exact hpcs t'
  · obtain ⟨t, object, pc, hact, -, hpc, -⟩ := h.moved
    rw [hact]
    rcases goto_cases w t t' object pc with h' | h'
    · rw [h']
      exact hpc
    · rw [h']
      exact hpcs t'
  · obtain ⟨t, layer, defaults, ds, -, hact⟩ := h
    rw [hact]
    rcases goto_cases w t t' (w.object.withEntries layer.table) (.loading ds false) with h' | h'
    · rw [h']
      rfl
    · rw [h']
      exact hpcs t'

/-- **A strict step keeps what is kept.** -/
theorem Kept.act {key value : JavaString} (h : Kept key value w) {a : Action Tid Url}
    (ha : a.isStrict = true) : Kept key value (act w a) := by
  refine ⟨?_, pcs_strict h.strict ha, ?_⟩
  · rcases act_strict h.strict ha with hact | hact | hact
    · rw [hact]
      exact h.shown
    · obtain ⟨t, object, pc, hact, hraw, -, -⟩ := hact.moved
      rw [hact]
      exact (congrArg (Finmap.lookup key) hraw).trans h.shown
    · obtain ⟨t, layer, defaults, ds, hpc, hact⟩ := hact
      rw [hact]
      show (w.object.withEntries layer.table).toProperties.raw.lookup key = _
      rw [raw_withEntries, h.shown]
      cases hv : layer.table.lookup key with
      | none => rfl
      | some v => exact congrArg some (h.agreed t _ _ _ v hpc hv)
  · intro t' toMerge ds' shouldOverride v hpc' hv
    rcases act_strict h.strict ha with hact | hact | hact
    · rw [hact] at hpc'
      exact h.agreed t' _ _ _ v hpc' hv
    · obtain ⟨t, object, pc, hact, -, -, hfresh⟩ := hact.moved
      rw [hact] at hpc'
      rcases goto_cases w t t' object pc with hmoved | hstayed
      · -- it has just looked, and the key was there
        rw [hmoved] at hpc'
        rw [hfresh _ _ _ hpc' key value h.shown] at hv
        exact absurd hv (by simp)
      · rw [hstayed] at hpc'
        exact h.agreed t' _ _ _ v hpc' hv
    · obtain ⟨t, layer, defaults, ds, hpc, hact⟩ := hact
      rw [hact] at hpc'
      rcases goto_cases w t t' (w.object.withEntries layer.table) (.loading ds false) with
        hmoved | hstayed
      · rw [hmoved] at hpc'
        exact absurd hpc' (by simp)
      · rw [hstayed] at hpc'
        exact h.agreed t' _ _ _ v hpc' hv

end Strict

section Schedules

/-- A schedule goes on from the world that its first part has led to. -/
theorem interleaving_append (e : EzProperties) (before after : List (Action Tid Url)) :
    interleaving e (before ++ after) = after.foldl act (interleaving e before) := by
  unfold interleaving
  rw [Machine.run_state, Machine.run_state, List.foldl_append]
  rfl

/-- In a strict schedule every thread is strict. -/
theorem interleaving_strict (e : EzProperties) {before : List (Action Tid Url)}
    (hbefore : ∀ a ∈ before, a.isStrict = true) (t : Tid) :
    ((interleaving e before).pc t).isStrict = true := by
  induction before using List.reverseRecOn generalizing t with
  | nil => rfl
  | append_singleton before a ih =>
      rw [interleaving_append]
      exact pcs_strict (ih fun b hb => hbefore b (List.mem_append_left _ hb))
        (hbefore a (List.mem_append_right _ (List.mem_singleton_self a))) t

/-- **A strict schedule keeps what is kept.** -/
theorem Kept.schedule {key value : JavaString} (after : List (Action Tid Url)) :
    ∀ {w : World Tid}, Kept key value w → (∀ a ∈ after, a.isStrict = true) →
      Kept key value (after.foldl Threads.act w) := by
  induction after with
  | nil => exact fun h _ => h
  | cons a after ih =>
      intro w h hafter
      exact ih (h.act (hafter a List.mem_cons_self))
        fun b hb => hafter b (List.mem_cons_of_mem a hb)

/-- **What is shown stays, whatever the threads do without override, exactly if** no thread has
looked already and is about to put another value. -/
theorem strict_interleaving_keeps_iff (e : EzProperties) (before : List (Action Tid Url))
    (hbefore : ∀ a ∈ before, a.isStrict = true) {key value : JavaString}
    (hshown : (interleaving e before).object.toProperties.raw.lookup key = some value) :
    (∀ after : List (Action Tid Url), (∀ a ∈ after, a.isStrict = true) →
      (interleaving e (before ++ after)).object.toProperties.raw.lookup key = some value) ↔
    ∀ t toMerge ds shouldOverride v,
      (interleaving e before).pc t = .putting toMerge ds shouldOverride →
      (entries toMerge).lookup key = some v → v = value := by
  have hstrict := interleaving_strict e hbefore
  constructor
  · intro h t toMerge ds shouldOverride v hpc hv
    have hnext := h [.proceed t] (by simp [Action.isStrict])
    rw [interleaving_append] at hnext
    cases toMerge with
    | nil => exact absurd hv (by simp [entries])
    | cons layer defaults =>
        have hput : List.foldl act (interleaving e before) [(.proceed t : Action Tid Url)]
            = (interleaving e before).goto t
              ((interleaving e before).object.withEntries layer.table)
              (.loading ds shouldOverride) := proceed_putting hpc
        rw [hput] at hnext
        have hown := raw_withEntries_own (interleaving e before).object hv
        exact Option.some.inj (hown.symm.trans hnext)
  · intro h after hafter
    have hkept : Kept key value (interleaving e before) := ⟨hshown, hstrict, h⟩
    rw [interleaving_append]
    exact (hkept.schedule after hafter).shown

/-- **What an object shows while all its threads are idle is never overridden.** -/
theorem shown_at_start_stays (e : EzProperties) {key value : JavaString}
    (hshown : e.toProperties.raw.lookup key = some value) (schedule : List (Action Tid Url))
    (hschedule : ∀ a ∈ schedule, a.isStrict = true) :
    (interleaving e schedule).object.toProperties.raw.lookup key = some value := by
  have hkept : Kept key value (interleaving e ([] : List (Action Tid Url))) := by
    refine ⟨hshown, fun t => rfl, fun t toMerge ds shouldOverride v hpc => ?_⟩
    -- no thread has begun
    exact absurd hpc nofun
  have hrun := interleaving_append e [] schedule
  rw [List.nil_append] at hrun
  rw [hrun]
  exact (hkept.schedule schedule hschedule).shown

/-- Two threads have looked for the same name, and the first has put its value. -/
def bothLooked : List (Action ℕ String) :=
  [.invoke 0 (.mergeProperties
      [⟨.properties, Finmap.singleton (ofChars ['k']) (ofChars ['v'])⟩] false),
    .invoke 1 (.mergeProperties
      [⟨.properties, Finmap.singleton (ofChars ['k']) (ofChars ['w'])⟩] false),
    .proceed 0]

/-- The second one overrides it, though neither may, and the law holds there. -/
theorem second_merge_overrides :
    (interleaving EzProperties.empty (bothLooked ++ [.proceed 1])).object.toProperties.raw.lookup
        (ofChars ['k']) = some (ofChars ['w']) ∧
    ((∀ after : List (Action ℕ String), (∀ a ∈ after, a.isStrict = true) →
      (interleaving EzProperties.empty (bothLooked ++ after)).object.toProperties.raw.lookup
        (ofChars ['k']) = some (ofChars ['v'])) ↔
    ∀ t toMerge ds shouldOverride v,
      (interleaving EzProperties.empty bothLooked).pc t = .putting toMerge ds shouldOverride →
      (entries toMerge).lookup (ofChars ['k']) = some v → v = ofChars ['v']) := by
  have hstrict : ∀ a ∈ bothLooked, a.isStrict = true := by
    unfold bothLooked
    simp [Action.isStrict, EzProperties.Op.isStrict]
  exact ⟨rfl, strict_interleaving_keeps_iff EzProperties.empty bothLooked hstrict rfl⟩

end Schedules

end EzBakeCommon.Properties.Threads
