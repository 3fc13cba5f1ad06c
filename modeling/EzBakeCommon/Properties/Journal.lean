/-
  EzBakeCommon.Properties.Journal — an object is what has been written to it.

  A JOURNAL keeps the names an object shows and the tables written to it so far,
  one after another, and never takes one back; it knows no values but those it
  was handed.  What a writing call does, and whether it throws, is decided by the
  journal alone, and the object's own table is the journal written over the table
  it started with (`session_journal`): also where a load fails half way.  Every read
  answers from what was written before it (`session_reads`).

  A call that is not allowed to override writes only names that are not shown
  yet, so as long as all calls are of that kind no value that can be seen ever
  changes or goes away (`strict_session_keeps`).
-/
import EzBakeCommon.Properties.ClassPath
import EzBakeCommon.Properties.Merging
import EzBakeCommon.Properties.Loading

namespace EzBakeCommon.Properties

open Library JavaString
open Library.LayeredTable (overlay visible)
open EzProperties (Op Answer Directory)

/-! ## §1. The journal. -/

/-- The names shown, and the tables written, oldest first. -/
structure Journal where
  cryptoProvider : Option TextCryptoProvider
  names : Finset JavaString
  written : List Table

namespace Journal

variable (j : Journal)

/-- One more table. -/
def write (table : Table) : Journal :=
  { j with names := table.keys ∪ j.names, written := j.written ++ [table] }

/-- What `setProperty` stores. -/
def stored (value : Option JavaString) (isEncrypted : Bool) : Except JavaException JavaString :=
  if isEncrypted then
    match j.cryptoProvider with
    | none => .error (.illegalState "Crypto provider has not been initialized!")
    | some provider => encryptPropertyValue value provider
  else
    match value with
    | some value => .ok value
    | none => .error .nullPointer

def set (key : JavaString) (value : Option JavaString) (isEncrypted : Bool) :
    Except JavaException Unit × Journal :=
  match j.stored value isEncrypted with
  | .ok text => (.ok (), j.write (Finmap.singleton key text))
  | .error x => (.error x, j)

/-- A table is refused if it has a name that is shown already and may not be
overridden. -/
def merge (toMerge : PropertiesRef) (shouldOverride : Bool) : Except JavaException Unit × Journal :=
  match toMerge with
  | [] => (.error .nullPointer, j)
  | layer :: _ =>
      if shouldOverride = false ∧ j.names ∩ toMerge.stringPropertyNames ≠ ∅ then
        (.error (.duplicateProperty (j.names ∩ toMerge.stringPropertyNames)), j)
      else (.ok (), j.write layer.table)

/-- Files are written until one is refused or cannot be read. -/
def mergeFiles (shouldOverride : Bool) :
    List (Except JavaException Table) → Journal → Except JavaException Unit × Journal
  | [], j => (.ok (), j)
  | .error x :: _, j => (.error x, j)
  | .ok file :: ds, j =>
      match j.merge [⟨.properties, file⟩] shouldOverride with
      | (.ok _, j) => mergeFiles shouldOverride ds j
      | (.error x, j) => (.error x, j)

/-- What one call does to the journal, and how it ends if it is one that writes. -/
def step {Url : Type*} : Op Url → Option (Except JavaException Unit) × Journal
  | .setTextCryptoProvider provider => (some (.ok ()), { j with cryptoProvider := provider })
  | .setProperty key value isEncrypted =>
      (some (j.set key value isEncrypted).1, (j.set key value isEncrypted).2)
  | .mergeProperties toMerge shouldOverride =>
      (some (j.merge toMerge shouldOverride).1, (j.merge toMerge shouldOverride).2)
  | .loadFromDirectory directory globPattern shouldOverride =>
      match directory with
      | none =>
          (some (.error (.illegalArgument "The directory null is null or does not exist!")), j)
      | some directory =>
          if directory.isDirectory then
            match directory.stream globPattern with
            | .ok ds =>
                (some (j.mergeFiles shouldOverride ds).1, (j.mergeFiles shouldOverride ds).2)
            | .error x => (some (.error x), j)
          else (some (.error (.illegalArgument
            ("The directory " ++ directory.name ++ " is null or does not exist!"))), j)
  | .loadFromClassPath cp resource shouldOverride =>
      match cp.getResource resource with
      | none => (some (.error (.illegalArgument (resource.getD "null"
          ++ " is either or null or does not exist on the class path!"))), j)
      | some url =>
          match cp.load url with
          | .ok table => (some (j.merge [⟨.properties, table⟩] shouldOverride).1,
              (j.merge [⟨.properties, table⟩] shouldOverride).2)
          | .error x => (some (.error x), j)
  | _ => (none, j)

/-- The newest value that has been written under the key. -/
def newest (key : JavaString) : Option JavaString := (visible j.written.reverse).lookup key

/-- What reading the key answers, if nothing was written but what the journal has. -/
def read (e : EzProperties) (key : JavaString) : Except JavaException (Option JavaString) :=
  match j.newest key with
  | some value => decrypt j.cryptoProvider (some value)
  | none => (e.setTextCryptoProvider j.cryptoProvider).getProperty key

/-- The same with a default, which is decrypted too. -/
def readOr (e : EzProperties) (key : JavaString) (defaultValue : Option JavaString) :
    Except JavaException (Option JavaString) :=
  j.read e key >>= fun value => decrypt j.cryptoProvider (value.or defaultValue)

/-- The journal of an object to which nothing has been written yet. -/
def start (e : EzProperties) : Journal := ⟨e.cryptoProvider, e.stringPropertyNames, []⟩

/-- The journal as a machine. -/
def machine (Url : Type*) : Machine Journal (Op Url) (Option (Except JavaException Unit)) :=
  ⟨fun j op => j.step op⟩

end Journal

/-! ## §2. The object keeps the journal. -/

/-- The object is what it started from with the journal written over it. -/
structure Keeps (e₀ e : EzProperties) (j : Journal) : Prop where
  cryptoProvider : e.cryptoProvider = j.cryptoProvider
  defaults : e.defaults = e₀.defaults
  table : e.table = overlay e₀.table j.written
  names : e.stringPropertyNames = j.names

/-- A call on the object ends as on the journal, and the object keeps it. -/
structure Follows (e₀ : EzProperties) (result : Except JavaException Unit × EzProperties)
    (expected : Except JavaException Unit × Journal) : Prop where
  verdict : result.1 = expected.1
  keeps : Keeps e₀ result.2 expected.2

section Keeps

variable {e₀ e : EzProperties} {j : Journal} (h : Keeps e₀ e j)
include h

theorem Keeps.write (table : Table) : Keeps e₀ (e.withEntries table) (j.write table) := by
  refine ⟨h.cryptoProvider, h.defaults, ?_, ?_⟩
  · show table ∪ e.table = overlay e₀.table (j.written ++ [table])
    rw [LayeredTable.overlay_append, ← h.table]
    rfl
  · show _ = table.keys ∪ j.names
    rw [← h.names]
    ext key
    rw [mem_names_withEntries, Finset.mem_union, Finmap.mem_keys]

theorem Keeps.stays (x : JavaException) : Follows e₀ (.error x, e) (.error x, j) := ⟨rfl, h⟩

theorem Keeps.merge (toMerge : PropertiesRef) (shouldOverride : Bool) :
    Follows e₀ (e.mergeProperties toMerge shouldOverride) (j.merge toMerge shouldOverride) := by
  cases toMerge with
  | nil =>
      have hnull : e.mergeProperties [] shouldOverride = (.error .nullPointer, e) := by
        cases shouldOverride <;> rfl
      rw [hnull]
      exact h.stays .nullPointer
  | cons layer defaults =>
      rw [mergeProperties_cons]
      unfold Journal.merge EzProperties.getCollisions
      rw [h.names]
      dsimp only
      split
      · exact h.stays _
      · exact ⟨rfl, h.write layer.table⟩

theorem Keeps.mergeFiles (shouldOverride : Bool) (ds : List (Except JavaException Table)) :
    Follows e₀ (EzProperties.loadEach shouldOverride ds e) (j.mergeFiles shouldOverride ds) := by
  induction ds generalizing e j with
  | nil => exact ⟨rfl, h⟩
  | cons d ds ih =>
      cases d with
      | error x => exact h.stays x
      | ok file =>
          obtain ⟨hverdict, hkeeps⟩ := h.merge [⟨.properties, file⟩] shouldOverride
          unfold EzProperties.loadEach Journal.mergeFiles
          -- merged on both sides, or refused on both
          generalize e.mergeProperties [⟨.properties, file⟩] shouldOverride = r at hverdict hkeeps
          generalize j.merge [⟨.properties, file⟩] shouldOverride = s at hverdict hkeeps
          obtain ⟨r, e'⟩ := r
          obtain ⟨s, j'⟩ := s
          obtain rfl : r = s := hverdict
          cases r with
          | ok u => exact ih hkeeps
          | error x => exact ⟨rfl, hkeeps⟩

theorem Keeps.set (key : JavaString) (value : Option JavaString) (isEncrypted : Bool) :
    Follows e₀ (e.setProperty key value isEncrypted) (j.set key value isEncrypted) := by
  -- storing a text is writing a table of one entry
  have hstore : ∀ text, Follows e₀ (e.superSetProperty key (some text))
      (.ok (), j.write (Finmap.singleton key text)) := by
    intro text
    refine ⟨rfl, ?_⟩
    have htable : e.table.insert key text = Finmap.singleton key text ∪ e.table := by
      refine Finmap.ext_lookup (fun k => ?_)
      rw [LayeredTable.lookup_union]
      by_cases hk : k = key
      · subst hk
        rw [Finmap.lookup_insert, Finmap.lookup_singleton_eq]
        rfl
      · have hnone : (Finmap.singleton key text : Table).lookup k = none :=
          Finmap.lookup_eq_none.mpr (by simpa using hk)
        rw [Finmap.lookup_insert_of_ne _ hk, hnone]
        rfl
    show Keeps e₀ { e with table := e.table.insert key text } _
    rw [htable]
    exact h.write _
  unfold EzProperties.setProperty Journal.set Journal.stored
  cases isEncrypted with
  | true =>
      rw [if_pos rfl, if_pos rfl, h.cryptoProvider]
      cases j.cryptoProvider with
      | none => exact h.stays _
      | some provider =>
          dsimp only
          cases encryptPropertyValue value provider with
          | ok text => exact hstore text
          | error x => exact h.stays x
  | false =>
      rw [if_neg Bool.false_ne_true, if_neg Bool.false_ne_true]
      cases value with
      | some text => exact hstore text
      | none => exact h.stays _

/-- A read finds the newest value that was written, or what was there before. -/
theorem Keeps.read (key : JavaString) : e.getProperty key = j.read e₀ key := by
  have hlookup : e.table.lookup key = (j.newest key).or (e₀.table.lookup key) := by
    rw [h.table, LayeredTable.overlay_eq_visible, LayeredTable.lookup_union]
    rfl
  unfold Journal.read
  cases hnew : j.newest key with
  | some value =>
      rw [hnew] at hlookup
      show superGetProperty e.table key _ >>= decrypt e.cryptoProvider = _
      rw [superGetProperty_own hlookup, h.cryptoProvider]
      rfl
  | none =>
      rw [hnew] at hlookup
      exact getProperty_congr h.cryptoProvider h.defaults hlookup

theorem Keeps.readOr (key : JavaString) (defaultValue : Option JavaString) :
    e.getPropertyOr key defaultValue = j.readOr e₀ key defaultValue := by
  unfold Journal.readOr
  rw [← h.read key, ← h.cryptoProvider]
  show (superGetPropertyOr e.toProperties key defaultValue >>= decrypt e.cryptoProvider) = _
  unfold superGetPropertyOr EzProperties.getProperty
  cases e.toProperties.getProperty key with
  | error x => rfl
  | ok value =>
      cases value with
      | some value => rfl
      | none => rfl

end Keeps

/-! ## §3. Every session. -/

section Sessions

variable {Url : Type*} {e₀ e : EzProperties} {j : Journal}

/-- A call that writes ends as the journal says. -/
def SameVerdict
    (event : Event EzProperties (Op Url) (Except JavaException Answer))
    (entry : Event Journal (Op Url) (Option (Except JavaException Unit))) : Prop :=
  event.call = entry.call ∧
    ∀ verdict, entry.answer = some verdict → event.answer = verdict.map (fun _ => .done)

/-- **One call does to the object what it does to the journal.** -/
theorem Keeps.step (h : Keeps e₀ e j) (op : Op Url) :
    Keeps e₀ (e.step op).2 (j.step op).2 ∧
      ∀ verdict, (j.step op).1 = some verdict →
        (e.step op).1 = verdict.map (fun _ => .done) := by
  -- a call that follows the journal ends as the journal says
  have hfollows : ∀ {r : Except JavaException Unit × EzProperties}
      {s : Except JavaException Unit × Journal}, Follows e₀ r s → Keeps e₀ r.2 s.2 ∧
        ∀ verdict, some s.1 = some verdict →
          r.1.map (fun _ => Answer.done) = verdict.map (fun _ => .done) := by
    intro r s hrs
    refine ⟨hrs.keeps, fun verdict hv => ?_⟩
    rw [hrs.verdict, Option.some.inj hv]
  cases op with
  | setTextCryptoProvider provider =>
      refine ⟨⟨rfl, h.defaults, h.table, h.names⟩, fun verdict hv => ?_⟩
      rw [← Option.some.inj hv]
      rfl
  | setProperty key value isEncrypted => exact hfollows (h.set key value isEncrypted)
  | mergeProperties toMerge shouldOverride => exact hfollows (h.merge toMerge shouldOverride)
  | loadFromDirectory directory globPattern shouldOverride =>
      unfold EzProperties.step Journal.step EzProperties.loadFromDirectory
      dsimp only
      cases directory with
      | none => exact hfollows (h.stays _)
      | some directory =>
          dsimp only
          cases directory.isDirectory with
          | false => exact hfollows (h.stays _)
          | true =>
              simp only [Bool.not_true, Bool.false_eq_true, if_false, if_true]
              cases directory.stream globPattern with
              | ok ds => exact hfollows (h.mergeFiles shouldOverride ds)
              | error x => exact hfollows (h.stays x)
  | loadFromClassPath cp resource shouldOverride =>
      unfold EzProperties.step Journal.step EzProperties.loadFromClassPath
      dsimp only
      cases cp.getResource resource with
      | none => exact hfollows (h.stays _)
      | some url =>
          dsimp only
          cases cp.load url with
          | ok table => exact hfollows (h.merge [⟨.properties, table⟩] shouldOverride)
          | error x => exact hfollows (h.stays x)
  | getProperty key => exact ⟨h, fun verdict hv => absurd hv (by simp [Journal.step])⟩
  | getPropertyOr key defaultValue =>
      exact ⟨h, fun verdict hv => absurd hv (by simp [Journal.step])⟩
  | getCollisions toCheck => exact ⟨h, fun verdict hv => absurd hv (by simp [Journal.step])⟩

/-- **An object is what has been written to it**, and every call that writes ends
as the journal of what was written before it says. -/
theorem session_journal (e : EzProperties) (ops : List (Op Url)) :
    Keeps e (EzProperties.session e ops).state
        ((Journal.machine Url).run (Journal.start e) ops).state ∧
      List.Forall₂ SameVerdict (EzProperties.session e ops).history
        ((Journal.machine Url).run (Journal.start e) ops).history := by
  refine (EzProperties.machine Url).run_lockstep (Journal.machine Url) (Q := Eq)
    (R := fun r r' => Keeps e r.state r'.state ∧
      List.Forall₂ SameVerdict r.history r'.history)
    ⟨⟨rfl, rfl, rfl, rfl⟩, List.Forall₂.nil⟩ ?_ ops ops (List.forall₂_refl ops)
  intro r r' op op' hop ih
  obtain ⟨hkeeps, hevents⟩ := ih
  subst hop
  obtain ⟨hnext, hverdict⟩ := hkeeps.step op
  exact ⟨hnext, List.Forall₂.cons ⟨rfl, hverdict⟩ hevents⟩

/-- A call that reads answers from the journal. -/
def SameReading (e : EzProperties)
    (event : Event EzProperties (Op Url) (Except JavaException Answer))
    (entry : Event Journal (Op Url) (Option (Except JavaException Unit))) : Prop :=
  match event.call with
  | .getProperty key => event.answer = (entry.before.read e key).map .text
  | .getPropertyOr key defaultValue =>
      event.answer = (entry.before.readOr e key defaultValue).map .text
  | .getCollisions toCheck =>
      event.answer = if toCheck.isEmpty then .error .nullPointer
        else .ok (.names (entry.before.names ∩ toCheck.stringPropertyNames))
  | _ => True

/-- **Every read answers from what was written before it**: the newest value written under
the key, decrypted, and what the object read at the start where there is none. -/
theorem session_reads (e : EzProperties) (ops : List (Op Url)) :
    List.Forall₂ (SameReading e) (EzProperties.session e ops).history
      ((Journal.machine Url).run (Journal.start e) ops).history := by
  refine ((EzProperties.machine Url).run_lockstep (Journal.machine Url) (Q := Eq)
    (R := fun r r' => Keeps e r.state r'.state ∧
      List.Forall₂ (SameReading e) r.history r'.history)
    ⟨⟨rfl, rfl, rfl, rfl⟩, List.Forall₂.nil⟩ ?_ ops ops (List.forall₂_refl ops)).2
  intro r r' op op' hop ih
  obtain ⟨hkeeps, hevents⟩ := ih
  subst hop
  refine ⟨(hkeeps.step op).1, List.Forall₂.cons ?_ hevents⟩
  cases op with
  | getProperty key => exact congrArg (Except.map Answer.text) (hkeeps.read key)
  | getPropertyOr key defaultValue =>
      exact congrArg (Except.map Answer.text) (hkeeps.readOr key defaultValue)
  | getCollisions toCheck =>
      show (if toCheck.isEmpty then _ else Except.ok (Answer.names
        (r.state.stringPropertyNames ∩ toCheck.stringPropertyNames))) = _
      rw [hkeeps.names]
      rfl
  | _ => trivial

/-! ## §4. Calls that are not allowed to override. -/

/-- A call that reads, changes the provider, or may not override. -/
def EzProperties.Op.isStrict : Op Url → Bool
  | .setProperty _ _ _ => false
  | .mergeProperties _ shouldOverride => !shouldOverride
  | .loadFromDirectory _ _ shouldOverride => !shouldOverride
  | .loadFromClassPath _ _ shouldOverride => !shouldOverride
  | _ => true

/-- All that the first object shows, the second shows too, with the same raw
values. -/
def StillShown (e e' : EzProperties) : Prop :=
  ∀ key value, e.toProperties.raw.lookup key = some value →
    e'.toProperties.raw.lookup key = some value

theorem StillShown.trans {e e' e'' : EzProperties} (h : StillShown e e')
    (h' : StillShown e' e'') : StillShown e e'' :=
  fun key value hv => h' key value (h key value hv)

/-- A strict merge writes only names that are not shown yet. -/
theorem merge_stillShown (e : EzProperties) (toMerge : PropertiesRef) :
    StillShown e (e.mergeProperties toMerge false).2 := by
  intro key value hv
  cases toMerge with
  | nil => exact hv
  | cons layer defaults =>
      rw [mergeProperties_cons]
      split
      · exact hv
      next hallowed =>
        rw [raw_withEntries]
        cases hw : layer.table.lookup key with
        | none => exact hv
        | some w =>
            -- the key would collide
            refine absurd ⟨rfl, collisions_iff.mpr ⟨key, value, w, hv, raw_own hw⟩⟩ hallowed

theorem loadEach_stillShown (ds : List (Except JavaException Table)) :
    ∀ e : EzProperties, StillShown e (EzProperties.loadEach false ds e).2 := by
  induction ds with
  | nil => exact fun e key value hv => hv
  | cons d ds ih =>
      intro e
      cases d with
      | error x => exact fun key value hv => hv
      | ok file =>
          have hmerge := merge_stillShown e [⟨.properties, file⟩]
          unfold EzProperties.loadEach
          generalize e.mergeProperties [⟨.properties, file⟩] false = r at hmerge
          obtain ⟨verdict, e'⟩ := r
          cases verdict with
          | ok u => exact hmerge.trans (ih e')
          | error x => exact hmerge

/-- **A strict call changes nothing that is shown**, whether it throws or not. -/
theorem step_stillShown (e : EzProperties) {op : Op Url} (hop : op.isStrict = true) :
    StillShown e (e.step op).2 := by
  cases op with
  | setTextCryptoProvider provider => exact fun key value hv => hv
  | setProperty key value isEncrypted => exact absurd hop Bool.false_ne_true
  | mergeProperties toMerge shouldOverride =>
      obtain rfl : shouldOverride = false := by simpa [Op.isStrict] using hop
      exact merge_stillShown e toMerge
  | loadFromDirectory directory globPattern shouldOverride =>
      obtain rfl : shouldOverride = false := by simpa [Op.isStrict] using hop
      show StillShown e (e.loadFromDirectory directory globPattern false).2
      unfold EzProperties.loadFromDirectory
      cases directory with
      | none => exact fun key value hv => hv
      | some directory =>
          dsimp only
          split
          · exact fun key value hv => hv
          · cases directory.stream globPattern with
            | ok ds => exact loadEach_stillShown ds e
            | error x => exact fun key value hv => hv
  | loadFromClassPath cp resource shouldOverride =>
      obtain rfl : shouldOverride = false := by simpa [Op.isStrict] using hop
      show StillShown e (e.loadFromClassPath cp resource false).2
      unfold EzProperties.loadFromClassPath
      cases cp.getResource resource with
      | none => exact fun key value hv => hv
      | some url =>
          dsimp only
          cases cp.load url with
          | ok table => exact merge_stillShown e [⟨.properties, table⟩]
          | error x => exact fun key value hv => hv
  | getProperty key => exact fun key value hv => hv
  | getPropertyOr key defaultValue => exact fun key value hv => hv
  | getCollisions toCheck => exact fun key value hv => hv

/-- **What can be seen once stays as it is for as long as no call may override**,
through any merges and loads, also those that throw. -/
theorem strict_session_keeps (e : EzProperties) (before after : List (Op Url))
    (hstrict : ∀ op ∈ after, op.isStrict = true) {key value : JavaString}
    (hshown : (EzProperties.session e before).state.toProperties.raw.lookup key = some value) :
    (EzProperties.session e (before ++ after)).state.toProperties.raw.lookup key = some value ∧
    (isEncryptedValue (some value) = false →
      (EzProperties.session e (before ++ after)).state.getProperty key = .ok (some value)) := by
  have hkept : (EzProperties.session e (before ++ after)).state.toProperties.raw.lookup key
      = some value := by
    induction after using List.reverseRecOn with
    | nil =>
        rw [List.append_nil]
        exact hshown
    | append_singleton after op ih =>
        have hbefore := ih (fun op' h => hstrict op' (List.mem_append_left _ h))
        unfold EzProperties.session at hbefore ⊢
        rw [← List.append_assoc, Machine.run_concat]
        exact step_stillShown _ (hstrict op (List.mem_append_right _ List.mem_cons_self)) key value
          hbefore
  exact ⟨hkept, fun hplain => getProperty_plain hplain hkept⟩

/-- A value is set; a merge that would override it is refused, and another one is not. -/
theorem strict_after_set :
    let before : List (Op String) := [.setProperty (ofChars ['k']) (some (ofChars ['v'])) false]
    let after : List (Op String) :=
      [.mergeProperties [⟨.properties, Finmap.singleton (ofChars ['k']) (ofChars ['w'])⟩] false,
        .mergeProperties [⟨.properties, Finmap.singleton (ofChars ['l']) (ofChars ['w'])⟩] false]
    (EzProperties.session EzProperties.empty (before ++ after)).state.toProperties.raw.lookup
        (ofChars ['k']) = some (ofChars ['v']) ∧
      (isEncryptedValue (some (ofChars ['v'])) = false →
        (EzProperties.session EzProperties.empty (before ++ after)).state.getProperty
          (ofChars ['k']) = .ok (some (ofChars ['v']))) := by
  intro before after
  refine strict_session_keeps EzProperties.empty before after ?_ ?_
  · intro op hop
    rcases List.mem_cons.mp hop with rfl | hop
    · rfl
    · rw [List.mem_singleton.mp hop]
      rfl
  · refine raw_own ?_
    show (EzProperties.empty.table.insert _ _).lookup _ = _
    rw [Finmap.lookup_insert]

end Sessions

end EzBakeCommon.Properties
