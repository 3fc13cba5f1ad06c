/-
  EzBakeCommon.Properties.Paths — properties that name a path.

  In an OpenShift container `getPath` puts the repository directory before a
  relative path.  A path that has been resolved so is meant to be absolute; if
  it is written back, it is resolved once more, and comes out the same exactly if
  the directory itself is absolute or empty, or nothing was put before it.  If not,
  it comes out with the directory before it twice (`path_written_back_iff`).

  The separator is that of Unix.
-/
import EzBakeCommon.Properties.RoundTrip

namespace EzBakeCommon.Properties

open Library JavaString

/-! ## §1. The class OpenShiftUtil. -/

namespace OpenShiftUtil

/-- `File.separator` -/
def separator : UInt16 := 0x2F

/-- `"config"` -/
def ezbakeConfigDir : JavaString := ofChars ['c', 'o', 'n', 'f', 'i', 'g']

/-- What `System.getenv("OPENSHIFT_REPO_DIR")` returns. -/
abbrev Environment := Option JavaString

variable (env : Environment)

def inOpenShiftContainer : Bool := env.isSome

/-- `Preconditions.checkNotNull` -/
def getRepoDir : Except JavaException JavaString :=
  match env with
  | some dir => .ok dir
  | none => .error .nullPointer

def getConfigurationDir : Except JavaException JavaString := do
  let repoDir ← getRepoDir env
  if repoDir.endsWith [separator] then return repoDir ++ ezbakeConfigDir
  else return repoDir ++ [separator] ++ ezbakeConfigDir

end OpenShiftUtil

open OpenShiftUtil (Environment inOpenShiftContainer getRepoDir separator)

/-! ## §2. `getPath`. -/

/-- `new File(path).isAbsolute()` -/
def isAbsolute (path : JavaString) : Bool := path.head? = some separator

def EzProperties.getPath (env : Environment) (e : EzProperties) (propertyName : JavaString)
    (defaultValue : Option JavaString) : Except JavaException (Option JavaString) := do
  match ← e.getProperty propertyName with
  | none => return defaultValue
  | some path =>
      if !inOpenShiftContainer env then return some path
      else if isAbsolute path then return some path
      else return some ((← getRepoDir env) ++ [separator] ++ path)

/-! ## §3. What a path is resolved to. -/

/-- The path, under the repository directory if there is one and it is relative. -/
def resolve : Environment → JavaString → JavaString
  | none, path => path
  | some dir, path => if isAbsolute path then path else dir ++ [separator] ++ path

section Resolve

variable {env : Environment} {e : EzProperties} {key : JavaString}

variable (env) in
/-- **A path that is there is always resolved**: in a container there is a directory. -/
theorem getPath_of_read {path : JavaString} (h : e.getProperty key = .ok (some path))
    (d : Option JavaString) : e.getPath env key d = .ok (some (resolve env path)) := by
  unfold EzProperties.getPath resolve
  rw [h]
  cases env with
  | none => rfl
  | some dir =>
      show (if isAbsolute path = true then Except.ok (some path)
        else Except.ok (some (dir ++ [separator] ++ path)))
          = Except.ok (some (if isAbsolute path = true then path else dir ++ [separator] ++ path))
      split
      next => rfl
      next => rfl

/-- What is put before a path makes it absolute if it is empty or absolute itself. -/
theorem isAbsolute_under (dir path : JavaString) :
    isAbsolute (dir ++ [separator] ++ path) = true ↔ dir = [] ∨ isAbsolute dir = true := by
  cases dir with
  | nil => exact iff_of_true rfl (Or.inl rfl)
  | cons u dir => exact ⟨fun h => Or.inr h, fun h => h.resolve_left (List.cons_ne_nil u dir)⟩

/-- Nothing is put before the path, or it becomes absolute. -/
def Settles (env : Environment) (path : JavaString) : Prop :=
  ∀ dir, env = some dir → isAbsolute path = true ∨ dir = [] ∨ isAbsolute dir = true

theorem settles_some (dir path : JavaString) :
    Settles (some dir) path ↔ isAbsolute path = true ∨ dir = [] ∨ isAbsolute dir = true :=
  ⟨fun h => h dir rfl, fun h _ hdir => Option.some.inj hdir ▸ h⟩

/-- What is settled stays as it is. -/
theorem resolve_settled {path : JavaString} (h : Settles env path) :
    resolve env (resolve env path) = resolve env path := by
  cases env with
  | none => rfl
  | some dir =>
      have hcases := (settles_some dir path).mp h
      unfold resolve
      dsimp only
      by_cases hpath : isAbsolute path = true
      · rw [if_pos hpath, if_pos hpath]
      · have hdir := (isAbsolute_under dir path).mpr (hcases.resolve_left hpath)
        rw [if_neg hpath, if_pos hdir]

/-- **Before what is not settled the directory is put twice.** -/
theorem resolve_unsettled {path : JavaString} (h : ¬ Settles env path) :
    ∃ dir, env = some dir ∧ resolve env path = dir ++ [separator] ++ path ∧
      resolve env (resolve env path) = dir ++ [separator] ++ resolve env path := by
  cases env with
  | none => exact absurd (fun dir hdir => absurd hdir (by simp)) h
  | some dir =>
      rw [settles_some, not_or] at h
      have hdir : ¬ isAbsolute (dir ++ [separator] ++ path) = true := by
        rw [isAbsolute_under]
        exact h.2
      have honce : resolve (some dir) path = dir ++ [separator] ++ path := if_neg h.1
      rw [honce]
      exact ⟨dir, rfl, rfl, if_neg hdir⟩

/-- **Resolving twice is resolving once exactly if it settles the path.** -/
theorem resolve_resolve_iff (env : Environment) (path : JavaString) :
    resolve env (resolve env path) = resolve env path ↔ Settles env path := by
  constructor
  · intro h
    by_contra hsettles
    obtain ⟨dir, -, -, htwice⟩ := resolve_unsettled hsettles
    rw [htwice] at h
    have hlengths := congrArg List.length h
    simp only [List.length_append, List.length_singleton] at hlengths
    omega
  · exact resolve_settled

/-- **A resolved path that is written back is read back exactly if it was settled**,
whether it is written in plain or encrypted; if it was not, the directory is put before
it a second time. -/
theorem path_written_back_iff {provider : TextCryptoProvider} (hinv : provider.Inverts)
    (hp : e.cryptoProvider = some provider) {path : JavaString}
    (hread : e.getProperty key = .ok (some path)) (isEncrypted : Bool)
    (hplain : isEncrypted = false → isEncryptedValue (some (resolve env path)) = false)
    (d d' : Option JavaString) :
    e.getPath env key d = .ok (some (resolve env path)) ∧
    ((e.setProperty key (some (resolve env path)) isEncrypted).2.getPath env key d'
        = e.getPath env key d ↔ Settles env path) ∧
    (¬ Settles env path → ∃ dir, env = some dir ∧
      resolve env path = dir ++ [separator] ++ path ∧
      (e.setProperty key (some (resolve env path)) isEncrypted).2.getPath env key d'
        = .ok (some (dir ++ [separator] ++ resolve env path))) := by
  have hget := getPath_of_read env hread d
  obtain ⟨e', hset, hstored⟩ := @setProperty_stored _ _ hinv hp key _ _ hplain
  have hread' := hstored.read hp key
  rw [if_pos rfl] at hread'
  have hback := getPath_of_read env hread' d'
  rw [hset]
  refine ⟨hget, ?_, ?_⟩
  · rw [hget]
    dsimp only
    rw [hback, ← resolve_resolve_iff]
    simp
  · intro hsettles
    obtain ⟨dir, henv, honce, htwice⟩ := resolve_unsettled hsettles
    refine ⟨dir, henv, honce, ?_⟩
    dsimp only
    rw [hback, htwice]

end Resolve

/-- A relative path under a relative directory, written back in plain. -/
theorem relative_path_written_back :
    let env : Environment := some (ofChars ['r'])
    let e := (EzProperties.empty.setTextCryptoProvider
      (some noOpTextCryptoProvider)).superSetProperty (ofChars ['k']) (some (ofChars ['c']))
    e.2.getPath env (ofChars ['k']) none = .ok (some (resolve env (ofChars ['c']))) ∧
    ((e.2.setProperty (ofChars ['k']) (some (resolve env (ofChars ['c']))) false).2.getPath env
        (ofChars ['k']) none = e.2.getPath env (ofChars ['k']) none ↔
      Settles env (ofChars ['c'])) ∧
    ∃ dir, env = some dir ∧ resolve env (ofChars ['c']) = dir ++ [separator] ++ ofChars ['c'] ∧
      (e.2.setProperty (ofChars ['k']) (some (resolve env (ofChars ['c']))) false).2.getPath env
          (ofChars ['k']) none
        = .ok (some (dir ++ [separator] ++ resolve env (ofChars ['c']))) := by
  intro env e
  have hinv : noOpTextCryptoProvider.Inverts := fun x => ⟨x, rfl, rfl⟩
  have hread : e.2.getProperty (ofChars ['k']) = .ok (some (ofChars ['c'])) := rfl
  have hplain : isEncryptedValue (some (resolve env (ofChars ['c']))) = false := by decide
  have hrelative : ¬ Settles env (ofChars ['c']) := by
    rw [settles_some]
    decide
  obtain ⟨hpath, hiff, htwice⟩ :=
    path_written_back_iff hinv rfl hread false (fun _ => hplain) none none
  exact ⟨hpath, hiff, htwice hrelative⟩

end EzBakeCommon.Properties
