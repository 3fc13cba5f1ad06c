/-
  EzBakeCommon.Hosts.OpenShiftUtil — the class OpenShiftUtil, function by function.

  Everything it says comes from three variables of the environment.  `getenv`
  returns a null pointer for one that is not set, and a `std::string` made of that
  has no defined behaviour.  `boost::lexical_cast<int>` is a parameter; what is
  documented of it is `LexicalCastInt.Documented`.
-/
import EzBakeCommon.Hosts.HostAndPort

namespace EzBakeCommon.Hosts

open Library

/-! ## §1. `boost::lexical_cast<int>`. -/

/-- The conversion; nothing where it throws. -/
structure LexicalCastInt where
  toInt : StdString → Option Int32

/-- A number that is written in digits and fits in an `int`. -/
def readInRange (digits : StdString) (value : Int) : Option Int32 :=
  if Decimal.IsNumeral digits ∧ -2147483648 ≤ value ∧ value < 2147483648 then
    some (Int32.ofInt value)
  else none

/-- An optional sign, then digits. -/
def readInt : StdString → Option Int32
  | 43 :: digits => readInRange digits (Decimal.value digits)
  | 45 :: digits => readInRange digits (-(Decimal.value digits : Int))
  | digits => readInRange digits (Decimal.value digits)

/-- It reads these texts so, and throws at any other. -/
def LexicalCastInt.Documented (cast : LexicalCastInt) : Prop :=
  ∀ text, cast.toInt text = readInt text

/-- The conversion in the C locale. -/
def LexicalCastInt.cLocale : LexicalCastInt := ⟨readInt⟩

theorem LexicalCastInt.cLocale_documented : LexicalCastInt.cLocale.Documented := fun _ => rfl

/-! ## §2. The environment. -/

/-- The variables that the class asks for. -/
inductive Variable where
  | repoDir
  | javaThriftrunnerIp
  | javaThriftrunnerTcpPort
  deriving DecidableEq

def Variable.name : Variable → String
  | .repoDir => "OPENSHIFT_REPO_DIR"
  | .javaThriftrunnerIp => "OPENSHIFT_JAVA_THRIFTRUNNER_IP"
  | .javaThriftrunnerTcpPort => "OPENSHIFT_JAVA_THRIFTRUNNER_TCP_PORT"

/-- What `getenv` returns; nothing is the null pointer. -/
abbrev Environment := Variable → Option StdString

/-- What the functions throw. -/
inductive OpenShiftException where
  | runtimeError (message : String)
  /-- What the conversion and `HostAndPort` throw. -/
  | hostException (ex : HostException)

/-- Why a call does not return. -/
inductive Stop where
  | thrown (ex : OpenShiftException)
  | undefined

abbrev Outcome := Except Stop

/-- A call that returns is followed by what comes next. -/
@[simp] theorem returns_bind {α β : Type} (a : α) (f : α → Outcome β) :
    ((.ok a : Outcome α) >>= f) = f a := rfl

@[simp] theorem stops_bind {α β : Type} (stop : Stop) (f : α → Outcome β) :
    ((.error stop : Outcome α) >>= f) = .error stop := rfl

/-- `std::string` of a `char*`. -/
def stdString : Option StdString → Outcome StdString
  | some s => .ok s
  | none => .error .undefined

/-- `find_first_not_of(' ')` -/
def findFirstNotBlank (s : StdString) : Option Nat := s.findIdx? (fun c => c ≠ 32)

/-- `StringConversionUtil::convertToInt` -/
def convertToInt (cast : LexicalCastInt) (toConvert : Option StdString) (defaultValue : Int32) :
    Outcome Int32 :=
  match toConvert with
  | none => .ok defaultValue
  | some text =>
      match cast.toInt text with
      | some n => .ok n
      | none => .error (.thrown (.hostException .badLexicalCast))

/-! ## §3. The class. -/

namespace OpenShiftUtil

/-- `FILE_SEPERATOR` -/
def fileSeperator : UInt8 := 47

/-- `"config"` -/
def openShiftConfigDir : StdString := [99, 111, 110, 102, 105, 103]

variable (env : Environment)

def inOpenShiftContainer : Bool :=
  match env .repoDir with
  | some dir => (findFirstNotBlank dir).isSome
  | none => false

def getRepoDir : Outcome StdString := do
  let dirFromEnv ← stdString (env .repoDir)
  if dirFromEnv = [] then
    .error (.thrown (.runtimeError ("environment var" ++ Variable.repoDir.name ++ " not set")))
  else .ok dirFromEnv

/-- The separator is appended unless it is the last character already. -/
def getConfigurationDir : Outcome StdString := do
  let dirFromEnv ← getRepoDir env
  if dirFromEnv.getLast? = some fileSeperator then .ok (dirFromEnv ++ openShiftConfigDir)
  else .ok (dirFromEnv ++ [fileSeperator] ++ openShiftConfigDir)

def getRepoPath (file : StdString) : Outcome StdString :=
  -- an absolute path
  if file.head? = some fileSeperator then .ok file
  else do
    let dir ← getRepoDir env
    .ok (dir ++ [fileSeperator] ++ file)

/-- The exception that names the variable. -/
def notSet (x : Variable) : Stop :=
  .thrown (.runtimeError ("environment var " ++ x.name ++ " not set"))

def getThriftPrivateInfo (cast : LexicalCastInt) : Outcome HostAndPort := do
  let ip ← stdString (env .javaThriftrunnerIp)
  let port ← stdString (env .javaThriftrunnerTcpPort)
  if findFirstNotBlank ip = none then .error (notSet .javaThriftrunnerIp)
  else if findFirstNotBlank port = none then .error (notSet .javaThriftrunnerTcpPort)
  else do
    let n ← convertToInt cast (some port) (-1)
    -- the int is passed as an unsigned int
    match HostAndPort.fromParts ip n.toUInt32 with
    | .ok h => .ok h
    | .error ex => .error (.thrown (.hostException ex))

/-! ## §4. The directory. -/

/-- There is nothing in the text but spaces. -/
def OnlySpaces (s : StdString) : Prop := ∀ c ∈ s, c = 32

theorem findFirstNotBlank_eq_none {s : StdString} : findFirstNotBlank s = none ↔ OnlySpaces s := by
  unfold findFirstNotBlank
  rw [List.findIdx?_eq_none_iff]
  constructor
  · intro h c hc
    simpa using h c hc
  · intro h c hc
    simpa using h c hc

variable {env}

theorem inOpenShiftContainer_iff :
    inOpenShiftContainer env = true ↔ ∃ dir, env .repoDir = some dir ∧ ¬ OnlySpaces dir := by
  unfold inOpenShiftContainer
  cases env .repoDir with
  | none => simp
  | some dir =>
      show (findFirstNotBlank dir).isSome = true ↔ _
      rw [← Option.ne_none_iff_isSome, Ne, findFirstNotBlank_eq_none]
      simp

/-- **In a container there is a directory**, and every path in it is one that the functions
return. -/
theorem getRepoPath_of_inContainer (h : inOpenShiftContainer env = true) (file : StdString) :
    ∃ dir, env .repoDir = some dir ∧ getRepoDir env = .ok dir ∧
      (∃ path, getRepoPath env file = .ok path) ∧
      ∃ config, getConfigurationDir env = .ok config := by
  obtain ⟨dir, hdir, hspaces⟩ := inOpenShiftContainer_iff.mp h
  have hne : dir ≠ [] := by
    intro hnil
    rw [hnil] at hspaces
    exact hspaces (fun c hc => absurd hc List.not_mem_nil)
  have hrepo : getRepoDir env = .ok dir := by
    unfold getRepoDir
    rw [hdir]
    exact if_neg hne
  refine ⟨dir, hdir, hrepo, ?_, ?_⟩
  · unfold getRepoPath
    rw [hrepo]
    split
    next => exact ⟨_, rfl⟩
    next => exact ⟨_, rfl⟩
  · unfold getConfigurationDir
    rw [hrepo, returns_bind]
    split
    next => exact ⟨_, rfl⟩
    next => exact ⟨_, rfl⟩

end OpenShiftUtil

end EzBakeCommon.Hosts
