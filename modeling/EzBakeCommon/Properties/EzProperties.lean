/-
  EzBakeCommon.Properties.EzProperties — the class EzProperties, method by method.

  An object of `java.util.Properties`, or of a subclass, is its own layer (its
  class and its own table) followed by the layers of its `defaults`; the empty
  list is the null reference.  A call on the object goes through the layers
  from the front: `Properties.getProperty` looks in its own table and then calls
  `defaults.getProperty`, which is the method of the NEXT layer's class.

  A method that changes the object answers with the object it leaves behind,
  also when it throws.
-/
import EzBakeCommon.Properties.Encryption

namespace EzBakeCommon.Properties

open Library

/-! ## §1. Objects. -/

/-- The entries of one `Hashtable` with string keys and values. -/
abbrev Table := Finmap (fun _ : JavaString => JavaString)

/-- The class of an object, with the field that `EzProperties` adds. -/
inductive PropertiesClass where
  | properties
  | ezProperties (cryptoProvider : Option TextCryptoProvider)

/-- An object without its defaults. -/
structure Layer where
  cls : PropertiesClass
  table : Table

/-- A reference: an object and the chain of its defaults, or null. -/
abbrev PropertiesRef := List Layer

/-- An object of the class `EzProperties`. -/
structure EzProperties where
  cryptoProvider : Option TextCryptoProvider
  table : Table
  defaults : PropertiesRef

/-- The object, as a reference. -/
def EzProperties.toProperties (e : EzProperties) : PropertiesRef :=
  ⟨.ezProperties e.cryptoProvider, e.table⟩ :: e.defaults

/-! ## §2. Reading. -/

/-- `EzProperties.decrypt`, under the provider of the object it is called on. -/
def decrypt (cryptoProvider : Option TextCryptoProvider) :
    Option JavaString → Except JavaException (Option JavaString)
  | none => .ok none
  | some value =>
      if isEncryptedValue (some value) then
        match cryptoProvider with
        | none => .error (.illegalState "Crypto provider has not been initialized!")
        | some provider => decryptPropertyValue value provider
      else .ok (some value)

/-- `java.util.Properties.getProperty(key)`: the object's own table, then the
answer of its defaults. -/
def superGetProperty (table : Table) (key : JavaString)
    (fromDefaults : Except JavaException (Option JavaString)) :
    Except JavaException (Option JavaString) :=
  match table.lookup key with
  | some value => .ok (some value)
  | none => fromDefaults

/-- `getProperty(key)` of whatever class the object has. -/
def PropertiesRef.getProperty :
    PropertiesRef → JavaString → Except JavaException (Option JavaString)
  | [], _ => .ok none
  | layer :: defaults, key =>
      let fromSuper := superGetProperty layer.table key (PropertiesRef.getProperty defaults key)
      match layer.cls with
      | .properties => fromSuper
      | .ezProperties cryptoProvider => fromSuper >>= decrypt cryptoProvider

/-- `java.util.Properties.getProperty(key, defaultValue)`: it calls
`getProperty(key)`, which may be overridden. -/
def superGetPropertyOr (p : PropertiesRef) (key : JavaString) (defaultValue : Option JavaString) :
    Except JavaException (Option JavaString) := do
  match ← p.getProperty key with
  | some value => return some value
  | none => return defaultValue

/-- `getProperty(key, defaultValue)` of whatever class the object has. -/
def PropertiesRef.getPropertyOr (p : PropertiesRef) (key : JavaString)
    (defaultValue : Option JavaString) : Except JavaException (Option JavaString) :=
  let fromSuper := superGetPropertyOr p key defaultValue
  match p with
  | ⟨.ezProperties cryptoProvider, _⟩ :: _ => fromSuper >>= decrypt cryptoProvider
  | _ => fromSuper

/-- `java.util.Properties.stringPropertyNames`: the names of the defaults too. -/
def PropertiesRef.stringPropertyNames : PropertiesRef → Finset JavaString
  | [] => ∅
  | layer :: defaults => PropertiesRef.stringPropertyNames defaults ∪ layer.table.keys

/-- `PropertiesEncryptionUtil.isEncryptedProperty`. -/
def isEncryptedProperty (props : PropertiesRef) (key : JavaString) : Except JavaException Bool := do
  return isEncryptedValue (← props.getProperty key)

/-- `PropertiesEncryptionUtil.decryptProperty`. -/
def decryptProperty (props : PropertiesRef) (key : JavaString) (provider : TextCryptoProvider) :
    Except JavaException (Option JavaString) := do
  if !(← isEncryptedProperty props key) then return none
  match ← props.getProperty key with
  | some value => decryptPropertyValue value provider
  | none => throw .nullPointer

namespace EzProperties

def getProperty (e : EzProperties) (key : JavaString) :
    Except JavaException (Option JavaString) :=
  e.toProperties.getProperty key

def getPropertyOr (e : EzProperties) (key : JavaString) (defaultValue : Option JavaString) :
    Except JavaException (Option JavaString) :=
  e.toProperties.getPropertyOr key defaultValue

def stringPropertyNames (e : EzProperties) : Finset JavaString :=
  e.toProperties.stringPropertyNames

/-! ## §3. Construction and writing. -/

/-- `putAll`: the entries of the argument's OWN table, not of its defaults. -/
def putAll (e : EzProperties) : PropertiesRef → Except JavaException Unit × EzProperties
  | [] => (.error .nullPointer, e)
  | layer :: _ => (.ok (), { e with table := layer.table ∪ e.table })

/-- `new EzProperties(props, copyProperties)`. -/
def new (props : PropertiesRef) (copyProperties : Bool) : Except JavaException EzProperties :=
  if !copyProperties then .ok ⟨none, ∅, props⟩
  else
    match putAll ⟨none, ∅, []⟩ props with
    | (.ok _, e) => .ok e
    | (.error x, _) => .error x

/-- `new EzProperties()`. -/
def empty : EzProperties := ⟨none, ∅, []⟩

def setTextCryptoProvider (e : EzProperties) (provider : Option TextCryptoProvider) :
    EzProperties :=
  { e with cryptoProvider := provider }

/-- `Hashtable.put` refuses null. -/
def superSetProperty (e : EzProperties) (key : JavaString) :
    Option JavaString → Except JavaException Unit × EzProperties
  | some value => (.ok (), { e with table := e.table.insert key value })
  | none => (.error .nullPointer, e)

def setProperty (e : EzProperties) (key : JavaString) (value : Option JavaString)
    (isEncrypted : Bool) : Except JavaException Unit × EzProperties :=
  if isEncrypted then
    match e.cryptoProvider with
    | none => (.error (.illegalState "Crypto provider has not been initialized!"), e)
    | some provider =>
        match encryptPropertyValue value provider with
        | .ok encrypted => e.superSetProperty key (some encrypted)
        | .error x => (.error x, e)
  else e.superSetProperty key value

/-! ## §4. Merging. -/

/-- The names that both objects show. -/
def getCollisions (e : EzProperties) (toCheck : PropertiesRef) : Finset JavaString :=
  e.stringPropertyNames ∩ toCheck.stringPropertyNames

def mergeProperties (e : EzProperties) (toMerge : PropertiesRef) (shouldOverride : Bool) :
    Except JavaException Unit × EzProperties :=
  if !shouldOverride && toMerge.isEmpty then (.error .nullPointer, e)
  else if !shouldOverride && !decide (e.getCollisions toMerge = ∅) then
    (.error (.duplicateProperty (e.getCollisions toMerge)), e)
  else e.putAll toMerge

/-- What the file system answers about a path.  `stream` gives the paths that
match a glob pattern, in the order of the directory stream; of each path the
model keeps what `Properties.load` makes of the file. -/
structure Directory where
  name : String
  isDirectory : Bool
  stream : String → Except JavaException (List (Except JavaException Table))

/-- `for(Path p : ds) { … }` -/
def loadEach (shouldOverride : Bool) :
    List (Except JavaException Table) → EzProperties → Except JavaException Unit × EzProperties
  | [], e => (.ok (), e)
  | .error x :: _, e => (.error x, e)
  | .ok pro :: ds, e =>
      match e.mergeProperties [⟨.properties, pro⟩] shouldOverride with
      | (.ok _, e) => loadEach shouldOverride ds e
      | (.error x, e) => (.error x, e)

def loadFromDirectory (e : EzProperties) (directory : Option Directory) (globPattern : String)
    (shouldOverride : Bool) : Except JavaException Unit × EzProperties :=
  match directory with
  | none => (.error (.illegalArgument "The directory null is null or does not exist!"), e)
  | some directory =>
      if !directory.isDirectory then
        (.error (.illegalArgument
          ("The directory " ++ directory.name ++ " is null or does not exist!")), e)
      else
        match directory.stream globPattern with
        | .error x => (.error x, e)
        | .ok ds => loadEach shouldOverride ds e

end EzProperties

end EzBakeCommon.Properties
