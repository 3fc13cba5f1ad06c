/-
  EzBakeCommon.Properties.ClassPath — resources of the class path, and the whole
  public interface of EzProperties as one machine.

  `ClasspathResources.getResource` asks three lookups one after another.  The
  class loaders, and what they find, are a parameter: a resource is known by its
  name, and of its URL the model keeps what `Properties.load` makes of it.
-/
import EzBakeCommon.Library.Machine
import EzBakeCommon.Properties.EzProperties

namespace EzBakeCommon.Properties

open Library

/-! ## §1. `ClasspathResources`. -/

/-- The three lookups of a resource by name; each gives the URL, if there is one. -/
structure ClassPath (Url : Type*) where
  /-- `Resources.getResource(name)`, through the context class loader; it throws
  where this is `none`. -/
  resources : String → Option Url
  /-- `ClasspathResources.class.getClass().getResource(name)`. -/
  ofClassClass : String → Option Url
  /-- `ClasspathResources.class.getResource(name)`. -/
  ofClass : String → Option Url
  /-- `toMerge.load(url.openStream())`. -/
  load : Url → Except JavaException Table

/-- `ClasspathResources.getResource`. -/
def ClassPath.getResource {Url : Type*} (cp : ClassPath Url) : Option String → Option Url
  | none => none
  | some resource =>
      if resource = "" then none
      else
        -- what the class loaders find is overwritten, found or not
        let _retVal := cp.resources resource
        match cp.ofClassClass resource with
        | some retVal => some retVal
        | none => cp.ofClass resource

namespace EzProperties

variable {Url : Type*}

def loadFromClassPath (e : EzProperties) (cp : ClassPath Url) (resource : Option String)
    (shouldOverride : Bool) : Except JavaException Unit × EzProperties :=
  match cp.getResource resource with
  | none =>
      (.error (.illegalArgument (resource.getD "null"
        ++ " is either or null or does not exist on the class path!")), e)
  | some resourceUrl =>
      match cp.load resourceUrl with
      | .ok toMerge => e.mergeProperties [⟨.properties, toMerge⟩] shouldOverride
      | .error x => (.error x, e)

/-! ## §2. The public interface as one machine. -/

/-- The public operations on an object. -/
inductive Op (Url : Type*) where
  | setTextCryptoProvider (provider : Option TextCryptoProvider)
  | setProperty (key : JavaString) (value : Option JavaString) (isEncrypted : Bool)
  | mergeProperties (toMerge : PropertiesRef) (shouldOverride : Bool)
  | loadFromDirectory (directory : Option Directory) (globPattern : String)
      (shouldOverride : Bool)
  | loadFromClassPath (cp : ClassPath Url) (resource : Option String) (shouldOverride : Bool)
  | getProperty (key : JavaString)
  | getPropertyOr (key : JavaString) (defaultValue : Option JavaString)
  | getCollisions (toCheck : PropertiesRef)

/-- What an operation returns. -/
inductive Answer where
  | done
  | text (value : Option JavaString)
  | names (commonValues : Finset JavaString)

/-- One call on the object. -/
def step (e : EzProperties) : Op Url → Except JavaException Answer × EzProperties
  | .setTextCryptoProvider provider => (.ok .done, e.setTextCryptoProvider provider)
  | .setProperty key value isEncrypted =>
      ((e.setProperty key value isEncrypted).1.map (fun _ => .done),
        (e.setProperty key value isEncrypted).2)
  | .mergeProperties toMerge shouldOverride =>
      ((e.mergeProperties toMerge shouldOverride).1.map (fun _ => .done),
        (e.mergeProperties toMerge shouldOverride).2)
  | .loadFromDirectory directory globPattern shouldOverride =>
      ((e.loadFromDirectory directory globPattern shouldOverride).1.map (fun _ => .done),
        (e.loadFromDirectory directory globPattern shouldOverride).2)
  | .loadFromClassPath cp resource shouldOverride =>
      ((e.loadFromClassPath cp resource shouldOverride).1.map (fun _ => .done),
        (e.loadFromClassPath cp resource shouldOverride).2)
  | .getProperty key => ((e.getProperty key).map .text, e)
  | .getPropertyOr key defaultValue => ((e.getPropertyOr key defaultValue).map .text, e)
  | .getCollisions toCheck =>
      (if toCheck.isEmpty then .error .nullPointer else .ok (.names (e.getCollisions toCheck)), e)

/-- The object as a machine. -/
def machine (Url : Type*) : Machine EzProperties (Op Url) (Except JavaException Answer) := ⟨step⟩

/-- The session of an object that makes these calls. -/
def session (e : EzProperties) (ops : List (Op Url)) :
    Session EzProperties (Op Url) (Except JavaException Answer) := (machine Url).run e ops

end EzProperties

end EzBakeCommon.Properties
