import Edelib.Config.ReadRuns

/-! # Application settings

A resource has the configuration of the system and that of the user, each if its file could be
loaded. A get asks one of them, or one after the other; a set changes that of the user. The
file of a domain is its bytes, or missing, in each of the two places.
-/
namespace Edelib
open Foundation Config

inductive ResourceType
  | sysFirst | userFirst | sysOnly | userOnly
deriving DecidableEq, Repr

namespace Config
variable {D F : Type}

def ReadAnswer.found : ReadAnswer D F → Bool
  | flag b => b
  | int r => r.1
  | bool r => r.1
  | double r => r.1
  | float r => r.1
  | char r => r.1
  | buffer ret => ret.isSome
  | allocated ret => ret.isSome

def ReadCall.notFound : ReadCall D F → ReadAnswer D F
  | exist _ => .flag false
  | keyExist _ _ => .flag false
  | int _ _ deflt => .int (false,deflt)
  | bool _ _ deflt => .bool (false,deflt)
  | double _ _ deflt => .double (false,deflt)
  | long _ _ deflt => .int (false,deflt)
  | float _ _ deflt => .float (false,deflt)
  | char _ _ deflt => .char (false,deflt)
  | get _ _ _ => .buffer none
  | getLocalized _ _ _ _ => .buffer none
  | getAllocated _ _ => .allocated none

def ReadCall.isGet : ReadCall D F → Bool
  | exist _ => false
  | keyExist _ _ => false
  | _ => true

end Config

structure ResourceGet (D F : Type) where
  call : ReadCall D F
  isGet : call.isGet = true
  rt : ResourceType

/-- A set of a resource; the overloads for numbers set their text. -/
inductive ResourceSet
  | set (sect key value : CString)
  | setLocalized (lang : Option CString) (sect key value : CString)

structure Resource where
  sysConf : Option Config
  userConf : Option Config

namespace Resource

section Fetch
variable {D F : Type} (atof : CString → D) (narrow : D → F)

def fromSys (r : Resource) (call : ReadCall D F) : ReadAnswer D F × Resource :=
  match r.sysConf with
  | none => (call.notFound,r)
  | some c => ((call.run atof narrow c).1,{ r with sysConf := some (call.state atof narrow c) })

def fromUser (r : Resource) (call : ReadCall D F) : ReadAnswer D F × Resource :=
  match r.userConf with
  | none => (call.notFound,r)
  | some c => ((call.run atof narrow c).1,{ r with userConf := some (call.state atof narrow c) })

def fetch (r : Resource) (g : ResourceGet D F) : ReadAnswer D F × Resource :=
  match g.rt with
  | .sysOnly => r.fromSys atof narrow g.call
  | .userOnly => r.fromUser atof narrow g.call
  | .sysFirst =>
    let (a,r) := r.fromSys atof narrow g.call
    if a.found then (a,r)
    else
      let (a,r) := r.fromUser atof narrow g.call
      if a.found then (a,r) else (g.call.notFound,r)
  | .userFirst =>
    let (a,r) := r.fromUser atof narrow g.call
    if a.found then (a,r)
    else
      let (a,r) := r.fromSys atof narrow g.call
      if a.found then (a,r) else (g.call.notFound,r)

theorem fromUser_sysConf (r : Resource) (call : ReadCall D F) :
    (r.fromUser atof narrow call).2.sysConf = r.sysConf := by
  unfold fromUser
  cases r.userConf <;> rfl

end Fetch

def storeIn (c : Config) : ResourceSet → Config
  | .set sect key value => c.set sect key value
  | .setLocalized lang sect key value => c.setLocalized lang sect key value

/-- `STORE_RESOURCE`: without a configuration of the user, an empty one is made. -/
def store (r : Resource) (s : ResourceSet) : Resource :=
  { r with userConf := some (storeIn (r.userConf.getD Config.empty) s) }

def storeAll (r : Resource) (sets : List ResourceSet) : Resource := sets.foldl store r

/-- Load one of the two files; what was read of a malformed one is dropped. -/
def loadConf (file : Option (List UInt8)) : Option (Option Config) :=
  match file with
  | none => some none
  | some f => (Config.empty.load f).map (fun res => if res.1 then some res.2 else none)

/-- `load` of the files found: whether there is a configuration at all. No result is a write
outside a buffer. -/
def load (sysFile userFile : Option (List UInt8)) : Option (Bool × Resource) :=
  match loadConf sysFile,loadConf userFile with
  | some sys,some user => some (sys.isSome || user.isSome,⟨sys,user⟩)
  | _, _ => none

/-- `save`: the bytes that are written over the user's file, if there is a configuration. -/
def save (r : Resource) : Option (List UInt8) := r.userConf.map Config.save

end Resource
end Edelib
