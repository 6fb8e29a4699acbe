import Edelib.Config.File
import Edelib.Text.String

/-! # Desktop files

A desktop file is a configuration with one section, and with a type that is kept beside the
entry for it. `none` is a failed assertion, a write or read past the end of a buffer, or a
String that grows past its 32-bit capacity.
-/
namespace Edelib
open Foundation

inductive DesktopFileErrors
  | success | empty | errFile | errBad
  deriving DecidableEq

inductive DesktopFileType
  | unknown | application | link | directory
  deriving DecidableEq

structure DesktopFile where
  config : Config
  errcode : DesktopFileErrors
  dtype : DesktopFileType

namespace DesktopFile

def new : DesktopFile where
  config := .empty
  errcode := .empty
  dtype := .unknown

/-! ## Names of the section, its keys and the types -/

/-- `"Desktop Entry"`. -/
def entrySect : CString := CString.ofBuf [68,101,115,107,116,111,112,32,69,110,116,114,121]

/-- `"Type"`. -/
def typeKey : CString := CString.ofBuf [84,121,112,101]

/-- `"Name"`. -/
def nameKey : CString := CString.ofBuf [78,97,109,101]

/-- `"GenericName"`. -/
def genericNameKey : CString := CString.ofBuf [71,101,110,101,114,105,99,78,97,109,101]

/-- `"Comment"`. -/
def commentKey : CString := CString.ofBuf [67,111,109,109,101,110,116]

/-- `"Icon"`. -/
def iconKey : CString := CString.ofBuf [73,99,111,110]

/-- `"Exec"`. -/
def execKey : CString := CString.ofBuf [69,120,101,99]

/-- `"TryExec"`. -/
def tryExecKey : CString := CString.ofBuf [84,114,121,69,120,101,99]

/-- `"Path"`. -/
def pathKey : CString := CString.ofBuf [80,97,116,104]

/-- `"URL"`. -/
def urlKey : CString := CString.ofBuf [85,82,76]

/-- `"MimeType"`. -/
def mimeTypeKey : CString := CString.ofBuf [77,105,109,101,84,121,112,101]

/-- `"NoDisplay"`. -/
def noDisplayKey : CString := CString.ofBuf [78,111,68,105,115,112,108,97,121]

/-- `"Hidden"`. -/
def hiddenKey : CString := CString.ofBuf [72,105,100,100,101,110]

/-- `"Terminal"`. -/
def terminalKey : CString := CString.ofBuf [84,101,114,109,105,110,97,108]

/-- `"StartupNotify"`. -/
def startupNotifyKey : CString := CString.ofBuf [83,116,97,114,116,117,112,78,111,116,105,102,121]

/-- `"OnlyShowIn"`. -/
def onlyShowInKey : CString := CString.ofBuf [79,110,108,121,83,104,111,119,73,110]

/-- `"NotShowIn"`. -/
def notShowInKey : CString := CString.ofBuf [78,111,116,83,104,111,119,73,110]

/-- `"Application"`. -/
def applicationName : CString := CString.ofBuf [65,112,112,108,105,99,97,116,105,111,110]

/-- `"Link"`. -/
def linkName : CString := CString.ofBuf [76,105,110,107]

/-- `"Directory"`. -/
def directoryName : CString := CString.ofBuf [68,105,114,101,99,116,111,114,121]

/-! ## Loading, creating and the type -/

def bufSize : ℕ := 256

def typeOfBuf (buf : CString) : Option DesktopFileType :=
  if buf.strncmp applicationName 11 = 0 then some .application
  else if buf.strncmp linkName 4 = 0 then some .link
  else if buf.strncmp directoryName 9 = 0 then some .directory
  else none

def loadType (d : DesktopFile) (status : Bool) (config : Config) : Bool × DesktopFile :=
  if status = false then (false,{ d with config, errcode := .errBad })
  else
    match config.get entrySect typeKey bufSize with
    | (none,config) => (false,{ d with config, errcode := .errBad })
    | (some buf,config) =>
      match typeOfBuf (CString.ofBuf buf) with
      | some t => (true,{ config, dtype := t, errcode := .success })
      | none => (false,{ config, dtype := .unknown, errcode := .errBad })

/-- The content of the file, when it can be opened; the result says whether it was loaded. -/
def load (d : DesktopFile) : Option (List UInt8) → Option (Bool × DesktopFile)
  | none => some (d.loadType false { d.config.clear with errcode := .file })
  | some f => (d.config.load f).map (fun r => d.loadType r.1 r.2)

/-- The case of a directory has no `break`, so it runs into the failing assertion. -/
def createNew (d : DesktopFile) (t : DesktopFileType) : Option DesktopFile := do
  let config := d.config.clear
  let val ←
    match t with
    | .application => some applicationName
    | .link => some linkName
    | .directory => none
    | .unknown => none
  some { config := config.set entrySect typeKey val, dtype := t, errcode := .success }

def type (d : DesktopFile) : DesktopFileType := if d.errcode = .success then d.dtype else .unknown

/-- `errcode == DESK_FILE_SUCCESS || errcode == DESK_FILE_EMPTY`. -/
def settable (d : DesktopFile) : Bool := d.errcode = .success ∨ d.errcode = .empty

def setType (d : DesktopFile) (t : DesktopFileType) : Option DesktopFile :=
  if d.settable then do
    let val ←
      match t with
      | .application => some applicationName
      | .link => some linkName
      | .directory => some directoryName
      | .unknown => none
    some { d with config := d.config.set entrySect typeKey val }
  else some d

/-! ## Setters -/

/-- `SET_KEY`. -/
def setKey (d : DesktopFile) (key val : CString) : DesktopFile :=
  if d.settable then { d with config := d.config.set entrySect key val } else d

def setFlag (d : DesktopFile) (key : CString) (val : Bool) : DesktopFile :=
  d.setKey key (if val then CString.ofBuf [49] else CString.ofBuf [48])

/-- `SET_LOCALIZED`, where the environment has the given `LANG`. -/
def setLocalized (d : DesktopFile) (lang : Option CString) (key val : CString) : DesktopFile :=
  if d.settable then { d with config := d.config.setLocalized lang entrySect key val } else d

def setName (d : DesktopFile) (lang : Option CString) (val : CString) : DesktopFile := d.setLocalized lang nameKey val

def setGenericName (d : DesktopFile) (lang : Option CString) (val : CString) : DesktopFile :=
  d.setLocalized lang genericNameKey val

def setComment (d : DesktopFile) (lang : Option CString) (val : CString) : DesktopFile :=
  d.setLocalized lang commentKey val

def setIcon (d : DesktopFile) (lang : Option CString) (val : CString) : DesktopFile := d.setLocalized lang iconKey val

def setExec (d : DesktopFile) (val : CString) : DesktopFile := d.setKey execKey val

def setTryExec (d : DesktopFile) (val : CString) : DesktopFile := d.setKey tryExecKey val

def setPath (d : DesktopFile) (val : CString) : DesktopFile := d.setKey pathKey val

def setUrl (d : DesktopFile) (val : CString) : DesktopFile := d.setKey urlKey val

def setMimeType (d : DesktopFile) (val : CString) : DesktopFile := d.setKey mimeTypeKey val

def setNoDisplay (d : DesktopFile) (val : Bool) : DesktopFile := d.setFlag noDisplayKey val

def setHidden (d : DesktopFile) (val : Bool) : DesktopFile := d.setFlag hiddenKey val

def setTerminal (d : DesktopFile) (val : Bool) : DesktopFile := d.setFlag terminalKey val

def setStartupNotify (d : DesktopFile) (val : Bool) : DesktopFile := d.setFlag startupNotifyKey val

/-! ## The lists of environments -/

/-- `all += more` on a String of the given capacity. -/
def addTo (all : List UInt8) (cap : ℕ) (more : List UInt8) : Option (List UInt8 × ℕ) :=
  if all.length + more.length ≤ cap then some (all ++ more,cap)
  else
    let cap := Text.sizeType (Text.sizeType (cap + more.length) * 2)
    if all.length + more.length ≤ cap then some (all ++ more,cap) else none

def joinNames (all : List UInt8) (cap : ℕ) : List CString → Option (List UInt8)
  | [] => some all
  | it :: lst => do
    let (all,cap) ← addTo all cap it.bytes
    let (all,cap) ← addTo all cap [59]
    joinNames all cap lst

/-- One of the two lists is set, unless there is the other. -/
def setShowIn (d : DesktopFile) (key other : CString) (lst : List CString) : Option DesktopFile :=
  let (found,config) := d.config.keyExist entrySect other
  let d := { d with config }
  if found then some d
  else if lst.isEmpty then some d
  else if d.errcode ≠ .success ∧ d.errcode ≠ .empty then some d
  else do
    let all ← joinNames [] 256 lst
    some { d with config := d.config.set entrySect key (CString.ofBuf all) }

def setOnlyShowIn (d : DesktopFile) (lst : List CString) : Option DesktopFile :=
  d.setShowIn onlyShowInKey notShowInKey lst

def setNotShowIn (d : DesktopFile) (lst : List CString) : Option DesktopFile :=
  d.setShowIn notShowInKey onlyShowInKey lst

/-- The names are put behind those of a list. The buffer has one byte more than is asked for,
which holds what was there before. -/
def showIn (d : DesktopFile) (key : CString) (lst : List CString) (junk : UInt8) :
    Option (Bool × List CString × DesktopFile) :=
  if d.errcode = .success then
    match d.config.get entrySect key (bufSize - 1) with
    | (none,config) => some (false,lst,{ d with config })
    | (some buf,config) =>
      let buff := buf ++ [junk]
      if 0 ∈ buff then
        some (true,lst ++ (StrUtil.stringtok (CString.ofBuf buff).bytes [59]).map CString.ofBuf,{ d with config })
      else none
  else some (false,lst,d)

def onlyShowIn (d : DesktopFile) (lst : List CString) (junk : UInt8) : Option (Bool × List CString × DesktopFile) :=
  d.showIn onlyShowInKey lst junk

def notShowIn (d : DesktopFile) (lst : List CString) (junk : UInt8) : Option (Bool × List CString × DesktopFile) :=
  d.showIn notShowInKey lst junk

end DesktopFile
end Edelib
