import Edelib.Config.Model
import Edelib.Foundation.Separated

/-! # Icon themes

A theme is found by its index file in one of the base directories. Its index names the
subdirectories with icons, and the themes that it inherits, which are loaded in turn; the
first theme that names none is followed by the fallback.
-/
namespace Edelib
open Foundation StrUtil

/-- `"hicolor"` -/
def fallbackTheme : CString := ⟨[104,105,99,111,108,111,114],by decide⟩

inductive IconSizes
  | tiny | small | medium | large | huge | enormous
deriving DecidableEq

def IconSizes.toInt : IconSizes → ℤ
  | tiny => 16
  | small => 22
  | medium => 32
  | large => 48
  | huge => 64
  | enormous => 128

inductive IconContext
  | any | action | application | device | filesystem | mimetype | stock | emblem | misc
deriving DecidableEq

structure IconPlace where
  dir : CString
  theme : CString
  subdir : CString
deriving DecidableEq

structure IconDirInfo extends IconPlace where
  size : ℤ
  context : IconContext
deriving DecidableEq

/-- What a theme is found in: the base directories, the index files that can be loaded, and what `file_test` says. -/
structure IconEnv where
  home : CString
  userData : CString
  systemData : List CString
  files : List (CString × Config)
  isDir : CString → Bool
  isRegular : CString → Bool

/-- `"/"` -/
def dirSeparator : CString := ⟨[47],by decide⟩

def IconPlace.path (pl : IconPlace) : CString := pl.dir ++ pl.theme ++ dirSeparator ++ pl.subdir

namespace IconTheme

/-! ## Names of the index file, its section and keys -/

/-- `"/.icons/"` -/
def homeIcons : CString := ⟨[47,46,105,99,111,110,115,47],by decide⟩

/-- `"/icons/"` -/
def dataIcons : CString := ⟨[47,105,99,111,110,115,47],by decide⟩

/-- `"/usr/share/pixmaps/"` -/
def pixmaps : CString := ⟨[47,117,115,114,47,115,104,97,114,101,47,112,105,120,109,97,112,115,47],by decide⟩

/-- `"index.theme"` -/
def indexTheme : CString := ⟨[105,110,100,101,120,46,116,104,101,109,101],by decide⟩

/-- `"Icon Theme"` -/
def iconThemeSect : CString := ⟨[73,99,111,110,32,84,104,101,109,101],by decide⟩

/-- `"Directories"` -/
def directoriesKey : CString := ⟨[68,105,114,101,99,116,111,114,105,101,115],by decide⟩

/-- `"Inherits"` -/
def inheritsKey : CString := ⟨[73,110,104,101,114,105,116,115],by decide⟩

/-- `"Size"` -/
def sizeKey : CString := ⟨[83,105,122,101],by decide⟩

/-- `"Context"` -/
def contextKey : CString := ⟨[67,111,110,116,101,120,116],by decide⟩

/-- The names of the contexts: Actions, Devices, FileSystems, MimeTypes, Applications, Stock, Emblems, Misc. -/
def contextNames : List (List UInt8 × IconContext) :=
  [([65,99,116,105,111,110,115],.action),([68,101,118,105,99,101,115],.device),
    ([70,105,108,101,83,121,115,116,101,109,115],.filesystem),([77,105,109,101,84,121,112,101,115],.mimetype),
    ([65,112,112,108,105,99,97,116,105,111,110,115],.application),([83,116,111,99,107],.stock),
    ([69,109,98,108,101,109,115],.emblem),([77,105,115,99],.misc)]

/-! ## Reading an index -/

def checkSize (sz : ℤ) : ℤ :=
  if sz < IconSizes.tiny.toInt ∨ sz > IconSizes.enormous.toInt then IconSizes.medium.toInt else sz

def figureContext (ctx : CString) : IconContext :=
  ((contextNames.find? (fun n => n.1 == ctx.bytes)).map (fun n => n.2)).getD .any

def commaList (str : List UInt8) : List CString :=
  (Separated.tokens 44 str).map (fun tok => CString.ofBuf (strTrim tok))

def bufSize : ℕ := 1024

def inheritsMax : ℕ := 256

def readInherits (buf : List UInt8) : List CString := commaList ((CString.ofBuf buf).bytes.take inheritsMax)

variable (env : IconEnv)

def initBaseDirs : List CString :=
  [env.home ++ homeIcons,env.userData ++ dataIcons] ++ env.systemData.map (fun dir => dir ++ dataIcons) ++ [pixmaps]

def findIndex (name : CString) : Option Config :=
  (initBaseDirs env).findSome? (fun dir => env.files.lookup (dir ++ name ++ dirSeparator ++ indexTheme))

def subdirSize (c : Config) (dl : CString) : (ℤ × IconContext) × Config :=
  let (size,c) := c.getInt dl sizeKey 0
  let (buf,c) := c.get dl contextKey bufSize
  ((checkSize size,(buf.map (fun buf => figureContext (CString.ofBuf buf))).getD .any),c)

def subdirPlaces (name dl : CString) : List IconPlace :=
  ((initBaseDirs env).map (fun dir => ⟨dir,name,dl⟩)).filter (fun pl => env.isDir pl.path)

def recordDirs (name : CString) : List CString → Config → List IconDirInfo × Config
  | [],c => ([],c)
  | dl :: dls,c =>
    let ((size,context),c) := subdirSize c dl
    let (infos,c) := recordDirs name dls c
    ((subdirPlaces env name dl).map (fun pl => ⟨pl,size,context⟩) ++ infos,c)

/-- What `load_theme` takes from an index: directories, and the themes to go on to if it names any. -/
def readTheme (name : CString) : Option (List IconDirInfo × Option (List CString)) :=
  (findIndex env name).bind fun c =>
    match c.getAllocated iconThemeSect directoriesKey with
    | (none,_) => none
    | (some dirs,c) =>
      let (infos,c) := recordDirs env name (commaList dirs.bytes) c
      some (infos,(c.get iconThemeSect inheritsKey bufSize).1.map readInherits)

end IconTheme
open IconTheme

/-! ## Loading -/

structure IconThemePrivate where
  fallbackVisited : Bool
  currTheme : CString
  dirlist : List IconDirInfo

namespace IconTheme
variable (env : IconEnv)

/-- The calls that are nested are no deeper than the bound. -/
def loadTheme : ℕ → CString → IconThemePrivate → Option IconThemePrivate
  | 0,_,_ => none
  | depth + 1,name,priv =>
    match readTheme env name with
    | none => some priv
    | some (infos,inherits) =>
      let priv := { priv with dirlist := priv.dirlist ++ infos }
      match inherits with
      | some parents => parents.foldlM (fun priv p => loadTheme depth p priv) priv
      | none =>
        if priv.fallbackVisited then some priv
        else loadTheme depth fallbackTheme { priv with fallbackVisited := true }

def load (depth : ℕ) (name : CString) : Option IconThemePrivate := loadTheme env depth name ⟨false,name,[]⟩

/-! ## Finding an icon -/

/-- `".png"` and `".xpm"` -/
def iconExtensions : List CString := [⟨[46,112,110,103],by decide⟩,⟨[46,120,112,109],by decide⟩]

def candidates (icon : CString) : List CString :=
  if iconExtensions.any (fun e => strEnds icon.bytes e.bytes) then [icon] else iconExtensions.map (fun e => icon ++ e)

def findIcon (priv : IconThemePrivate) (icon : CString) (sz : IconSizes) (ctx : IconContext) : CString :=
  let inDirs := fun dirs : List IconDirInfo =>
    dirs.flatMap (fun i => (candidates icon).map (fun file => i.path ++ dirSeparator ++ file))
  let inBase := (initBaseDirs env).flatMap (fun dir => (candidates icon).map (fun file => dir ++ file))
  if priv.dirlist = [] then .empty
  else ((inDirs (priv.dirlist.filter (fun i => i.size = sz.toInt ∧ (i.context = ctx ∨ ctx = .any))) ++ inBase ++
    inDirs priv.dirlist).find? env.isRegular).getD .empty

end IconTheme
end Edelib
