import Edelib.Foundation.Transition
import Edelib.Icon.IconTheme
import Mathlib.Logic.Function.Basic

/-! # The icon loader

The loader remembers the icons that it looked up by name and size, each with the widget that
it was first set on. A new theme is put on these widgets. An image is what is opened from a
path at a size, zero for its own.
-/
namespace Edelib
open Foundation IconTheme
variable {ω ι : Type*} [DecidableEq ω]

structure IconLoaderItem (ω : Type*) where
  name : CString
  path : CString
  context : IconContext
  size : IconSizes
  sizeWh : ℤ
  widget : Option ω
deriving DecidableEq

/-- What the loader calls: the files, the images that can be opened from them, and the fallback icon. -/
structure LoaderEnv (ι : Type*) extends IconEnv where
  sharedImage : CString → ℤ → Option ι
  fallbackIcon : Option CString

structure IconRequest where
  name : CString
  size : IconSizes
  context : IconContext
  options : ℕ

/-- The widgets show an image and are live; `last` has what was last set on them through the theme. -/
structure LoaderState (ω ι : Type*) where
  theme : IconThemePrivate
  items : List (IconLoaderItem ω)
  image : ω → Option ι
  live : ω → Bool
  last : ω → Option IconRequest

namespace IconLoader

def optionNoAbsolutePath : ℕ := 2
def optionNoIconScale : ℕ := 8

def notSet (var key : ℕ) : Bool := var &&& key = 0

def sizeFor (sz : IconSizes) (options : ℕ) : ℤ := if notSet options optionNoIconScale then sz.toInt else 0

def findItem (items : List (IconLoaderItem ω)) (iconName : CString) (sz : IconSizes) : Option (IconLoaderItem ω) :=
  items.find? (fun it => it.name = iconName ∧ it.size = sz)

variable (env : LoaderEnv ι)

def getOrCreateItem (theme : IconThemePrivate) (items : List (IconLoaderItem ω)) (name : CString) (sz : IconSizes)
    (ctx : IconContext) (widg : Option ω) (scaleIcon : Bool) : IconLoaderItem ω × List (IconLoaderItem ω) :=
  match findItem items name sz with
  | some it => (it,items)
  | none =>
    let it := {
      name := name
      path := findIcon env.toIconEnv theme name sz ctx
      context := ctx
      size := sz
      sizeWh := if scaleIcon then sz.toInt else 0
      widget := widg }
    (it,items ++ [it])

def openDirectly (name : CString) (sz : IconSizes) (options : ℕ) : Option ι :=
  if notSet options optionNoAbsolutePath then env.sharedImage name (sizeFor sz options) else none

def openInTheme (theme : IconThemePrivate) (items : List (IconLoaderItem ω)) (name : CString) (sz : IconSizes)
    (ctx : IconContext) (options : ℕ) (widg : Option ω) (scaleIcon : Bool) : Option ι × List (IconLoaderItem ω) :=
  let (it,items) := getOrCreateItem env theme items name sz ctx widg scaleIcon
  match env.sharedImage it.path (sizeFor sz options) with
  | some img => (some img,items)
  | none =>
    match env.fallbackIcon with
    | none => (none,items)
    | some fallback =>
      let (it,items) := getOrCreateItem env theme items fallback sz ctx widg scaleIcon
      (env.sharedImage it.path (sizeFor sz options),items)

def getIconPath (t : LoaderState ω ι) (name : CString) (sz : IconSizes) (ctx : IconContext) :
    CString × LoaderState ω ι :=
  let (it,items) := getOrCreateItem env t.theme t.items name sz ctx none false
  (it.path,{ t with items })

def getIcon (t : LoaderState ω ι) (name : CString) (sz : IconSizes) (ctx : IconContext) (options : ℕ) :
    Option ι × LoaderState ω ι :=
  match openDirectly env name sz options with
  | some img => (some img,t)
  | none =>
    let (img,items) := openInTheme env t.theme t.items name sz ctx options none false
    (img,{ t with items })

def setIcon (t : LoaderState ω ι) (name : CString) (widget : ω) (sz : IconSizes) (ctx : IconContext) (options : ℕ) :
    Bool × LoaderState ω ι :=
  match openDirectly env name sz options with
  | some img => (true,{ t with
      image := Function.update t.image widget (some img)
      last := Function.update t.last widget none })
  | none =>
    let (img,items) := openInTheme env t.theme t.items name sz ctx options (some widget) true
    match img with
    | none => (false,{ t with items })
    | some img => (true,{ t with
        items
        image := Function.update t.image widget (some img)
        last := Function.update t.last widget (some ⟨name,sz,ctx,options⟩) })

/-- The loop of `reload_icons`; it has no result if it comes to a widget that is no more. -/
def reloadItems (theme : IconThemePrivate) (live : ω → Bool) :
    List (IconLoaderItem ω) → (ω → Option ι) → Option (List (IconLoaderItem ω) × (ω → Option ι))
  | [],image => some ([],image)
  | it :: items,image =>
    let it := { it with path := findIcon env.toIconEnv theme it.name it.size it.context }
    match it.widget with
    | none => (reloadItems theme live items image).map (fun r => (it :: r.1,r.2))
    | some w =>
      if live w = false then none
      else (reloadItems theme live items (Function.update image w (env.sharedImage it.path it.sizeWh))).map
        (fun r => (it :: r.1,r.2))

def reload (depth : ℕ) (name : CString) (t : LoaderState ω ι) : Option (LoaderState ω ι) :=
  (load env.toIconEnv depth name).bind fun theme =>
    (reloadItems env theme t.live t.items t.image).map fun r => { t with theme, items := r.1, image := r.2 }

end IconLoader
open IconLoader

/-! ## Runs -/

inductive LoaderAction (ω : Type*)
  | set (widget : ω) (name : CString) (sz : IconSizes) (ctx : IconContext) (options : ℕ)
  | get (name : CString) (sz : IconSizes) (ctx : IconContext) (options : ℕ)
  | getPath (name : CString) (sz : IconSizes) (ctx : IconContext)
  | destroy (widget : ω)

def LoaderState.initial (theme : IconThemePrivate) (image : ω → Option ι) : LoaderState ω ι where
  theme := theme
  items := []
  image := image
  live := fun _ => true
  last := fun _ => none

def LoaderAction.step (env : LoaderEnv ι) (t : LoaderState ω ι) : LoaderAction ω → Option (LoaderState ω ι)
  | set widget name sz ctx options => if t.live widget then some (setIcon env t name widget sz ctx options).2 else none
  | get name sz ctx options => some (getIcon env t name sz ctx options).2
  | getPath name sz ctx => some (getIconPath env t name sz ctx).2
  | destroy widget => if t.live widget then some { t with live := Function.update t.live widget false } else none

/-- Whatever theme is loaded, the live widgets show what it gives for what was last set on them, and
the others what they showed. -/
def LoaderState.Refreshed (env : LoaderEnv ι) (t : LoaderState ω ι) : Prop :=
  ∀ depth name theme, load env.toIconEnv depth name = some theme → ∃ t', reload env depth name t = some t' ∧
    ∀ w, t.live w = true → t'.image w = match t.last w with
      | some r => env.sharedImage (findIcon env.toIconEnv theme r.name r.size r.context) (sizeFor r.size r.options)
      | none => t.image w

end Edelib
