import Edelib.Foundation.CString
import Edelib.Foundation.Transition

/-! # Themes

A theme file is a program for the interpreter. What it defines is taken as it is left
there: a number with its `long`, a pair as an expression. Interpreters are made without
failure.
-/
namespace Edelib.Theme
open Foundation

inductive SchemeValue
  | string (s : CString)
  | number (n : ℤ)
  | pair (expr : ℕ)
  | other (id : ℕ)

/-- `(item value)`, where the item is a symbol or something else. -/
structure StyleItem where
  symbol : Option CString
  value : SchemeValue

abbrev Style := List StyleItem

/-- The variables of `theme.ss` after a file was run; the style defined last comes first. -/
structure Scheme where
  name : Option CString
  author : Option CString
  sample : Option CString
  styles : List (CString × Style)

/-- `theme.style-get`, without the values that are not pairs. -/
def Scheme.styleGet (sc : Scheme) (name : CString) : Style :=
  ((sc.styles.find? (fun s => s.1 = name)).map Prod.snd).getD []

structure ThemeP where
  sc : Option Scheme
  author : Option CString
  name : Option CString
  sample : Option CString
  cachedRet : Option Style
  isLoaded : Bool

def themePInit : ThemeP := ⟨none,none,none,none,none,false⟩

def getStyleOnce (priv : ThemeP) (styleName : CString) : Option Style × ThemeP :=
  match priv.cachedRet,priv.sc with
  | some style,_ => (some style,priv)
  | none,none => (none,priv)
  | none,some sc => if sc.styleGet styleName = [] then (none,priv)
    else (some (sc.styleGet styleName),{ priv with cachedRet := some (sc.styleGet styleName) })

/-! ## Loading -/

/-- A file that cannot be read to its end leaves in the interpreter what was run until then. -/
inductive ThemeFile
  | missing
  | noMemory (sc : Scheme)
  | unparsable (sc : Scheme)
  | good (sc : Scheme)

namespace ThemeP

def load (priv : ThemeP) (f : ThemeFile) : Bool × ThemeP :=
  if priv.sc.isSome then (false,priv)
  else match f with
    | .missing => (false,{ priv with isLoaded := false, sc := none })
    | .noMemory sc => (false,{ priv with isLoaded := false, sc := some sc })
    | .unparsable sc => (false,{ priv with isLoaded := false, sc := some sc })
    | .good sc => (true,{ priv with
        isLoaded := true, sc := some sc, name := sc.name, author := sc.author, sample := sc.sample })

def clear (_ : ThemeP) : ThemeP := themePInit

/-- The style that `apply_common_gui_elements` asks for. -/
def commonStyle : CString := ⟨[101,100,101],by decide⟩

/-- `ThemeLoader::load_with_path`; of what is done with the theme, the style it remembers. -/
def loadWithPath (priv : ThemeP) (f : ThemeFile) : Bool × ThemeP :=
  let priv := if priv.isLoaded then priv.clear else priv
  let r := priv.load f
  if r.1 then (true,(getStyleOnce r.2 commonStyle).2) else r

structure Holds (priv : ThemeP) (s : Scheme) : Prop where
  isLoaded : priv.isLoaded = true
  sc : priv.sc = some s
  name : priv.name = s.name
  author : priv.author = s.author
  sample : priv.sample = s.sample

def loadNext (priv : ThemeP) (f : ThemeFile) : Option ThemeP := some (priv.loadWithPath f).2

/-- A good file is loaded, and after a failure nothing is left. -/
def LoadLawful (priv : ThemeP) (f : ThemeFile) : Prop :=
  (∀ sc, f = .good sc → (priv.loadWithPath f).1 = true ∧ (priv.loadWithPath f).2.Holds sc) ∧
    ((priv.loadWithPath f).1 = false → (priv.loadWithPath f).2 = themePInit)

def Recoverable (_ : ThemeP) : ThemeFile → Prop
  | .missing => True
  | .noMemory _ => False
  | .unparsable _ => False
  | .good _ => True

theorem getStyleOnce_kept (priv : ThemeP) (styleName : CString) :
    ∃ c, (getStyleOnce priv styleName).2 = { priv with cachedRet := c } := by
  unfold getStyleOnce
  split
  · exact ⟨priv.cachedRet,rfl⟩
  · exact ⟨priv.cachedRet,rfl⟩
  · split_ifs
    · exact ⟨priv.cachedRet,rfl⟩
    · exact ⟨_,rfl⟩

def Settled (priv : ThemeP) : Prop := priv = themePInit ∨ priv.isLoaded = true

theorem Settled.loadWithPath {priv : ThemeP} (h : priv.Settled) (f : ThemeFile) :
    priv.loadWithPath f = themePInit.loadWithPath f := by
  rcases h with rfl | hloaded
  · rfl
  · have hclear : (if priv.isLoaded then priv.clear else priv) = themePInit := if_pos hloaded
    unfold ThemeP.loadWithPath
    rw [hclear]
    rfl

theorem loadWithPath_good (sc : Scheme) :
    (themePInit.loadWithPath (.good sc)).1 = true ∧ (themePInit.loadWithPath (.good sc)).2.Holds sc := by
  obtain ⟨c,hc⟩ := getStyleOnce_kept (themePInit.load (.good sc)).2 commonStyle
  have heq : themePInit.loadWithPath (.good sc) = (true,{ (themePInit.load (.good sc)).2 with cachedRet := c }) := by
    rw [← hc]
    rfl
  rw [heq]
  exact ⟨rfl,rfl,rfl,rfl,rfl,rfl⟩

theorem loadLawful_iff {priv : ThemeP} (h : priv.Settled) (f : ThemeFile) : priv.LoadLawful f ↔ priv.Recoverable f := by
  unfold LoadLawful
  rw [h.loadWithPath]
  cases f with
  | missing => exact iff_of_true ⟨fun sc heq => (by cases heq),fun _ => rfl⟩ True.intro
  | noMemory sc =>
    refine iff_of_false (fun hlaw => ?_) id
    cases hlaw.2 rfl
  | unparsable sc =>
    refine iff_of_false (fun hlaw => ?_) id
    cases hlaw.2 rfl
  | good sc =>
    obtain ⟨hret,hholds⟩ := loadWithPath_good sc
    refine iff_of_true ⟨fun sc' heq => ?_,fun hfail => absurd (hret.symm.trans hfail) (by decide)⟩ True.intro
    obtain rfl := ThemeFile.good.inj heq
    exact ⟨hret,hholds⟩

theorem settled_of_loadLawful {priv : ThemeP} (h : priv.Settled) {f : ThemeFile} (hlaw : priv.LoadLawful f) :
    (priv.loadWithPath f).2.Settled := by
  cases f with
  | good sc => exact Or.inr (hlaw.1 sc rfl).2.isLoaded
  | missing =>
    rw [h.loadWithPath]
    exact Or.inl rfl
  | noMemory sc => exact absurd ((loadLawful_iff h _).mp hlaw) id
  | unparsable sc => exact absurd ((loadLawful_iff h _).mp hlaw) id

/-- Every failure is recovered from in a run of loads if and only if every file that is there can
be read to its end. -/
theorem load_recoverable_iff (files : List ThemeFile) :
    Transition.Along loadNext LoadLawful themePInit files ↔ Transition.Along loadNext Recoverable themePInit files := by
  refine Transition.along_iff (I := Settled) (fun priv f h => loadLawful_iff h f) (fun priv f priv' h hlaw hstep => ?_)
    (Or.inl rfl)
  obtain rfl := Option.some.inj hstep
  exact settled_of_loadLawful h hlaw

/-- A file that cannot be parsed leaves its interpreter, and the good file behind it is not loaded. -/
theorem load_not_recoverable : ¬ Transition.Along loadNext LoadLawful themePInit
    [.unparsable ⟨none,none,none,[]⟩,.good ⟨none,none,none,[]⟩] := by
  intro h
  have hlaw := h [.unparsable ⟨none,none,none,[]⟩] (.good ⟨none,none,none,[]⟩) [] rfl _ rfl
  cases (hlaw.1 _ rfl).1

end ThemeP
end Edelib.Theme
