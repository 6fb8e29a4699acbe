import Edelib.Foundation.CInt
import Edelib.Icon.IconTheme

/-! # How an icon is found

The three passes over the directories of a theme, the base directories and the theme again. Each
tries the files that an icon may have, with an extension or without.
-/
namespace Edelib.FindIcon
open Foundation IconTheme

/-! ## The extension -/

/-- The bytes are compared from the last one back, `tlen` of them. -/
def endsLoop (str test : List UInt8) (p tp : ℤ) : ℕ → Option Bool
  | 0 => some true
  | tlen + 1 =>
    if p < 0 ∨ tp < 0 then none
    else if str[p.toNat]? ≠ test[tp.toNat]? then some false
    else endsLoop str test (p - 1) (tp - 1) tlen

/-- `str_ends`, with its lengths of type `int`; a negative `tlen` lets the loop run out of the texts. -/
def strEnds (str test : CString) : Option Bool :=
  let len := CInt.ofSize str.strlen
  let tlen := CInt.ofSize test.strlen
  if tlen > len ∨ len = 0 ∨ tlen = 0 then some false
  else if tlen < 0 then none
  else if tlen = 1 then some (str.bytes[(len - 1).toNat]? == test.bytes[0]?)
  else endsLoop str.bytes test.bytes (len - 1) (tlen - 1) tlen.toNat

def hasExtension (icon : CString) : List CString → Option Bool
  | [] => some false
  | ext :: exts =>
    match strEnds icon ext with
    | none => none
    | some true => some true
    | some false => hasExtension icon exts

/-! ## The passes -/

/-- A directory that `load_theme` recorded. -/
structure ThemeDir where
  path : CString
  size : ℤ
  context : IconContext

structure LoadedTheme where
  dirlist : List ThemeDir
  themeDirs : List CString

variable (isRegular : CString → Bool)

def extensionLoop (ret : CString) : List CString → Option CString
  | [] => none
  | ext :: exts => if isRegular (ret ++ ext) then some (ret ++ ext) else extensionLoop ret exts

def tryFile (hasExt : Bool) (ret : CString) : Option CString :=
  if hasExt then if isRegular ret then some ret else none
  else extensionLoop isRegular ret iconExtensions

def sizedPass (hasExt : Bool) (icon : CString) (sz : IconSizes) (ctx : IconContext) : List ThemeDir → Option CString
  | [] => none
  | it :: its =>
    if it.size = sz.toInt ∧ (it.context = ctx ∨ ctx = .any) then
      match tryFile isRegular hasExt (it.path ++ dirSeparator ++ icon) with
      | some ret => some ret
      | none => sizedPass hasExt icon sz ctx its
    else sizedPass hasExt icon sz ctx its

def basePass (hasExt : Bool) (icon : CString) : List CString → Option CString
  | [] => none
  | si :: sis =>
    match tryFile isRegular hasExt (si ++ icon) with
    | some ret => some ret
    | none => basePass hasExt icon sis

def anyPass (hasExt : Bool) (icon : CString) : List ThemeDir → Option CString
  | [] => none
  | it :: its =>
    match tryFile isRegular hasExt (it.path ++ dirSeparator ++ icon) with
    | some ret => some ret
    | none => anyPass hasExt icon its

/-- A theme without directories is warned about. -/
def findIcon (T : LoadedTheme) (icon : CString) (sz : IconSizes) (ctx : IconContext) : Option CString :=
  if T.dirlist.length > 0 then
    match hasExtension icon iconExtensions with
    | none => none
    | some hasExt =>
      match sizedPass isRegular hasExt icon sz ctx T.dirlist with
      | some ret => some ret
      | none =>
        match basePass isRegular hasExt icon T.themeDirs with
        | some ret => some ret
        | none => some ((anyPass isRegular hasExt icon T.dirlist).getD .empty)
  else some .empty

/-! ## What is to be found -/

def inTheme (icon : CString) (dirs : List ThemeDir) : List CString :=
  dirs.flatMap (fun d => (candidates icon).map (fun file => d.path ++ dirSeparator ++ file))

def inBase (icon : CString) (dirs : List CString) : List CString :=
  dirs.flatMap (fun dir => (candidates icon).map (fun file => dir ++ file))

def Fitting (sz : IconSizes) (ctx : IconContext) (d : ThemeDir) : Prop :=
  d.size = sz.toInt ∧ (d.context = ctx ∨ ctx = .any)

instance (sz : IconSizes) (ctx : IconContext) (d : ThemeDir) : Decidable (Fitting sz ctx d) :=
  inferInstanceAs (Decidable (_ ∧ _))

def ordered (T : LoadedTheme) (icon : CString) (sz : IconSizes) (ctx : IconContext) : List CString :=
  inTheme icon (T.dirlist.filter (fun d => Fitting sz ctx d)) ++ inBase icon T.themeDirs ++ inTheme icon T.dirlist

/-- Empty only where nothing is there, and else the first that is. -/
structure Answers (T : LoadedTheme) (icon : CString) (sz : IconSizes) (ctx : IconContext) (path : CString) : Prop where
  complete : path = .empty ↔ ∀ file ∈ inTheme icon T.dirlist ++ inBase icon T.themeDirs, isRegular file = false
  first : path ≠ .empty → ∃ before after, ordered T icon sz ctx = before ++ path :: after ∧
    isRegular path = true ∧ ∀ file ∈ before, isRegular file = false

/-! ## The ends of a name -/

variable {isRegular}

theorem endsLoop_eq (str test : List UInt8) {k n : ℕ} (hk : k + n ≤ str.length) (hn : n ≤ test.length) :
    endsLoop str test ((k + n : ℕ) - 1) ((n : ℤ) - 1) n = some (decide ((str.drop k).take n = test.take n)) := by
  induction n with
  | zero => rfl
  | succ n ih =>
    have hp : ((k + (n + 1) : ℕ) : ℤ) - 1 = (k + n : ℕ) := by omega
    have htp : ((n + 1 : ℕ) : ℤ) - 1 = n := by omega
    have hstr : k + n < str.length := by omega
    have hdrop : n < (str.drop k).length := by
      rw [List.length_drop]
      omega
    rw [hp,htp,endsLoop,if_neg (by omega),Int.toNat_natCast,Int.toNat_natCast,List.getElem?_eq_getElem hstr,
      List.getElem?_eq_getElem hn,List.take_succ_eq_append_getElem hdrop,List.take_succ_eq_append_getElem hn,
      List.getElem_drop]
    by_cases hc : str[k + n] = test[n]
    · rw [if_neg (by rw [hc]; simp),ih (by omega) (by omega),hc]
      simp only [List.append_left_inj]
    · rw [if_pos (by simpa using hc)]
      have hne : ¬ (str.drop k).take n ++ [str[k + n]] = test.take n ++ [test[n]] := fun h =>
        hc (List.cons.inj (List.append_inj_right' h rfl)).1
      rw [decide_eq_false hne]

theorem strEnds_eq {str test : CString} (hstr : str.strlen < 2 ^ 31) (htest : test.strlen < 2 ^ 31) :
    strEnds str test = some (StrUtil.strEnds str.bytes test.bytes) := by
  have hlen : CInt.ofSize str.strlen = str.bytes.length := CInt.ofSize_of_le (by omega)
  have htlen : CInt.ofSize test.strlen = test.bytes.length := CInt.ofSize_of_le (by omega)
  rw [strEnds,hlen,htlen,StrUtil.strEnds]
  by_cases hguard : (test.bytes.length : ℤ) > str.bytes.length ∨ (str.bytes.length : ℤ) = 0 ∨ (test.bytes.length : ℤ) = 0
  · have hno : ¬ (test.bytes ≠ [] ∧ test.bytes <:+ str.bytes) := by
      rintro ⟨hne,hsuffix⟩
      have hle := hsuffix.length_le
      have hpos := List.length_pos_iff.mpr hne
      omega
    rw [if_pos hguard,decide_eq_false hno]
  · have hle : test.bytes.length ≤ str.bytes.length := by omega
    have hne : test.bytes ≠ [] := fun h => hguard (Or.inr (Or.inr (by rw [h]; rfl)))
    have hloop := endsLoop_eq str.bytes test.bytes (k := str.bytes.length - test.bytes.length) (by omega) (Nat.le_refl _)
    rw [Nat.sub_add_cancel hle,List.take_length,List.take_of_length_le (by rw [List.length_drop]; omega)] at hloop
    have hspec : decide (test.bytes ≠ [] ∧ test.bytes <:+ str.bytes) =
        decide (str.bytes.drop (str.bytes.length - test.bytes.length) = test.bytes) :=
      decide_eq_decide.mpr (by rw [List.suffix_iff_eq_drop,and_iff_right hne,eq_comm])
    rw [if_neg hguard,if_neg (by omega),hspec,← hloop,Int.toNat_natCast]
    split_ifs with hone
    · -- the test for one character looks at the same bytes
      have hone' : test.bytes.length = 1 := by omega
      have hpos : 0 < str.bytes.length := by omega
      rw [hone',endsLoop,if_neg (by omega)]
      have htp : ((1 : ℕ) : ℤ) - 1 = 0 := rfl
      rw [htp,Int.toNat_zero]
      by_cases hc : str.bytes[((str.bytes.length : ℤ) - 1).toNat]? = test.bytes[0]?
      · rw [if_neg (by simpa using hc),hc,endsLoop]
        simp
      · rw [if_pos hc]
        simpa using hc
    · rfl

theorem hasExtension_eq {icon : CString} (hicon : icon.strlen < 2 ^ 31) {exts : List CString}
    (hexts : ∀ ext ∈ exts, ext.strlen < 2 ^ 31) :
    hasExtension icon exts = some (exts.any (fun e => StrUtil.strEnds icon.bytes e.bytes)) := by
  induction exts with
  | nil => rfl
  | cons ext exts ih =>
    obtain ⟨hext,hrest⟩ := List.forall_mem_cons.mp hexts
    rw [hasExtension,strEnds_eq hicon hext,List.any_cons]
    cases h : StrUtil.strEnds icon.bytes ext.bytes with
    | true => rfl
    | false => exact ih hrest

theorem strlen_iconExtensions : ∀ ext ∈ iconExtensions, ext.strlen < 2 ^ 31 := by
  intro ext hext
  rcases List.mem_cons.mp hext with rfl | hext
  · decide
  · obtain rfl := List.mem_singleton.mp hext
    decide

/-! ## The passes try the candidates in their order -/

theorem extensionLoop_eq (dir icon : CString) (exts : List CString) :
    extensionLoop isRegular (dir ++ icon) exts = ((exts.map (fun e => icon ++ e)).map (fun file => dir ++ file)).find? isRegular := by
  induction exts with
  | nil => rfl
  | cons ext exts ih =>
    have hassoc : dir ++ icon ++ ext = dir ++ (icon ++ ext) := CString.ext (List.append_assoc _ _ _)
    rw [extensionLoop,ih,hassoc,List.map_cons,List.map_cons,List.find?_cons]
    cases isRegular (dir ++ (icon ++ ext)) <;> rfl

theorem tryFile_eq {icon : CString} {hasExt : Bool}
    (h : hasExt = iconExtensions.any (fun e => StrUtil.strEnds icon.bytes e.bytes)) (dir : CString) :
    tryFile isRegular hasExt (dir ++ icon) = ((candidates icon).map (fun file => dir ++ file)).find? isRegular := by
  rw [tryFile,candidates,← h]
  cases hasExt with
  | true =>
    rw [if_pos rfl,if_pos rfl,List.map_singleton,List.find?_singleton]
  | false =>
    rw [if_neg Bool.false_ne_true,if_neg Bool.false_ne_true,extensionLoop_eq]

variable {icon : CString} {hasExt : Bool}

theorem basePass_eq (h : hasExt = iconExtensions.any (fun e => StrUtil.strEnds icon.bytes e.bytes)) (dirs : List CString) :
    basePass isRegular hasExt icon dirs = (inBase icon dirs).find? isRegular := by
  induction dirs with
  | nil => rfl
  | cons si sis ih =>
    rw [basePass,inBase,List.flatMap_cons,List.find?_append,tryFile_eq h,ih]
    cases ((candidates icon).map (fun file => si ++ file)).find? isRegular <;> rfl

theorem anyPass_eq (h : hasExt = iconExtensions.any (fun e => StrUtil.strEnds icon.bytes e.bytes)) (dirs : List ThemeDir) :
    anyPass isRegular hasExt icon dirs = (inTheme icon dirs).find? isRegular := by
  induction dirs with
  | nil => rfl
  | cons it its ih =>
    rw [anyPass,inTheme,List.flatMap_cons,List.find?_append,tryFile_eq h,ih]
    cases ((candidates icon).map (fun file => it.path ++ dirSeparator ++ file)).find? isRegular <;> rfl

/-- The first pass is the third one on the directories that fit. -/
theorem sizedPass_eq (h : hasExt = iconExtensions.any (fun e => StrUtil.strEnds icon.bytes e.bytes)) (sz : IconSizes)
    (ctx : IconContext) (dirs : List ThemeDir) : sizedPass isRegular hasExt icon sz ctx dirs =
    (inTheme icon (dirs.filter (fun d => Fitting sz ctx d))).find? isRegular := by
  rw [← anyPass_eq h]
  induction dirs with
  | nil => rfl
  | cons it its ih =>
    rw [sizedPass,ih]
    by_cases hfit : it.size = sz.toInt ∧ (it.context = ctx ∨ ctx = .any)
    · have hfitting : Fitting sz ctx it := hfit
      rw [if_pos hfit,List.filter_cons_of_pos (by simpa using hfitting),anyPass]
    · have hfitting : ¬ Fitting sz ctx it := hfit
      rw [if_neg hfit,List.filter_cons_of_neg (by simpa using hfitting)]

theorem findIcon_eq_find {T : LoadedTheme} (hT : T.dirlist ≠ []) (hicon : icon.strlen < 2 ^ 31) (sz : IconSizes)
    (ctx : IconContext) :
    findIcon isRegular T icon sz ctx = some (((ordered T icon sz ctx).find? isRegular).getD .empty) := by
  rw [findIcon,if_pos (List.length_pos_iff.mpr hT),hasExtension_eq hicon strlen_iconExtensions]
  dsimp only
  rw [sizedPass_eq rfl,basePass_eq rfl,anyPass_eq rfl,ordered,List.find?_append,List.find?_append]
  cases (inTheme icon (T.dirlist.filter (fun d => Fitting sz ctx d))).find? isRegular with
  | some ret => rfl
  | none => cases (inBase icon T.themeDirs).find? isRegular <;> rfl

/-! ## The first that is there -/

theorem candidates_ne_empty (hicon : icon.bytes ≠ []) : ∀ file ∈ candidates icon, file.bytes ≠ [] := by
  intro file hfile
  rw [candidates] at hfile
  split_ifs at hfile
  · rwa [List.mem_singleton.mp hfile]
  · obtain ⟨ext,-,rfl⟩ := List.mem_map.mp hfile
    exact List.append_ne_nil_of_left_ne_nil hicon _

theorem append_ne_empty {dir file : CString} (h : file.bytes ≠ []) : dir ++ file ≠ .empty := fun he =>
  List.append_ne_nil_of_right_ne_nil _ h (congrArg CString.bytes he)

theorem ordered_ne_empty (hicon : icon.bytes ≠ []) (T : LoadedTheme) (sz : IconSizes) (ctx : IconContext) :
    ∀ path ∈ ordered T icon sz ctx, path ≠ .empty := by
  have htheme : ∀ dirs, ∀ path ∈ inTheme icon dirs, path ≠ .empty := by
    intro dirs path hpath
    obtain ⟨d,-,hd⟩ := List.mem_flatMap.mp hpath
    obtain ⟨file,hfile,rfl⟩ := List.mem_map.mp hd
    exact append_ne_empty (candidates_ne_empty hicon file hfile)
  intro path hpath
  rcases List.mem_append.mp hpath with hpath | hpath
  · rcases List.mem_append.mp hpath with hpath | hpath
    · exact htheme _ path hpath
    · obtain ⟨dir,-,hd⟩ := List.mem_flatMap.mp hpath
      obtain ⟨file,hfile,rfl⟩ := List.mem_map.mp hd
      exact append_ne_empty (candidates_ne_empty hicon file hfile)
  · exact htheme _ path hpath

/-- The directories that fit are directories of the theme. -/
theorem mem_ordered {T : LoadedTheme} {sz : IconSizes} {ctx : IconContext} {file : CString} :
    file ∈ ordered T icon sz ctx ↔ file ∈ inTheme icon T.dirlist ++ inBase icon T.themeDirs := by
  have hsub : file ∈ inTheme icon (T.dirlist.filter (fun d => Fitting sz ctx d)) → file ∈ inTheme icon T.dirlist := by
    intro h
    obtain ⟨d,hd,hfile⟩ := List.mem_flatMap.mp h
    exact List.mem_flatMap.mpr ⟨d,List.mem_of_mem_filter hd,hfile⟩
  rw [ordered,List.mem_append,List.mem_append,List.mem_append]
  tauto

theorem answers_find (isRegular : CString → Bool) (hicon : icon.bytes ≠ []) (T : LoadedTheme) (sz : IconSizes)
    (ctx : IconContext) :
    Answers isRegular T icon sz ctx (((ordered T icon sz ctx).find? isRegular).getD .empty) := by
  cases hfind : (ordered T icon sz ctx).find? isRegular with
  | none =>
    rw [List.find?_eq_none] at hfind
    refine ⟨iff_of_true rfl (fun file hfile => ?_),fun h => absurd rfl h⟩
    simpa using hfind file (mem_ordered.mpr hfile)
  | some path =>
    have hmem := List.mem_of_find?_eq_some hfind
    obtain ⟨hregular,before,after,hsplit,hbefore⟩ := List.find?_eq_some_iff_append.mp hfind
    refine ⟨iff_of_false (ordered_ne_empty hicon T sz ctx path hmem) (fun h => ?_),fun _ => ?_⟩
    · exact absurd hregular (by simp [h path (mem_ordered.mp hmem)])
    · exact ⟨before,after,hsplit,hregular,fun file hfile => by simpa using hbefore file hfile⟩

/-- A theme with a directory answers with the first candidate, one without does not search. -/
theorem findIcon_answers (isRegular : CString → Bool) (T : LoadedTheme) (icon : CString) (hicon : icon.bytes ≠ [])
    (hlen : icon.strlen < 2 ^ 31) (sz : IconSizes) (ctx : IconContext) :
    (T.dirlist = [] → findIcon isRegular T icon sz ctx = some .empty) ∧
    (T.dirlist ≠ [] → ∃ path, findIcon isRegular T icon sz ctx = some path ∧ Answers isRegular T icon sz ctx path) := by
  constructor
  · intro hT
    rw [findIcon,hT]
    rfl
  · intro hT
    exact ⟨_,findIcon_eq_find hT hlen sz ctx,answers_find isRegular hicon T sz ctx⟩

/-- One directory of the theme: `/t/` with `a.xpm` in it. -/
theorem findIcon_answers_one : ∃ path,
    findIcon (fun file => file == ⟨[116,47,97,46,120,112,109],by decide⟩) ⟨[⟨⟨[116],by decide⟩,16,.any⟩],[]⟩
      ⟨[97],by decide⟩ .tiny .any = some path ∧
    Answers (fun file => file == ⟨[116,47,97,46,120,112,109],by decide⟩) ⟨[⟨⟨[116],by decide⟩,16,.any⟩],[]⟩
      ⟨[97],by decide⟩ .tiny .any path :=
  (findIcon_answers _ _ _ (by decide) (by decide) _ _).2 (List.cons_ne_nil _ _)

/-- `p/a.png` is there and no directory of the theme. -/
theorem not_answers : ¬ ∀ (isRegular : CString → Bool) (T : LoadedTheme) (icon : CString), icon.bytes ≠ [] →
    ∀ (sz : IconSizes) (ctx : IconContext), ∃ path, findIcon isRegular T icon sz ctx = some path ∧
      Answers isRegular T icon sz ctx path := by
  intro h
  obtain ⟨path,hpath,hanswers⟩ := h (fun file => file == ⟨[112,47,97,46,112,110,103],by decide⟩)
    ⟨[],[⟨[112,47],by decide⟩]⟩ ⟨[97],by decide⟩ (by decide) .tiny .any
  cases hpath
  have hnone := hanswers.complete.mp rfl ⟨[112,47,97,46,112,110,103],by decide⟩ (by decide)
  exact absurd hnone (by decide)

/-! ## As the loader sees it -/

def ofPrivate (env : IconEnv) (priv : IconThemePrivate) : LoadedTheme :=
  ⟨priv.dirlist.map (fun i => ⟨i.path,i.size,i.context⟩),initBaseDirs env⟩

theorem findIcon_eq (env : IconEnv) (priv : IconThemePrivate) {icon : CString} (hlen : icon.strlen < 2 ^ 31)
    (sz : IconSizes) (ctx : IconContext) :
    findIcon env.isRegular (ofPrivate env priv) icon sz ctx = some (IconTheme.findIcon env priv icon sz ctx) := by
  rw [IconTheme.findIcon]
  by_cases hpriv : priv.dirlist = []
  · rw [if_pos hpriv,findIcon,if_neg (by simp [ofPrivate,hpriv])]
  · rw [if_neg hpriv,findIcon_eq_find (by simpa [ofPrivate] using hpriv) hlen]
    simp only [ordered,inTheme,inBase,ofPrivate,List.filter_map,List.flatMap_map]
    rfl

end Edelib.FindIcon
