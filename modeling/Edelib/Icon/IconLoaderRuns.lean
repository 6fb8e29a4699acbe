import Edelib.Icon.IconLoader

/-! # Reloading after any run

A reload goes through the icons in the order in which they were remembered, so that a widget
shows the last one that holds it. That is the icon set on it last if each widget is set on
icons of its own, in this order.
-/
namespace Edelib.IconLoader
open Foundation IconTheme LoaderState
variable {ω ι : Type*} (env : LoaderEnv ι)

/-! ## What is remembered -/

/-- The icons that are remembered anew stand behind the others. -/
theorem getOrCreateItem_eq (theme : IconThemePrivate) (items : List (IconLoaderItem ω)) (name : CString)
    (sz : IconSizes) (ctx : IconContext) (widg : Option ω) (scaleIcon : Bool) :
    ∃ extra, (getOrCreateItem env theme items name sz ctx widg scaleIcon).2 = items ++ extra ∧
      ∀ it ∈ extra, it.widget = widg := by
  unfold getOrCreateItem
  cases findItem items name sz with
  | some it => exact ⟨[],(List.append_nil items).symm,fun it' hit' => absurd hit' List.not_mem_nil⟩
  | none =>
    refine ⟨_,rfl,fun it hit => ?_⟩
    obtain rfl := List.mem_singleton.mp hit
    rfl

theorem openInTheme_eq (theme : IconThemePrivate) (items : List (IconLoaderItem ω)) (name : CString) (sz : IconSizes)
    (ctx : IconContext) (options : ℕ) (widg : Option ω) (scaleIcon : Bool) :
    ∃ extra, (openInTheme env theme items name sz ctx options widg scaleIcon).2 = items ++ extra ∧
      ∀ it ∈ extra, it.widget = widg := by
  obtain ⟨extra,heq,hextra⟩ := getOrCreateItem_eq env theme items name sz ctx widg scaleIcon
  unfold openInTheme
  cases hcreate : getOrCreateItem env theme items name sz ctx widg scaleIcon with
  | mk it items₁ =>
    rw [hcreate] at heq
    obtain rfl : items₁ = items ++ extra := heq
    dsimp only
    cases env.sharedImage it.path (sizeFor sz options) with
    | some img => exact ⟨extra,rfl,hextra⟩
    | none =>
      cases env.fallbackIcon with
      | none => exact ⟨extra,rfl,hextra⟩
      | some fallback =>
        obtain ⟨extra',heq',hextra'⟩ := getOrCreateItem_eq env theme (items ++ extra) fallback sz ctx widg scaleIcon
        refine ⟨extra ++ extra',?_,fun it hit => (List.mem_append.mp hit).elim (hextra it) (hextra' it)⟩
        dsimp only
        rw [heq',List.append_assoc]

/-- The image of an icon can be opened, or it is not there and that of a remembered fallback can. -/
def Opens (env : LoaderEnv ι) (t : LoaderState ω ι) (name : CString) (sz : IconSizes) (ctx : IconContext)
    (options : ℕ) : Prop :=
  let path := ((findItem t.items name sz).map (fun it => it.path)).getD (findIcon env.toIconEnv t.theme name sz ctx)
  (env.sharedImage path (sizeFor sz options)).isSome = true ∨
    ∃ fallback ∈ env.fallbackIcon, ∃ it ∈ findItem t.items fallback sz,
      (env.sharedImage it.path (sizeFor sz options)).isSome = true

/-- What is opened is an image, and only the icon itself is remembered for it. -/
theorem openInTheme_of_opens {t : LoaderState ω ι} {name : CString} {sz : IconSizes} {ctx : IconContext} {options : ℕ}
    (h : Opens env t name sz ctx options) (widg : Option ω) (scaleIcon : Bool) :
    ∃ img, openInTheme env t.theme t.items name sz ctx options widg scaleIcon =
      (some img,(getOrCreateItem env t.theme t.items name sz ctx widg scaleIcon).2) := by
  have hpath : (getOrCreateItem env t.theme t.items name sz ctx widg scaleIcon).1.path =
      ((findItem t.items name sz).map (fun it => it.path)).getD (findIcon env.toIconEnv t.theme name sz ctx) := by
    unfold getOrCreateItem
    cases findItem t.items name sz with
    | some it => rfl
    | none => rfl
  obtain ⟨extra,heq,-⟩ := getOrCreateItem_eq env t.theme t.items name sz ctx widg scaleIcon
  unfold openInTheme
  cases hcreate : getOrCreateItem env t.theme t.items name sz ctx widg scaleIcon with
  | mk it items₁ =>
    rw [hcreate] at heq hpath
    obtain rfl : items₁ = t.items ++ extra := heq
    dsimp only at hpath ⊢
    cases himage : env.sharedImage it.path (sizeFor sz options) with
    | some img => exact ⟨img,rfl⟩
    | none =>
      rcases h with hopen | ⟨fallback,hfallback,it',hit',hopen⟩
      · rw [← hpath,himage] at hopen
        cases hopen
      · obtain ⟨img,himg⟩ := Option.isSome_iff_exists.mp hopen
        have hfound : findItem (t.items ++ extra) fallback sz = some it' := by
          rw [findItem,List.find?_append,← findItem,Option.mem_def.mp hit']
          rfl
        refine ⟨img,?_⟩
        rw [Option.mem_def.mp hfallback]
        simp only [getOrCreateItem,hfound,himg]

/-! ## The condition -/

variable [DecidableEq ω]

def lastHolder : List (IconLoaderItem ω) → ω → Option (IconLoaderItem ω)
  | [],_ => none
  | it :: items,w => (lastHolder items w).or (if it.widget = some w then some it else none)

def Meets (env : LoaderEnv ι) (t : LoaderState ω ι) : LoaderAction ω → Prop
  | .set widget name sz ctx options =>
    if (openDirectly env name sz options).isSome then lastHolder t.items widget = none
    else notSet options optionNoIconScale = true ∧
      (∀ it ∈ findItem t.items name sz, lastHolder t.items widget = some it ∧ it.context = ctx) ∧
      Opens env t name sz ctx options
  | .get _ _ _ _ => True
  | .getPath _ _ _ => True
  | .destroy widget => lastHolder t.items widget = none

/-! ## The invariant -/

structure IsFor (it : IconLoaderItem ω) (r : IconRequest) : Prop where
  name : it.name = r.name
  size : it.size = r.size
  context : it.context = r.context
  scaled : notSet r.options optionNoIconScale = true

structure Tracks (t : LoaderState ω ι) : Prop where
  live : ∀ it ∈ t.items, ∀ w, it.widget = some w → t.live w = true
  scaled : ∀ it ∈ t.items, it.widget ≠ none → it.sizeWh = it.size.toInt
  unset : ∀ w, t.last w = none → lastHolder t.items w = none
  isSet : ∀ w r, t.last w = some r → ∃ it, lastHolder t.items w = some it ∧ IsFor it r

theorem lastHolder_append (items items' : List (IconLoaderItem ω)) (w : ω) :
    lastHolder (items ++ items') w = (lastHolder items' w).or (lastHolder items w) := by
  induction items with
  | nil => simp [lastHolder]
  | cons it items ih => rw [List.cons_append,lastHolder,lastHolder,ih,Option.or_assoc]

theorem lastHolder_eq_none {items : List (IconLoaderItem ω)} {w : ω} :
    lastHolder items w = none ↔ ∀ it ∈ items, it.widget ≠ some w := by
  induction items with
  | nil => exact iff_of_true rfl (fun it hit => absurd hit List.not_mem_nil)
  | cons it items ih =>
    rw [lastHolder,Option.or_eq_none_iff,ih,List.forall_mem_cons,and_comm]
    exact and_congr_left (fun _ => by simp)

theorem mem_of_lastHolder {items : List (IconLoaderItem ω)} {w : ω} {it : IconLoaderItem ω}
    (h : lastHolder items w = some it) : it ∈ items ∧ it.widget = some w := by
  induction items with
  | nil => cases h
  | cons it' items ih =>
    rw [lastHolder,Option.or_eq_some_iff] at h
    rcases h with h | ⟨-,h⟩
    · obtain ⟨hmem,hwidget⟩ := ih h
      exact ⟨List.mem_cons_of_mem it' hmem,hwidget⟩
    · split_ifs at h with hwidget
      obtain rfl := Option.some.inj h
      exact ⟨List.mem_cons_self,hwidget⟩

/-! ## A reload -/

def refreshed (env : LoaderEnv ι) (theme : IconThemePrivate) (items : List (IconLoaderItem ω)) (image : ω → Option ι)
    (w : ω) : Option ι :=
  match lastHolder items w with
  | some it => env.sharedImage (findIcon env.toIconEnv theme it.name it.size it.context) it.sizeWh
  | none => image w

/-- An icon puts its image on the widget that it holds, before the icons behind it. -/
theorem refreshed_cons (theme : IconThemePrivate) (it : IconLoaderItem ω) (items : List (IconLoaderItem ω))
    (image : ω → Option ι) : refreshed env theme (it :: items) image =
      refreshed env theme items (match it.widget with
        | none => image
        | some v => Function.update image v
          (env.sharedImage (findIcon env.toIconEnv theme it.name it.size it.context) it.sizeWh)) := by
  funext w
  unfold refreshed
  rw [lastHolder]
  cases lastHolder items w with
  | some it' => rfl
  | none =>
    rw [Option.none_or]
    cases hwidget : it.widget with
    | none => rw [if_neg (Option.some_ne_none w).symm]
    | some v =>
      by_cases hv : v = w
      · obtain rfl := hv
        rw [if_pos rfl]
        exact (Function.update_self v _ image).symm
      · rw [if_neg (fun h => hv (Option.some.inj h))]
        exact (Function.update_of_ne (Ne.symm hv) _ image).symm

theorem reloadItems_eq (theme : IconThemePrivate) {live : ω → Bool} {items : List (IconLoaderItem ω)}
    (hlive : ∀ it ∈ items, ∀ w, it.widget = some w → live w = true) (image : ω → Option ι) :
    ∃ items', reloadItems env theme live items image = some (items',refreshed env theme items image) := by
  induction items generalizing image with
  | nil => exact ⟨[],rfl⟩
  | cons it items ih =>
    have hlive' : ∀ it' ∈ items, ∀ w, it'.widget = some w → live w = true :=
      fun it' hit' => hlive it' (List.mem_cons_of_mem it hit')
    rw [reloadItems,refreshed_cons]
    cases hwidget : it.widget with
    | none =>
      obtain ⟨items',heq⟩ := ih hlive' image
      exact ⟨{ it with path := findIcon env.toIconEnv theme it.name it.size it.context } :: items',
        by simp only [hwidget,heq,Option.map_some]⟩
    | some v =>
      have hv := hlive it List.mem_cons_self v hwidget
      obtain ⟨items',heq⟩ := ih hlive' (Function.update image v
        (env.sharedImage (findIcon env.toIconEnv theme it.name it.size it.context) it.sizeWh))
      exact ⟨{ it with path := findIcon env.toIconEnv theme it.name it.size it.context } :: items',
        by simp only [hwidget,hv,heq,Option.map_some,Bool.true_eq_false,if_false]⟩

theorem Tracks.refreshed {t : LoaderState ω ι} (h : Tracks t) : t.Refreshed env := by
  intro depth name theme hload
  obtain ⟨items',heq⟩ := reloadItems_eq env theme h.live t.image
  refine ⟨_,by rw [reload,hload,Option.bind_some,heq,Option.map_some],fun w _ => ?_⟩
  change IconLoader.refreshed env theme t.items t.image w = _
  unfold IconLoader.refreshed
  cases hlast : t.last w with
  | none => rw [h.unset w hlast]
  | some r =>
    obtain ⟨it,hholder,hfor⟩ := h.isSet w r hlast
    obtain ⟨hmem,hwidget⟩ := mem_of_lastHolder hholder
    have hscaled := h.scaled it hmem (by rw [hwidget]; exact Option.some_ne_none w)
    have hsize : sizeFor r.size r.options = r.size.toInt := by rw [sizeFor,if_pos hfor.scaled]
    rw [hholder]
    dsimp only
    rw [hscaled,hsize,hfor.name,hfor.size,hfor.context]

/-! ## Steps -/

theorem Tracks.append {t : LoaderState ω ι} (h : Tracks t) {extra : List (IconLoaderItem ω)}
    (hextra : ∀ it ∈ extra, it.widget = none) : Tracks { t with items := t.items ++ extra } := by
  have hholder : ∀ w, lastHolder (t.items ++ extra) w = lastHolder t.items w := by
    intro w
    have hnone : lastHolder extra w = none :=
      lastHolder_eq_none.mpr (fun it hit => by rw [hextra it hit]; exact (Option.some_ne_none w).symm)
    rw [lastHolder_append,hnone,Option.none_or]
  refine ⟨fun it hit w hw => ?_,fun it hit hwidget => ?_,fun w hw => ?_,fun w r hr => ?_⟩
  · rcases List.mem_append.mp hit with hit | hit
    · exact h.live it hit w hw
    · exact absurd ((hextra it hit).symm.trans hw) (Option.some_ne_none w).symm
  · rcases List.mem_append.mp hit with hit | hit
    · exact h.scaled it hit hwidget
    · exact absurd (hextra it hit) hwidget
  · rw [hholder w]
    exact h.unset w hw
  · rw [hholder w]
    exact h.isSet w r hr

/-- An icon that is set on a widget is the last that holds it. -/
theorem lastHolder_getOrCreateItem {t : LoaderState ω ι} {name : CString} {sz : IconSizes} {ctx : IconContext} {w : ω}
    (hown : ∀ it ∈ findItem t.items name sz, lastHolder t.items w = some it ∧ it.context = ctx) :
    ∃ it, lastHolder (getOrCreateItem env t.theme t.items name sz ctx (some w) true).2 w = some it ∧
      it.name = name ∧ it.size = sz ∧ it.context = ctx := by
  unfold getOrCreateItem
  cases hfind : findItem t.items name sz with
  | some it =>
    obtain ⟨hholder,hcontext⟩ := hown it hfind
    have hnamed := List.find?_some hfind
    obtain ⟨hname,hsize⟩ : it.name = name ∧ it.size = sz := by simpa using hnamed
    exact ⟨it,hholder,hname,hsize,hcontext⟩
  | none =>
    refine ⟨⟨name,findIcon env.toIconEnv t.theme name sz ctx,ctx,sz,sz.toInt,some w⟩,?_,rfl,rfl,rfl⟩
    rw [lastHolder_append]
    simp [lastHolder]

theorem scaled_getOrCreateItem {t : LoaderState ω ι} (h : Tracks t) (name : CString) (sz : IconSizes)
    (ctx : IconContext) (w : ω) : ∀ it ∈ (getOrCreateItem env t.theme t.items name sz ctx (some w) true).2,
      it.widget ≠ none → it.sizeWh = it.size.toInt := by
  unfold getOrCreateItem
  cases findItem t.items name sz with
  | some it => exact h.scaled
  | none =>
    intro it hit hwidget
    rcases List.mem_append.mp hit with hit | hit
    · exact h.scaled it hit hwidget
    · obtain rfl := List.mem_singleton.mp hit
      rfl

theorem tracks_set {t : LoaderState ω ι} (h : Tracks t) {w : ω} (hlive : t.live w = true) {name : CString}
    {sz : IconSizes} {ctx : IconContext} {options : ℕ} (ha : Meets env t (.set w name sz ctx options)) :
    Tracks (setIcon env t name w sz ctx options).2 := by
  rw [Meets] at ha
  unfold setIcon
  cases hdirect : openDirectly env name sz options with
  | some img =>
    rw [hdirect,Option.isSome_some,if_pos rfl] at ha
    refine ⟨h.live,h.scaled,fun v hv => ?_,fun v r hr => ?_⟩
    · by_cases hvw : v = w
      · rw [hvw]
        exact ha
      · exact h.unset v ((Function.update_of_ne hvw none t.last).symm.trans hv)
    · by_cases hvw : v = w
      · obtain rfl := hvw
        exact absurd ((Function.update_self v none t.last).symm.trans hr) (Option.some_ne_none r).symm
      · exact h.isSet v r ((Function.update_of_ne hvw none t.last).symm.trans hr)
  | none =>
    rw [hdirect,Option.isSome_none,if_neg Bool.false_ne_true] at ha
    obtain ⟨hscale,hown,hopens⟩ := ha
    obtain ⟨img,hopen⟩ := openInTheme_of_opens env hopens (some w) true
    obtain ⟨it,hholder,hname,hsize,hcontext⟩ := lastHolder_getOrCreateItem env hown
    obtain ⟨extra,heq,hextra⟩ := getOrCreateItem_eq env t.theme t.items name sz ctx (some w) true
    have hothers : ∀ v, v ≠ w →
        lastHolder (getOrCreateItem env t.theme t.items name sz ctx (some w) true).2 v = lastHolder t.items v := by
      intro v hvw
      rw [heq,lastHolder_append,lastHolder_eq_none.mpr (fun it hit hwidget => ?_),Option.none_or]
      exact hvw (Option.some.inj ((hextra it hit).symm.trans hwidget)).symm
    rw [hopen]
    refine ⟨fun it hit v hv => ?_,scaled_getOrCreateItem env h name sz ctx w,fun v hv => ?_,fun v r hr => ?_⟩
    · dsimp only at hit
      rw [heq] at hit
      rcases List.mem_append.mp hit with hit | hit
      · exact h.live it hit v hv
      · obtain rfl := Option.some.inj ((hextra it hit).symm.trans hv)
        exact hlive
    · by_cases hvw : v = w
      · obtain rfl := hvw
        exact absurd ((Function.update_self v _ t.last).symm.trans hv) (Option.some_ne_none _)
      · dsimp only
        rw [hothers v hvw]
        exact h.unset v ((Function.update_of_ne hvw _ t.last).symm.trans hv)
    · by_cases hvw : v = w
      · obtain rfl := hvw
        obtain rfl := Option.some.inj ((Function.update_self v _ t.last).symm.trans hr)
        exact ⟨it,hholder,hname,hsize,hcontext,hscale⟩
      · dsimp only
        rw [hothers v hvw]
        exact h.isSet v r ((Function.update_of_ne hvw _ t.last).symm.trans hr)

theorem tracks_step {t t' : LoaderState ω ι} {a : LoaderAction ω} (h : Tracks t) (ha : Meets env t a)
    (hstep : a.step env t = some t') : Tracks t' := by
  cases a with
  | set w name sz ctx options =>
    rw [LoaderAction.step] at hstep
    split_ifs at hstep with hlive
    obtain rfl := Option.some.inj hstep
    exact tracks_set env h hlive ha
  | get name sz ctx options =>
    obtain rfl := Option.some.inj hstep
    unfold getIcon
    cases openDirectly env name sz options with
    | some img => exact h
    | none =>
      obtain ⟨extra,heq,hextra⟩ := openInTheme_eq env t.theme t.items name sz ctx options none false
      dsimp only
      rw [heq]
      exact h.append hextra
  | getPath name sz ctx =>
    obtain rfl := Option.some.inj hstep
    obtain ⟨extra,heq,hextra⟩ := getOrCreateItem_eq env t.theme t.items name sz ctx none false
    unfold getIconPath
    dsimp only
    rw [heq]
    exact h.append hextra
  | destroy w =>
    rw [LoaderAction.step] at hstep
    split_ifs at hstep with hlive
    obtain rfl := Option.some.inj hstep
    refine ⟨fun it hit v hv => ?_,h.scaled,h.unset,h.isSet⟩
    have hvw : v ≠ w := by
      rintro rfl
      exact lastHolder_eq_none.mp ha it hit hv
    exact (Function.update_of_ne hvw false t.live).trans (h.live it hit v hv)

/-- In a run that meets the condition, a reload puts on every live widget what the new theme has for
the icon that was set on it last, and leaves the others. -/
theorem reload_refreshes (theme : IconThemePrivate) (image : ω → Option ι) (acts : List (LoaderAction ω))
    {t : LoaderState ω ι} (h : Transition.Along (LoaderAction.step env) (Meets env) (initial theme image) acts)
    (hrun : Transition.exec (LoaderAction.step env) (initial theme image) acts = some t) : t.Refreshed env := by
  have h0 : Tracks (initial theme image : LoaderState ω ι) := by
    refine ⟨fun it hit => absurd hit List.not_mem_nil,fun it hit => absurd hit List.not_mem_nil,fun w _ => rfl,
      fun w r hr => ?_⟩
    exact absurd hr (Option.some_ne_none r).symm
  have htracks : Tracks t := Transition.exec_invariant (I := fun _ t => Tracks t) h0
    (fun _ _ _ _ _ h ha hstep => tracks_step env h ha hstep) h hrun
  exact htracks.refreshed env

def themeA : CString := ⟨[97],by decide⟩
def themeB : CString := ⟨[98],by decide⟩

/-- `"x"` -/
def iconX : CString := ⟨[120],by decide⟩

/-- Two themes with a directory each, in which every file is there; what begins with a slash can be opened. -/
def twoThemes : LoaderEnv CString where
  home := ⟨[47,104],by decide⟩
  userData := ⟨[47,117],by decide⟩
  systemData := []
  files := [themeA,themeB].map (fun name => (⟨[47,104],by decide⟩ ++ homeIcons ++ name ++ dirSeparator ++ indexTheme,
    Config.empty.set iconThemeSect directoriesKey ⟨[49,54],by decide⟩))
  isDir := fun _ => true
  isRegular := fun _ => true
  sharedImage := fun path _ => if path.bytes.head? = some 47 then some path else none
  fallbackIcon := none

/-- `"16"` -/
def sixteen : CString := ⟨[49,54],by decide⟩

def loaded (name : CString) : IconThemePrivate where
  fallbackVisited := true
  currTheme := name
  dirlist := (initBaseDirs twoThemes.toIconEnv).map (fun dir => ⟨⟨dir,name,sixteen⟩,IconSizes.medium.toInt,.any⟩)

theorem load_twoThemes {name : CString} (h : name ∈ [themeA,themeB]) :
    load twoThemes.toIconEnv 2 name = some (loaded name) := by
  obtain rfl | rfl := List.mem_pair.mp h
  · rfl
  · rfl

def imageIn (name : CString) : CString :=
  twoThemes.home ++ homeIcons ++ name ++ dirSeparator ++ sixteen ++ dirSeparator ++ ⟨[120,46,112,110,103],by decide⟩

/-- Two widgets with icons of their own. -/
theorem reload_refreshes_own : ∃ t, Transition.exec (LoaderAction.step twoThemes)
    (initial (loaded themeA) (fun _ : ℕ => none)) [.set 0 iconX .medium .any 0,.set 1 iconX .large .any 0] = some t ∧
      t.Refreshed twoThemes := by
  refine ⟨_,rfl,reload_refreshes twoThemes (loaded themeA) (fun _ => none)
    [.set 0 iconX .medium .any 0,.set 1 iconX .large .any 0] ?_ rfl⟩
  refine Transition.along_cons.mpr ⟨⟨rfl,fun it hit => (by cases hit),Or.inl rfl⟩,?_⟩
  rintro _ ⟨⟩
  refine Transition.along_cons.mpr ⟨⟨rfl,fun it hit => (by cases hit),Or.inl rfl⟩,?_⟩
  exact fun _ _ => Transition.along_nil _ _

/-- The second widget is not remembered, and keeps the image of the old theme. -/
theorem reload_not_refreshes : ¬ ∀ t, Transition.exec (LoaderAction.step twoThemes)
    (initial (loaded themeA) (fun _ : ℕ => none)) [.set 0 iconX .medium .any 0,.set 1 iconX .medium .any 0] = some t →
      t.Refreshed twoThemes := by
  intro h
  obtain ⟨t',hreload,himage⟩ := h _ rfl 2 themeB (loaded themeB) (load_twoThemes (by simp))
  have hshown := congrArg (Option.map (fun t : LoaderState ℕ CString => t.image 1)) hreload
  have hold : some (some (imageIn themeA)) = some (t'.image 1) := hshown
  have hnew : t'.image 1 = some (imageIn themeB) := himage 1 rfl
  rw [hnew] at hold
  exact absurd hold (by decide)

end Edelib.IconLoader
