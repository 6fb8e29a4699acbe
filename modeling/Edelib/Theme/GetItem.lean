import Edelib.Theme.Theme

/-! # Items of a theme

A style is asked for by its name, but the one that was found first is remembered whatever
its name. Expressions are evaluated without side effects, and what is not a number still
has bits that can be read as a `long`.
-/
namespace Edelib.Theme
open Foundation ThemeP
variable (eval : ℕ → SchemeValue) (bits : SchemeValue → ℤ)

def evaluated : SchemeValue → SchemeValue
  | .pair expr => eval expr
  | .string s => .string s
  | .number n => .number n
  | .other id => .other id

def ivalue : SchemeValue → ℤ
  | .number n => n
  | v => bits v

def scanString (item : CString) : Style → Option CString
  | [] => none
  | it :: style =>
    if it.symbol = some item then
      match evaluated eval it.value with
      | .string s => some s
      | _ => scanString item style
    else scanString item style

/-- The loop over a style, to the first item whose value has a `long` that is not zero. -/
def scanLong (item : CString) : Style → Option ℤ
  | [] => none
  | it :: style =>
    if it.symbol = some item ∧ ivalue bits (evaluated eval it.value) ≠ 0 then
      some (ivalue bits (evaluated eval it.value))
    else scanLong item style

inductive ItemQuery
  | string (styleName item : CString) (sz : ℕ)
  | long (styleName item : CString) (fallback : ℤ)

def ItemQuery.styleName : ItemQuery → CString
  | string styleName _ _ => styleName
  | long styleName _ _ => styleName

/-- The text that `ret` gets, or the number and whether it was found; `ret` may be left alone. -/
inductive ItemAnswer
  | string (ret : Option CString)
  | long (ret : Option ℤ) (found : Bool)
deriving DecidableEq

/-- `strncpy`, and a terminator in the last byte. -/
def truncated (s : CString) (sz : ℕ) : CString :=
  ⟨s.bytes.take (sz - 1),fun h => s.nulFree (List.mem_of_mem_take h)⟩

def longAnswer (fallback : ℤ) : Option ℤ → ItemAnswer
  | some n => .long (some n) true
  | none => .long (some fallback) false

def getItem (priv : ThemeP) : ItemQuery → ItemAnswer × ThemeP
  | .string styleName item sz =>
    if priv.isLoaded = true ∧ 0 < sz then
      let r := getStyleOnce priv styleName
      (.string ((r.1.bind (scanString eval item)).map (fun s => truncated s sz)),r.2)
    else (.string none,priv)
  | .long styleName item fallback =>
    if priv.isLoaded = true then
      let r := getStyleOnce priv styleName
      (longAnswer fallback (r.1.bind (scanLong eval bits item)),r.2)
    else (.long none false,priv)

/-! ## What a theme defines -/

def SchemeValue.string? : SchemeValue → Option CString
  | .string s => some s
  | _ => none

def SchemeValue.long? : SchemeValue → Option ℤ
  | .number n => some n
  | _ => none

def definedItem {α : Type} (kind : SchemeValue → Option α) (style : Style) (item : CString) : Option α :=
  style.findSome? (fun it => if it.symbol = some item then kind (evaluated eval it.value) else none)

def Scheme.defined (sc : Scheme) : ItemQuery → ItemAnswer
  | .string styleName item sz => .string (if 0 < sz then
      (definedItem eval SchemeValue.string? (sc.styleGet styleName) item).map (fun s => truncated s sz) else none)
  | .long styleName item fallback =>
    longAnswer fallback (definedItem eval SchemeValue.long? (sc.styleGet styleName) item)

/-- The first item of the name that is a number, or is taken for one, is a number and not zero. -/
def PlainLong (style : Style) (item : CString) : Prop :=
  ∀ it ∈ style.find? (fun it => it.symbol = some item ∧
      ((evaluated eval it.value).long?.isSome ∨ ivalue bits (evaluated eval it.value) ≠ 0)),
    ∃ n, evaluated eval it.value = .number n ∧ n ≠ 0

namespace ItemQuery

def step (priv : ThemeP) (q : ItemQuery) : Option ThemeP := some (getItem eval bits priv q).2

def Lawful (sc : Scheme) (priv : ThemeP) (q : ItemQuery) : Prop := (getItem eval bits priv q).1 = sc.defined eval q

/-- The style is the one that is remembered, if any, and a `long` is neither zero nor something else. -/
def Meets (sc : Scheme) (priv : ThemeP) (q : ItemQuery) : Prop :=
  (∀ style ∈ priv.cachedRet, sc.styleGet q.styleName = style) ∧
    match q with
    | string _ _ _ => True
    | long styleName item _ => PlainLong eval bits (sc.styleGet styleName) item

end ItemQuery
open ItemQuery

/-! ## Scans -/

theorem scanString_eq (item : CString) (style : Style) :
    scanString eval item style = definedItem eval SchemeValue.string? style item := by
  induction style with
  | nil => rfl
  | cons it style ih =>
    rw [scanString,definedItem,List.findSome?_cons,← definedItem]
    split_ifs with hsymbol
    · cases evaluated eval it.value with
      | string s => rfl
      | number n => exact ih
      | pair expr => exact ih
      | other id => exact ih
    · exact ih

theorem scanLong_eq {item : CString} {style : Style} (h : PlainLong eval bits style item) :
    scanLong eval bits item style = definedItem eval SchemeValue.long? style item := by
  induction style with
  | nil => rfl
  | cons it style ih =>
    by_cases hit : it.symbol = some item ∧
        ((evaluated eval it.value).long?.isSome ∨ ivalue bits (evaluated eval it.value) ≠ 0)
    · obtain ⟨n,hvalue,hn⟩ := h it (List.find?_cons_of_pos (by simpa using hit))
      rw [scanLong,definedItem,List.findSome?_cons,if_pos hit.1,hvalue,if_pos ⟨hit.1,hn⟩]
      rfl
    · have htail : PlainLong eval bits style item := by
        intro it' hit'
        refine h it' ?_
        rw [List.find?_cons_of_neg (by simpa using hit)]
        exact hit'
      have hskip : ¬ (it.symbol = some item ∧ ivalue bits (evaluated eval it.value) ≠ 0) :=
        fun hboth => hit ⟨hboth.1,Or.inr hboth.2⟩
      have hnone : (if it.symbol = some item then (evaluated eval it.value).long? else none) = none := by
        split_ifs with hsymbol
        · rw [← Option.not_isSome_iff_eq_none]
          exact fun hsome => hit ⟨hsymbol,Or.inl hsome⟩
        · rfl
      rw [scanLong,if_neg hskip,definedItem,List.findSome?_cons,hnone]
      exact ih htail

/-! ## Runs -/

structure Remembers (sc : Scheme) (priv : ThemeP) : Prop where
  isLoaded : priv.isLoaded = true
  sc : priv.sc = some sc
  cached : ∀ style ∈ priv.cachedRet, style ≠ []

theorem remembers_getStyleOnce {sc : Scheme} {priv : ThemeP} (h : Remembers sc priv) (styleName : CString) :
    Remembers sc (getStyleOnce priv styleName).2 := by
  unfold getStyleOnce
  rw [h.sc]
  cases hcached : priv.cachedRet with
  | some style => exact h
  | none =>
    dsimp only
    split_ifs with hempty
    · exact h
    · refine ⟨h.isLoaded,rfl,fun style hstyle => ?_⟩
      obtain rfl := Option.some.inj hstyle
      exact hempty

/-- A scan of the style that is given finds what the scan of the style asked for finds. -/
theorem bind_getStyleOnce {α : Type} {sc : Scheme} {priv : ThemeP} (h : Remembers sc priv) {styleName : CString}
    (hstyle : ∀ style ∈ priv.cachedRet, sc.styleGet styleName = style) (scan : Style → Option α)
    (hscan : scan [] = none) :
    (getStyleOnce priv styleName).1.bind scan = scan (sc.styleGet styleName) := by
  unfold getStyleOnce
  rw [h.sc]
  cases hcached : priv.cachedRet with
  | some style =>
    rw [hstyle style hcached]
    rfl
  | none =>
    dsimp only
    split_ifs with hempty
    · rw [hempty,hscan]
      rfl
    · rfl

theorem lawful_of_meets {sc : Scheme} {priv : ThemeP} (h : Remembers sc priv) {q : ItemQuery}
    (hmeets : q.Meets eval bits sc priv) : q.Lawful eval bits sc priv := by
  obtain ⟨hstyle,hitem⟩ := hmeets
  cases q with
  | string styleName item sz =>
    by_cases hsz : 0 < sz
    · have hstyle' : ∀ style ∈ priv.cachedRet, sc.styleGet styleName = style := hstyle
      have hfound := bind_getStyleOnce h hstyle' (scanString eval item) rfl
      rw [Lawful,getItem,if_pos ⟨h.isLoaded,hsz⟩,Scheme.defined,if_pos hsz]
      dsimp only
      rw [hfound,scanString_eq]
    · rw [Lawful,getItem,if_neg (fun hboth => hsz hboth.2),Scheme.defined,if_neg hsz]
  | long styleName item fallback =>
    have hstyle' : ∀ style ∈ priv.cachedRet, sc.styleGet styleName = style := hstyle
    have hfound := bind_getStyleOnce h hstyle' (scanLong eval bits item) rfl
    rw [Lawful,getItem,if_pos h.isLoaded,Scheme.defined]
    dsimp only
    rw [hfound,scanLong_eq eval bits hitem]

theorem remembers_step {sc : Scheme} {priv : ThemeP} (h : Remembers sc priv) (q : ItemQuery) :
    Remembers sc (getItem eval bits priv q).2 := by
  cases q with
  | string styleName item sz =>
    rw [getItem]
    split_ifs
    · exact remembers_getStyleOnce h styleName
    · exact h
  | long styleName item fallback =>
    rw [getItem,if_pos h.isLoaded]
    exact remembers_getStyleOnce h styleName

/-- In a run whose calls ask for the style that is remembered, and for plain items, every answer
is what the theme defines. -/
theorem items_defined {sc : Scheme} {qs : List ItemQuery}
    (h : Transition.Along (step eval bits) (Meets eval bits sc) (themePInit.load (.good sc)).2 qs) :
    Transition.Along (step eval bits) (Lawful eval bits sc) (themePInit.load (.good sc)).2 qs := by
  refine Transition.Along.imp (I := Remembers sc) (fun priv q hpriv hq => lawful_of_meets eval bits hpriv hq)
    (fun priv q priv' hpriv _ hstep => ?_) ⟨rfl,rfl,fun style hstyle => by cases hstyle⟩ h
  obtain rfl := Option.some.inj hstep
  exact remembers_step eval bits hpriv q

def twoStyles : Scheme where
  name := none
  author := none
  sample := none
  styles := [(.ofBuf [98],[⟨some commonStyle,.string (.ofBuf [50])⟩,⟨some (.ofBuf [110]),.number 7⟩]),
    (.ofBuf [97],[⟨some commonStyle,.string (.ofBuf [49])⟩])]

theorem items_defined_twoStyles : Transition.Along (step (fun _ => .other 0) (fun _ => 0))
    (Lawful (fun _ => .other 0) (fun _ => 0) twoStyles) (themePInit.load (.good twoStyles)).2
    [.string ⟨[98],by decide⟩ commonStyle 8,.long ⟨[98],by decide⟩ ⟨[110],by decide⟩ 0] := by
  refine items_defined _ _ (Transition.along_cons.mpr ⟨⟨fun style hstyle => (by cases hstyle),True.intro⟩,?_⟩)
  rintro _ ⟨⟩
  refine Transition.along_cons.mpr ⟨⟨?_,?_⟩,fun _ _ => Transition.along_nil _ _⟩
  · rintro _ ⟨⟩
    rfl
  · rintro _ ⟨⟩
    exact ⟨7,rfl,by decide⟩

/-- The second style is answered with the item of the first. -/
theorem items_not_defined : ¬ Transition.Along (step (fun _ => .other 0) (fun _ => 0))
    (Lawful (fun _ => .other 0) (fun _ => 0) twoStyles) (themePInit.load (.good twoStyles)).2
    [.string ⟨[97],by decide⟩ commonStyle 8,.string ⟨[98],by decide⟩ commonStyle 8] := by
  intro h
  have hlaw := h [.string ⟨[97],by decide⟩ commonStyle 8] (.string ⟨[98],by decide⟩ commonStyle 8) [] rfl _ rfl
  revert hlaw
  unfold Lawful
  decide

end Edelib.Theme
