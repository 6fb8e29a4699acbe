import Edelib.SchemeEditor.StyleParse
import Edelib.Foundation.Transition
import Mathlib.Data.List.DropRight

/-! # Keeping the styles of a text that is changed

After a change the lines that it touches are parsed again, from the style that their first character has; if the last
of them ends in another style than it had, so is all that follows.
-/
namespace Edelib.SchemeEditor
open Foundation

/-! ## Text buffers -/

section Buffer
variable {α : Type}

def replace (buf : List α) (first last : ℕ) (text : List α) : List α := buf.take first ++ text ++ buf.drop last

def textRange (buf : List α) (first last : ℕ) : List α := (buf.take last).drop first

end Buffer

section Buffer
variable {α : Type} {front mid rest text : List α} {first last : ℕ}

theorem replace_append (hfirst : front.length = first) (hlast : first + mid.length = last) :
    replace (front ++ (mid ++ rest)) first last text = front ++ (text ++ rest) := by
  subst hfirst hlast
  rw [replace,List.take_left,← List.append_assoc front mid rest,← List.length_append,List.drop_left,List.append_assoc]

theorem textRange_append (hfirst : front.length = first) (hlast : first + mid.length = last) :
    textRange (front ++ (mid ++ rest)) first last = mid := by
  subst hfirst hlast
  rw [textRange,← List.append_assoc,← List.length_append,List.take_left,List.drop_left]

theorem replace_rest (hfirst : front.length = first) (hlast : first + mid.length = last) :
    replace (front ++ mid) first last text = front ++ text := by
  have hall := @replace_append α front mid [] text first last hfirst hlast
  rwa [List.append_nil,List.append_nil] at hall

theorem textRange_rest (hfirst : front.length = first) (hlast : first + mid.length = last) :
    textRange (front ++ mid) first last = mid := by
  have hall := @textRange_append α front mid [] first last hfirst hlast
  rwa [List.append_nil] at hall

end Buffer

def lineStart (text : List UInt8) (pos : ℕ) : ℕ := ((text.take pos).rdropWhile (fun c => decide (c ≠ 10))).length

def lineEnd (text : List UInt8) (pos : ℕ) : ℕ := pos + ((text.drop pos).takeWhile (fun c => decide (c ≠ 10))).length

structure Editor where
  text : List UInt8
  style : List Style
deriving DecidableEq

structure Change where
  pos : ℕ
  nDeleted : ℕ
  inserted : List UInt8

section Update
variable (codeTypes codeKeywords : List UInt8 → Bool)

def styleInit (text : List UInt8) : Option (List Style) :=
  styleParse codeTypes codeKeywords text (List.replicate text.length .A)

def styleUpdate (textbuf : List UInt8) (stylebuf : List Style) (pos nInserted nDeleted : ℕ) : Option (List Style) :=
  -- if this is just a selection change, just unselect the style buffer...
  if nInserted = 0 ∧ nDeleted = 0 then some stylebuf
  else
    -- track changes in the text buffer; where nothing is inserted this is a removal
    let stylebuf := replace stylebuf pos (pos + nDeleted) (List.replicate nInserted .A)
    -- re-parse the changed region
    let start := lineStart textbuf pos
    let stop := lineEnd textbuf (pos + nInserted)
    let style := textRange stylebuf start stop
    let last := if start = stop then none else style[stop - start - 1]?
    (styleParse codeTypes codeKeywords (textRange textbuf start stop) style).bind (fun style =>
      let stylebuf := replace stylebuf start stop style
      if start = stop ∨ last ≠ style[stop - start - 1]? then
        -- reparse the remainder of the buffer...
        let stop := textbuf.length
        (styleParse codeTypes codeKeywords (textRange textbuf start stop) (textRange stylebuf start stop)).map
          (fun style => replace stylebuf start stop style)
      else some stylebuf)

def step (s : Editor) (c : Change) : Option Editor :=
  if s.text.length < c.pos + c.nDeleted then none
  else
    let text := replace s.text c.pos (c.pos + c.nDeleted) c.inserted
    (styleUpdate codeTypes codeKeywords text s.style c.pos c.inserted.length c.nDeleted).map (fun style => ⟨text,style⟩)

/-! ## What is promised -/

/-- The styles are as many as the characters, and they are those of the whole text. -/
def InSync (s : Editor) : Prop := s.style.length = s.text.length ∧ styleInit codeTypes codeKeywords s.text = some s.style

def stateAt (text : List UInt8) (i : ℕ) : ParseState := ((parser codeTypes codeKeywords).run ⟨.A,0,false⟩ (text.take i)).2

/-- The first style of the lines that change is one from which they are painted as the whole text is. If they end in
the style that is found there, this is enough where the text ends with them or the state at their end is as before;
else what follows is painted too, from the style that is then the first. -/
def Meets (s : Editor) (c : Change) : Prop :=
  let text := replace s.text c.pos (c.pos + c.nDeleted) c.inserted
  let styles := replace s.style c.pos (c.pos + c.nDeleted) (List.replicate c.inserted.length .A)
  let start := lineStart text c.pos
  let stop := lineEnd text (c.pos + c.inserted.length)
  let lines := textRange text start stop
  let first := (textRange styles start stop).headD .A
  let mode := (stateAt codeTypes codeKeywords text start).current
  c.inserted.length = 0 ∧ c.nDeleted = 0 ∨
    if lines ≠ [] ∧ (paint codeTypes codeKeywords first lines).getLast? = (textRange styles start stop).getLast? then
      Like first mode lines ∧ (stop = text.length ∨
        (stateAt codeTypes codeKeywords s.text (stop - c.inserted.length + c.nDeleted)).current =
          (stateAt codeTypes codeKeywords text stop).current)
    else Like ((paint codeTypes codeKeywords first lines ++ styles.drop stop).headD .A) mode (text.drop start)

/-! ## Lines -/

def Whole (text : List UInt8) : Prop := text = [] ∨ ∃ line, text = line ++ [10]

def lineTail (s : ParseState) : List UInt8 → List Style
  | [] => []
  | _ :: rest => (newline s).1 :: ((parser codeTypes codeKeywords).run (newline s).2 rest).1

variable {codeTypes codeKeywords}

def Reached (s : ParseState) : Prop := s.current = .A ∨ s.current = .B ∨ s.current = .D ∨ s.current = .E

theorem copyStyle_reached {current : Style} (h : current = .A ∨ current = .D ∨ current = .E) (s : ParseState) (c : UInt8)
    (text : List UInt8) : Reached (copyStyle current s c text).2.1 := by
  rw [copyStyle,Reached]
  dsimp only
  split_ifs
  · exact .inl rfl
  · obtain rfl | rfl | rfl := h
    · exact .inl rfl
    · exact .inr (.inr (.inl rfl))
    · exact .inr (.inr (.inr rfl))

theorem parseComment_reached (s : ParseState) (text : List UInt8) : Reached (parseComment s text).2.1 := by
  rw [parseComment]
  cases hdrop : text.dropWhile (fun c => decide (c ≠ 10)) with
  | nil => exact .inr (.inl rfl)
  | cons c rest =>
    have hc : c = 10 := by
      have hhead := List.head?_dropWhile_not (fun c : UInt8 => decide (c ≠ 10)) text
      rw [hdrop] at hhead
      simpa using hhead
    subst hc
    dsimp only
    rw [copyStyle_newline]
    exact .inl rfl

theorem parseStep_reached {s : ParseState} (hs : Reached s) (c : UInt8) (text : List UInt8) :
    Reached (parseStep codeTypes codeKeywords s c text).2.1 := by
  have hsettle : settle s.current = .A ∨ settle s.current = .D ∨ settle s.current = .E := by
    obtain h | h | h | h := hs <;> rw [h]
    · exact .inl rfl
    · exact .inl rfl
    · exact .inr (.inl rfl)
    · exact .inr (.inr rfl)
  rw [parseStep]
  split_ifs
  · exact copyStyle_reached (.inr (.inr rfl)) s c text
  · exact parseComment_reached s (c :: text)
  · exact .inl rfl
  · exact copyStyle_reached (.inr (.inl rfl)) s c text
  · rw [parseWord]
    cases wordStyle codeTypes codeKeywords (((c :: text).takeWhile wordChar).take 254)
        ((c :: text).drop (((c :: text).takeWhile wordChar).take 254).length) with
    | none => exact copyStyle_reached (.inl rfl) s c text
    | some style => exact .inl rfl
  · exact copyStyle_reached (.inl rfl) s c text
  · exact .inr (.inr (.inl rfl))
  · exact .inl rfl
  · exact copyStyle_reached (.inr (.inl rfl)) s c text
  · exact copyStyle_reached hsettle s c text

theorem run_reached {s : ParseState} (hs : Reached s) (text : List UInt8) :
    Reached ((parser codeTypes codeKeywords).run s text).2 :=
  (parser codeTypes codeKeywords).run_keeps (I := Reached) (fun _ c text hs => parseStep_reached hs c text) hs text

theorem newline_current {s : ParseState} (hs : Reached s) :
    (newline s).2.current = .A ∨ (newline s).2.current = .D := by
  rw [newline]
  obtain h | h | h | h := hs <;> rw [h]
  · exact .inl rfl
  · exact .inl rfl
  · exact .inr rfl
  · exact .inl rfl

theorem settled_mode {mode : Style} (hmode : mode = .A ∨ mode = .D) : Settled ⟨mode,0,false⟩ := by
  obtain rfl | rfl := hmode <;> rfl

variable (codeTypes codeKeywords) in
/-- Behind whole lines the parser is in a string or it is not. -/
theorem whole_state {text : List UInt8} (h : Whole text) :
    ∃ mode, (mode = .A ∨ mode = .D) ∧ ((parser codeTypes codeKeywords).run ⟨.A,0,false⟩ text).2 = ⟨mode,0,false⟩ := by
  obtain rfl | ⟨line,rfl⟩ := h
  · exact ⟨.A,.inl rfl,rfl⟩
  · rw [(parser_splits codeTypes codeKeywords).run_append (settled_mode (.inl rfl)) line [],Scanner.run_nil]
    exact ⟨_,newline_current (run_reached (.inl rfl) line),rfl⟩

/-- Whole lines are painted apart from what follows. -/
theorem run_whole {text : List UInt8} (h : Whole text) (rest : List UInt8) :
    (parser codeTypes codeKeywords).run ⟨.A,0,false⟩ (text ++ rest) =
      (((parser codeTypes codeKeywords).run ⟨.A,0,false⟩ text).1 ++
        ((parser codeTypes codeKeywords).run ((parser codeTypes codeKeywords).run ⟨.A,0,false⟩ text).2 rest).1,
      ((parser codeTypes codeKeywords).run ((parser codeTypes codeKeywords).run ⟨.A,0,false⟩ text).2 rest).2) := by
  obtain rfl | ⟨line,rfl⟩ := h
  · rfl
  · rw [List.append_assoc,List.singleton_append,(parser_splits codeTypes codeKeywords).run_append (settled_mode (.inl rfl)) line rest,
      (parser_splits codeTypes codeKeywords).run_append (settled_mode (.inl rfl)) line [],Scanner.run_nil,List.append_assoc]
    rfl

def Behind (text : List UInt8) : Prop := text = [] ∨ ∃ rest, text = 10 :: rest

theorem paint_append {mode : Style} (hmode : mode = .A ∨ mode = .D) (lines : List UInt8) {rest : List UInt8}
    (hrest : Behind rest) : paint codeTypes codeKeywords mode (lines ++ rest) = paint codeTypes codeKeywords mode lines ++
      lineTail codeTypes codeKeywords ((parser codeTypes codeKeywords).run ⟨mode,0,false⟩ lines).2 rest := by
  obtain rfl | ⟨rest,rfl⟩ := hrest
  · rw [List.append_nil,lineTail,List.append_nil]
  · rw [paint,(parser_splits codeTypes codeKeywords).run_append (settled_mode hmode) lines rest]
    rfl

/-- What is painted behind a line tells the style in which the line ends. -/
theorem lineTail_inj {s t : ParseState} {rest : List UInt8} :
    lineTail codeTypes codeKeywords s rest = lineTail codeTypes codeKeywords t rest ↔ rest = [] ∨ s.current = t.current := by
  cases rest with
  | nil => exact iff_of_true rfl (.inl rfl)
  | cons c rest =>
    rw [lineTail,lineTail]
    constructor
    · exact fun h => .inr (List.cons.inj h).1
    · rintro (hnil | hcurrent)
      · exact absurd hnil (List.cons_ne_nil _ _)
      · rw [newline,newline,hcurrent]

theorem length_lineTail (s : ParseState) (rest : List UInt8) :
    (lineTail codeTypes codeKeywords s rest).length = rest.length := by
  cases rest with
  | nil => rfl
  | cons c rest => rw [lineTail,List.length_cons,List.length_cons,Scanner.length_run]

/-! ## Changes -/

theorem whole_rdropWhile (text : List UInt8) : Whole (text.rdropWhile (fun c => decide (c ≠ 10))) := by
  by_cases hne : text.rdropWhile (fun c => decide (c ≠ 10)) = []
  · exact .inl hne
  · have hlast := List.rdropWhile_last_not (fun c : UInt8 => decide (c ≠ 10)) text hne
    have hten : (text.rdropWhile (fun c => decide (c ≠ 10))).getLast hne = 10 := by simpa using hlast
    have hsplit := List.dropLast_append_getLast hne
    rw [hten] at hsplit
    exact .inr ⟨_,hsplit.symm⟩

theorem behind_dropWhile (text : List UInt8) : Behind (text.dropWhile (fun c => decide (c ≠ 10))) := by
  cases hdrop : text.dropWhile (fun c => decide (c ≠ 10)) with
  | nil => exact .inl rfl
  | cons c rest =>
    have hhead := List.head?_dropWhile_not (fun c : UInt8 => decide (c ≠ 10)) text
    rw [hdrop] at hhead
    exact .inr ⟨rest,by simpa using hhead⟩

theorem lineStart_eq {front line rest : List UInt8} {pos : ℕ} (hfront : Whole front) (hline : ∀ c ∈ line, c ≠ 10)
    (hpos : (front ++ line).length = pos) : lineStart ((front ++ line) ++ rest) pos = front.length := by
  have hdrop : front.rdropWhile (fun c => decide (c ≠ 10)) = front := by
    obtain rfl | ⟨text,rfl⟩ := hfront
    · rfl
    · exact List.rdropWhile_concat_neg _ _ _ (by decide)
  subst hpos
  rw [lineStart,List.take_left,List.rdropWhile,List.reverse_append,
    List.dropWhile_append_of_pos (fun c hc => decide_eq_true (hline c (List.mem_reverse.mp hc))),← List.rdropWhile,hdrop]

theorem lineEnd_eq {front line rest : List UInt8} {pos : ℕ} (hline : ∀ c ∈ line, c ≠ 10) (hrest : Behind rest)
    (hpos : front.length = pos) : lineEnd (front ++ (line ++ rest)) pos = pos + line.length := by
  subst hpos
  rw [lineEnd,List.drop_left,List.takeWhile_append_of_pos (fun c hc => decide_eq_true (hline c hc))]
  obtain rfl | ⟨text,rfl⟩ := hrest
  · rw [List.takeWhile_nil,List.append_nil]
  · rw [List.takeWhile_cons_of_neg (by decide),List.append_nil]

structure Parts (text : List UInt8) (c : Change) (front a deleted b rest : List UInt8) : Prop where
  eq : text = front ++ ((a ++ (deleted ++ b)) ++ rest)
  pos : front.length + a.length = c.pos
  nDeleted : deleted.length = c.nDeleted
  front : Whole front
  rest : Behind rest
  a : ∀ d ∈ a, d ≠ 10
  b : ∀ d ∈ b, d ≠ 10

theorem exists_parts {text : List UInt8} {c : Change} (h : c.pos + c.nDeleted ≤ text.length) :
    ∃ front a deleted b rest, Parts text c front a deleted b rest := by
  have hbefore := List.rdropWhile_append_rtakeWhile (p := fun c : UInt8 => decide (c ≠ 10)) (l := text.take c.pos)
  have hbehind := List.takeWhile_append_dropWhile (p := fun c : UInt8 => decide (c ≠ 10)) (l := text.drop (c.pos + c.nDeleted))
  have hlength := congrArg List.length hbefore
  rw [List.length_append,List.length_take,Nat.min_eq_left (by omega)] at hlength
  refine ⟨(text.take c.pos).rdropWhile (fun c => decide (c ≠ 10)),(text.take c.pos).rtakeWhile (fun c => decide (c ≠ 10)),
    (text.drop c.pos).take c.nDeleted,(text.drop (c.pos + c.nDeleted)).takeWhile (fun c => decide (c ≠ 10)),
    (text.drop (c.pos + c.nDeleted)).dropWhile (fun c => decide (c ≠ 10)),?_,hlength,?_,whole_rdropWhile _,behind_dropWhile _,
    fun d hd => by simpa using List.mem_rtakeWhile_imp hd,fun d hd => by simpa using List.mem_takeWhile_imp hd⟩
  · rw [List.append_assoc,List.append_assoc,hbehind,← List.append_assoc,hbefore,← List.drop_drop,List.take_append_drop,
      List.take_append_drop]
  · rw [List.length_take,List.length_drop]
    omega

section Parts
variable {text front a deleted b rest : List UInt8} {c : Change} (h : Parts text c front a deleted b rest)
include h

theorem Parts.replace_eq : replace text c.pos (c.pos + c.nDeleted) c.inserted =
    front ++ ((a ++ (c.inserted ++ b)) ++ rest) := by
  have hassoc : ∀ d : List UInt8, front ++ ((a ++ (d ++ b)) ++ rest) = (front ++ a) ++ (d ++ (b ++ rest)) := by
    intro d
    simp only [List.append_assoc]
  rw [h.eq,hassoc,hassoc]
  exact replace_append (by rw [List.length_append,h.pos]) (by rw [h.nDeleted])

theorem Parts.lineStart_eq : lineStart (front ++ ((a ++ (c.inserted ++ b)) ++ rest)) c.pos = front.length := by
  have hstart := @SchemeEditor.lineStart_eq front a ((c.inserted ++ b) ++ rest) c.pos h.front h.a
    (show (front ++ a).length = c.pos by rw [List.length_append,h.pos])
  simpa only [List.append_assoc] using hstart

theorem Parts.lineEnd_eq : lineEnd (front ++ ((a ++ (c.inserted ++ b)) ++ rest)) (c.pos + c.inserted.length) =
    front.length + (a ++ (c.inserted ++ b)).length := by
  have hstop := @SchemeEditor.lineEnd_eq ((front ++ a) ++ c.inserted) b rest (c.pos + c.inserted.length) h.b h.rest
    (show ((front ++ a) ++ c.inserted).length = c.pos + c.inserted.length by
      rw [List.length_append,List.length_append,h.pos])
  have hpos := h.pos
  simp only [List.append_assoc] at hstop
  simp only [List.append_assoc,List.length_append]
  rw [hstop]
  omega

end Parts

/-! ## An update -/

/-- What an update makes of the styles before the lines, of the lines and behind them. -/
theorem styleUpdate_eq {front lines rest : List UInt8} {before style behind stylebuf : List Style}
    {pos nInserted nDeleted : ℕ} (hchanged : ¬ (nInserted = 0 ∧ nDeleted = 0))
    (hstyle : replace stylebuf pos (pos + nDeleted) (List.replicate nInserted .A) = before ++ (style ++ behind))
    (hbefore : before.length = front.length) (hlines : style.length = lines.length) (hbehind : behind.length = rest.length)
    (hstart : lineStart (front ++ (lines ++ rest)) pos = front.length)
    (hstop : lineEnd (front ++ (lines ++ rest)) (pos + nInserted) = front.length + lines.length) :
    styleUpdate codeTypes codeKeywords (front ++ (lines ++ rest)) stylebuf pos nInserted nDeleted =
      some (if lines ≠ [] ∧ (paint codeTypes codeKeywords (style.headD .A) lines).getLast? = style.getLast? then
          before ++ (paint codeTypes codeKeywords (style.headD .A) lines ++ behind)
        else before ++ paint codeTypes codeKeywords
          ((paint codeTypes codeKeywords (style.headD .A) lines ++ behind).headD .A) (lines ++ rest)) := by
  have hpainted := length_paint codeTypes codeKeywords (style.headD .A) lines
  have htext : textRange (front ++ (lines ++ rest)) front.length (front.length + lines.length) = lines :=
    textRange_append rfl rfl
  have hrange : textRange (before ++ (style ++ behind)) front.length (front.length + lines.length) = style :=
    textRange_append hbefore (by rw [hlines])
  have hempty : front.length = front.length + lines.length ↔ lines = [] := by
    rw [← List.length_eq_zero_iff]
    omega
  have hindex : front.length + lines.length - front.length - 1 = lines.length - 1 := by omega
  rw [styleUpdate,if_neg hchanged,hstyle,hstart,hstop]
  dsimp only
  rw [htext,hrange,styleParse_eq codeTypes codeKeywords hlines,Option.bind_some,
    replace_append hbefore (by rw [hlines]),hindex]
  generalize paint codeTypes codeKeywords (style.headD .A) lines = painted at hpainted
  -- the whole of what follows
  have hremainder : (styleParse codeTypes codeKeywords (textRange (front ++ (lines ++ rest)) front.length
      (front ++ (lines ++ rest)).length) (textRange (before ++ (painted ++ behind)) front.length
      (front ++ (lines ++ rest)).length)).map (fun style => replace (before ++ (painted ++ behind)) front.length
        (front ++ (lines ++ rest)).length style) =
      some (before ++ paint codeTypes codeKeywords ((painted ++ behind).headD .A) (lines ++ rest)) := by
    have htail : textRange (front ++ (lines ++ rest)) front.length (front ++ (lines ++ rest)).length = lines ++ rest :=
      textRange_rest rfl List.length_append.symm
    have hstop : front.length + (painted ++ behind).length = (front ++ (lines ++ rest)).length := by
      rw [List.length_append,List.length_append,List.length_append,hpainted,hbehind]
    have hstyles : (painted ++ behind).length = (lines ++ rest).length := by
      rw [List.length_append,List.length_append,hpainted,hbehind]
    rw [htail,textRange_rest hbefore hstop,styleParse_eq codeTypes codeKeywords hstyles,Option.map_some,
      replace_rest hbefore hstop]
  have hbranch : (front.length = front.length + lines.length ∨
      (if front.length = front.length + lines.length then none else style[lines.length - 1]?) ≠ painted[lines.length - 1]?) ↔
      ¬ (lines ≠ [] ∧ painted.getLast? = style.getLast?) := by
    rw [List.getLast?_eq_getElem?,List.getLast?_eq_getElem?,hpainted,hlines]
    by_cases hnil : lines = []
    · exact iff_of_true (.inl (hempty.mpr hnil)) (fun h => h.1 hnil)
    · rw [if_neg (fun heq => hnil (hempty.mp heq))]
      constructor
      · rintro (heq | hdiffer) hlast
        · exact hnil (hempty.mp heq)
        · exact hdiffer hlast.2.symm
      · exact fun hlast => .inr (fun hsame => hlast ⟨hnil,hsame.symm⟩)
  rw [hremainder]
  by_cases hlast : lines ≠ [] ∧ painted.getLast? = style.getLast?
  · rw [if_neg (fun h => hbranch.mp h hlast),if_pos hlast]
  · rw [if_pos (hbranch.mpr hlast),if_neg hlast]

/-- The styles that a text begins with are those of the whole text. -/
theorem inSync_iff {s : Editor} : InSync codeTypes codeKeywords s ↔ s.style = paint codeTypes codeKeywords .A s.text := by
  have hinit : styleInit codeTypes codeKeywords s.text = some (paint codeTypes codeKeywords .A s.text) := by
    rw [styleInit,styleParse_eq codeTypes codeKeywords List.length_replicate]
    cases s.text with
    | nil => rfl
    | cons c text => rfl
  rw [InSync,hinit,Option.some_inj]
  constructor
  · exact fun h => h.2.symm
  · intro h
    exact ⟨by rw [h,length_paint],h.symm⟩

variable (codeTypes codeKeywords) in
/-- What a change leads to, where there are as many styles as characters. -/
theorem step_eq {s : Editor} {c : Change} {front a deleted b rest : List UInt8} {before first dropped second behind : List Style}
    (h : Parts s.text c front a deleted b rest) (hchanged : ¬ (c.inserted.length = 0 ∧ c.nDeleted = 0))
    (hstyle : s.style = before ++ ((first ++ (dropped ++ second)) ++ behind)) (hbefore : before.length = front.length)
    (hfirst : first.length = a.length) (hdropped : dropped.length = deleted.length) (hsecond : second.length = b.length)
    (hbehind : behind.length = rest.length) :
    let lines := a ++ (c.inserted ++ b)
    let style := first ++ (List.replicate c.inserted.length .A ++ second)
    replace s.style c.pos (c.pos + c.nDeleted) (List.replicate c.inserted.length .A) = before ++ (style ++ behind) ∧
    step codeTypes codeKeywords s c = some ⟨front ++ (lines ++ rest),
      if lines ≠ [] ∧ (paint codeTypes codeKeywords (style.headD .A) lines).getLast? = style.getLast? then
        before ++ (paint codeTypes codeKeywords (style.headD .A) lines ++ behind)
      else before ++ paint codeTypes codeKeywords
        ((paint codeTypes codeKeywords (style.headD .A) lines ++ behind).headD .A) (lines ++ rest)⟩ := by
  intro lines style
  have hpos := h.pos
  have hdeleted := h.nDeleted
  have htrack : replace s.style c.pos (c.pos + c.nDeleted) (List.replicate c.inserted.length .A) =
      before ++ (style ++ behind) := by
    have hassoc : ∀ d : List Style, before ++ ((first ++ (d ++ second)) ++ behind) =
        (before ++ first) ++ (d ++ (second ++ behind)) := by
      intro d
      simp only [List.append_assoc]
    rw [hstyle,hassoc,hassoc]
    exact replace_append (by rw [List.length_append,hbefore,hfirst,hpos]) (by rw [hdropped,hdeleted])
  have hlines : style.length = lines.length := by
    simp only [style,lines,List.length_append,List.length_replicate,hfirst,hsecond]
  refine ⟨htrack,?_⟩
  have hpossible : ¬ s.text.length < c.pos + c.nDeleted := by
    rw [h.eq]
    simp only [List.length_append]
    omega
  rw [step,if_neg hpossible,h.replace_eq]
  dsimp only
  rw [styleUpdate_eq hchanged htrack hbefore hlines hbehind h.lineStart_eq h.lineEnd_eq]
  rfl

theorem exists_append {α : Type} {l : List α} {m n : ℕ} (h : l.length = m + n) :
    ∃ x y, l = x ++ y ∧ x.length = m ∧ y.length = n := by
  refine ⟨l.take m,l.drop m,(List.take_append_drop m l).symm,?_,?_⟩
  · rw [List.length_take]
    omega
  · rw [List.length_drop]
    omega

/-- Nothing is done for a change of nothing. -/
theorem step_unchanged {s : Editor} {c : Change} (hpossible : c.pos + c.nDeleted ≤ s.text.length)
    (h : c.inserted.length = 0 ∧ c.nDeleted = 0) : step codeTypes codeKeywords s c = some s := by
  have htext : replace s.text c.pos (c.pos + c.nDeleted) c.inserted = s.text := by
    rw [replace,h.2,List.length_eq_zero_iff.mp h.1,List.append_nil,Nat.add_zero,List.take_append_drop]
  rw [step,if_neg (by omega),htext]
  dsimp only
  rw [styleUpdate,if_pos h,Option.map_some]

variable (codeTypes codeKeywords) in
/-- A change that is possible keeps as many styles as characters. -/
theorem step_length {s : Editor} {c : Change} (hs : s.style.length = s.text.length)
    (hpossible : c.pos + c.nDeleted ≤ s.text.length) :
    ∃ s', step codeTypes codeKeywords s c = some s' ∧ s'.style.length = s'.text.length := by
  by_cases hchanged : c.inserted.length = 0 ∧ c.nDeleted = 0
  · exact ⟨s,step_unchanged hpossible hchanged,hs⟩
  · obtain ⟨front,a,deleted,b,rest,h⟩ := exists_parts hpossible
    have hlength := hs
    rw [h.eq,List.length_append,List.length_append,List.length_append,List.length_append] at hlength
    obtain ⟨before,more,hbefore,hbeforeLen,hmore⟩ := exists_append hlength
    obtain ⟨mid,behind,rfl,hmid,hbehind⟩ := exists_append hmore
    obtain ⟨first,tail,rfl,hfirst,htail⟩ := exists_append hmid
    obtain ⟨dropped,second,rfl,hdropped,hsecond⟩ := exists_append htail
    obtain ⟨-,hstep⟩ := step_eq codeTypes codeKeywords h hchanged hbefore hbeforeLen hfirst
      hdropped hsecond hbehind
    refine ⟨_,hstep,?_⟩
    dsimp only
    split_ifs
    · simp only [List.length_append,length_paint,hbeforeLen,hbehind]
    · simp only [List.length_append,length_paint,hbeforeLen]

/-- The state in which some lines are left. -/
theorem stateAt_eq {front : List UInt8} {mode : Style} {i : ℕ} (hfront : Whole front)
    (hstate : ((parser codeTypes codeKeywords).run ⟨.A,0,false⟩ front).2 = ⟨mode,0,false⟩) (lines rest : List UInt8)
    (hi : front.length + lines.length = i) : stateAt codeTypes codeKeywords (front ++ (lines ++ rest)) i =
      ((parser codeTypes codeKeywords).run ⟨mode,0,false⟩ lines).2 := by
  subst hi
  rw [stateAt,← List.append_assoc,← List.length_append,List.take_left,run_whole hfront,hstate]

/-- A change that is possible leaves the styles of the whole text exactly where it `Meets` the condition. -/
theorem step_inSync_iff {s : Editor} {c : Change} (hs : InSync codeTypes codeKeywords s)
    (hpossible : c.pos + c.nDeleted ≤ s.text.length) :
    (∀ s', step codeTypes codeKeywords s c = some s' → InSync codeTypes codeKeywords s') ↔
      Meets codeTypes codeKeywords s c := by
  by_cases hchanged : c.inserted.length = 0 ∧ c.nDeleted = 0
  · rw [step_unchanged hpossible hchanged]
    refine iff_of_true (fun s' hs' => ?_) (.inl hchanged)
    obtain rfl := Option.some.inj hs'
    exact hs
  · obtain ⟨front,a,deleted,b,rest,h⟩ := exists_parts hpossible
    obtain ⟨mode,hmode,hstate⟩ := whole_state codeTypes codeKeywords h.front
    -- a text that begins with the whole lines is painted in parts
    have hwhole : ∀ lines : List UInt8, paint codeTypes codeKeywords .A (front ++ (lines ++ rest)) =
        paint codeTypes codeKeywords .A front ++ (paint codeTypes codeKeywords mode lines ++ lineTail codeTypes codeKeywords
          ((parser codeTypes codeKeywords).run ⟨mode,0,false⟩ lines).2 rest) := by
      intro lines
      rw [← paint_append hmode lines h.rest,paint,run_whole h.front,hstate]
      rfl
    have hstyle := inSync_iff.mp hs
    rw [h.eq,hwhole] at hstyle
    have hlength := length_paint codeTypes codeKeywords mode (a ++ (deleted ++ b))
    rw [List.length_append] at hlength
    obtain ⟨first,tail,hpainted,hfirst,htail⟩ := exists_append hlength
    rw [List.length_append] at htail
    obtain ⟨dropped,second,rfl,hdropped,hsecond⟩ := exists_append htail
    rw [hpainted] at hstyle
    obtain ⟨htrack,hstep⟩ := step_eq codeTypes codeKeywords h hchanged hstyle (length_paint _ _ _ _) hfirst hdropped hsecond
      (length_lineTail _ _)
    have hbefore := length_paint codeTypes codeKeywords .A front
    have hold : stateAt codeTypes codeKeywords s.text
        (front.length + (a ++ (c.inserted ++ b)).length - c.inserted.length + c.nDeleted) =
        ((parser codeTypes codeKeywords).run ⟨mode,0,false⟩ (a ++ (deleted ++ b))).2 := by
      rw [h.eq]
      refine stateAt_eq h.front hstate _ rest ?_
      simp only [List.length_append,h.nDeleted]
      omega
    have hstyles : (first ++ (List.replicate c.inserted.length Style.A ++ second)).length = (a ++ (c.inserted ++ b)).length := by
      simp only [List.length_append,List.length_replicate,hfirst,hsecond]
    rw [hstep,Meets,htrack,h.replace_eq,h.lineStart_eq,h.lineEnd_eq,hold]
    generalize a ++ (c.inserted ++ b) = lines at hstyles ⊢
    generalize first ++ (List.replicate c.inserted.length Style.A ++ second) = style at hstyles ⊢
    have htext : textRange (front ++ (lines ++ rest)) front.length (front.length + lines.length) = lines :=
      textRange_append rfl rfl
    have hrange : textRange (paint codeTypes codeKeywords .A front ++ (style ++ lineTail codeTypes codeKeywords
        ((parser codeTypes codeKeywords).run ⟨mode,0,false⟩ (a ++ (deleted ++ b))).2 rest)) front.length
        (front.length + lines.length) = style := textRange_append hbefore (by rw [hstyles])
    have hmode' : (stateAt codeTypes codeKeywords (front ++ (lines ++ rest)) front.length).current = mode :=
      congrArg ParseState.current (stateAt_eq h.front hstate [] (lines ++ rest) rfl)
    have hnew := stateAt_eq h.front hstate lines rest rfl
    have hend : front.length + lines.length = (front ++ (lines ++ rest)).length ↔ rest = [] := by
      rw [← List.length_eq_zero_iff]
      simp only [List.length_append]
      omega
    have hdrop : (paint codeTypes codeKeywords .A front ++ (style ++ lineTail codeTypes codeKeywords
        ((parser codeTypes codeKeywords).run ⟨mode,0,false⟩ (a ++ (deleted ++ b))).2 rest)).drop
        (front.length + lines.length) = lineTail codeTypes codeKeywords
        ((parser codeTypes codeKeywords).run ⟨mode,0,false⟩ (a ++ (deleted ++ b))).2 rest := by
      rw [← List.append_assoc,← hbefore,← hstyles,← List.length_append,List.drop_left]
    rw [htext,hrange,hmode',hnew,hend,hdrop,List.drop_left,or_iff_right hchanged]
    have hone : ∀ t : Editor, (∀ s', some t = some s' → InSync codeTypes codeKeywords s') ↔ InSync codeTypes codeKeywords t :=
      fun t => ⟨fun hall => hall t rfl,fun ht s' hs' => Option.some.inj hs' ▸ ht⟩
    rw [hone,inSync_iff]
    dsimp only
    split_ifs
    · rw [hwhole,List.append_cancel_left_eq,← paint_eq_iff codeTypes codeKeywords hmode,← lineTail_inj]
      exact ⟨fun heq => List.append_inj heq (by rw [length_paint,length_paint]),fun heq => by rw [heq.1,heq.2]⟩
    · rw [hwhole,← paint_append hmode lines h.rest,List.append_cancel_left_eq,paint_eq_iff codeTypes codeKeywords hmode]

/-! ## Runs -/

variable (codeTypes codeKeywords)

/-- Every change that is possible is made, and there are always as many styles as characters. -/
theorem exec_length {s s' : Editor} (hs : s.style.length = s.text.length) {changes : List Change}
    (hrun : Transition.exec (step codeTypes codeKeywords) s changes = some s') : s'.style.length = s'.text.length := by
  refine Transition.exec_invariant (C := fun _ _ => True) (I := fun _ t => t.style.length = t.text.length) hs
    (fun _ c t t' _ ht _ hstep => ?_) (fun _ _ _ _ _ _ => trivial) hrun
  by_cases hpossible : c.pos + c.nDeleted ≤ t.text.length
  · obtain ⟨next,hnext,hlength⟩ := step_length codeTypes codeKeywords ht hpossible
    rw [hnext] at hstep
    obtain rfl := Option.some.inj hstep
    exact hlength
  · rw [step,if_pos (by omega)] at hstep
    exact absurd hstep (Option.some_ne_none _).symm

/-- Every text gets as many styles as characters, from every style on and through every run of changes; and from a text
that is parsed as a whole each change leaves the styles of the whole text exactly where it `Meets` the condition. -/
theorem highlighted_iff (text : List UInt8) (changes : List Change) :
    (∀ current lines, (paint codeTypes codeKeywords current lines).length = lines.length) ∧
    ∃ style, styleInit codeTypes codeKeywords text = some style ∧
      (∀ s, Transition.exec (step codeTypes codeKeywords) ⟨text,style⟩ changes = some s → s.style.length = s.text.length ∧
        ∀ c, c.pos + c.nDeleted ≤ s.text.length → (step codeTypes codeKeywords s c).isSome = true) ∧
      (Transition.Along (step codeTypes codeKeywords)
          (fun s c => ∀ s', step codeTypes codeKeywords s c = some s' → InSync codeTypes codeKeywords s') ⟨text,style⟩ changes ↔
        Transition.Along (step codeTypes codeKeywords)
          (fun s c => c.pos + c.nDeleted ≤ s.text.length → Meets codeTypes codeKeywords s c) ⟨text,style⟩ changes) := by
  have hsync : InSync codeTypes codeKeywords ⟨text,paint codeTypes codeKeywords .A text⟩ := inSync_iff.mpr rfl
  refine ⟨length_paint codeTypes codeKeywords,_,hsync.2,fun s hrun => ?_,?_⟩
  · have hlength := exec_length codeTypes codeKeywords hsync.1 hrun
    refine ⟨hlength,fun c hpossible => ?_⟩
    obtain ⟨s',hstep,-⟩ := step_length codeTypes codeKeywords hlength hpossible
    rw [hstep]
    rfl
  · refine Transition.along_iff (I := InSync codeTypes codeKeywords) (fun s c hs => ?_)
      (fun s c s' _ hlaw hstep => hlaw s' hstep) hsync
    by_cases hpossible : c.pos + c.nDeleted ≤ s.text.length
    · rw [step_inSync_iff hs hpossible]
      exact ⟨fun hmeets _ => hmeets,fun hmeets => hmeets hpossible⟩
    · refine iff_of_true (fun s' hstep => ?_) (fun h => absurd h hpossible)
      rw [step,if_pos (by omega)] at hstep
      exact absurd hstep (Option.some_ne_none _).symm

end Update

/-- A quote that is typed in front of another line: its style is that of a string already when the rest is parsed. -/
theorem not_highlighted : ¬ ∀ (text : List UInt8) (changes : List Change) (style : List Style),
    styleInit (fun _ => false) (fun _ => false) text = some style →
    Transition.Along (step (fun _ => false) (fun _ => false)) (fun s c => ∀ s', step (fun _ => false) (fun _ => false) s c = some s' →
      InSync (fun _ => false) (fun _ => false) s') ⟨text,style⟩ changes := by
  intro h
  have hsync := h [10] [⟨0,0,[34]⟩] [.A] (by decide) [] ⟨0,0,[34]⟩ [] rfl ⟨[10],[.A]⟩ rfl ⟨[34,10],[.D,.A]⟩ (by decide)
  exact absurd hsync.2 (by decide)

end Edelib.SchemeEditor
