import Edelib.Foundation.Scanner
import Edelib.Text.StrUtil

/-! # The styles of a text

A text is parsed with a style for each character. Comments and directives end with their line, strings do not; a word
is looked up as a whole. Where a line is left the parser is in a string or it is not.
-/
namespace Edelib.SchemeEditor
open Foundation StrUtil

/-! ## The parser -/

/-- `A` is plain, `B` a line comment, `C` a block comment, `D` a string, `E` a directive, `F` a type, `G` a keyword, `H`
a parenthesis and `I` a highlighted one. -/
inductive Style
  | A | B | C | D | E | F | G | H | I
deriving DecidableEq

structure ParseState where
  current : Style
  col : ℕ
  last : Bool
deriving DecidableEq

def islower (c : UInt8) : Bool := decide (97 ≤ c ∧ c ≤ 122)

def isalnum (c : UInt8) : Bool := islower c || isupper c || decide (48 ≤ c ∧ c ≤ 57)

def wordChar (c : UInt8) : Bool := islower c || c == 95

/-- A character is one of a string, or its terminator. -/
def strchr (str : List UInt8) (c : UInt8) : Bool := (str ++ [0]).contains c

/-- `([{` and `)]}` -/
def paren (c : UInt8) : Bool := strchr [40,91,123] c || strchr [41,93,125] c

/-- The style that a step begins with: comments, types, keywords and parentheses are over. -/
def settle : Style → Style
  | .B | .F | .G | .H => .A
  | c => c

abbrev Parsed := List Style × ParseState × List UInt8

def copyStyle (current : Style) (s : ParseState) (c : UInt8) (text : List UInt8) : Parsed :=
  ([if current = .A ∧ paren c = true then .H else current],
    ⟨if c = 10 ∧ (current = .B ∨ current = .E) then .A else current,if c = 10 then 0 else s.col + 1,
      isalnum c || c == 95 || c == 46⟩,text)

/-- A comment goes up to the newline, which is copied with it, or to the end of the text. -/
def parseComment (s : ParseState) (text : List UInt8) : Parsed :=
  let comment := (text.takeWhile (fun c => decide (c ≠ 10))).map (fun _ => Style.B)
  match text.dropWhile (fun c => decide (c ≠ 10)) with
  | [] => (comment,⟨.B,s.col,s.last⟩,[])
  | c :: text => (comment ++ (copyStyle .B s c text).1,(copyStyle .B s c text).2)

section Tables
variable (codeTypes codeKeywords : List UInt8 → Bool)

/-- The style of a word that is found in one of the tables; a word that fills the buffer is not looked for. -/
def wordStyle (word temp : List UInt8) : Option Style :=
  if temp.head?.any wordChar = true then none
  else if codeTypes word = true then some .F
  else if codeKeywords word = true then some .G
  else none

def parseWord (s : ParseState) (c : UInt8) (text : List UInt8) : Parsed :=
  let word := ((c :: text).takeWhile wordChar).take 254
  let temp := (c :: text).drop word.length
  match wordStyle codeTypes codeKeywords word temp with
  | some style => (List.replicate word.length style,⟨.A,s.col + word.length,true⟩,temp)
  | none => copyStyle .A s c text

def quoted (c : UInt8) (text : List UInt8) : Bool := c == 92 && text.head? == some 34

def parseStep (s : ParseState) (c : UInt8) (text : List UInt8) : Parsed :=
  let current := settle s.current
  if current = .A then
    -- check for directives, comments, strings, and keywords
    if s.col = 0 ∧ c = 35 then copyStyle .E s c text
    else if c = 59 then parseComment s (c :: text)
    else if quoted c text = true then ([.A,.A],⟨.A,s.col + 2,s.last⟩,text.tail)
    else if c = 34 then copyStyle .D s c text
    else if s.last = false ∧ wordChar c = true then parseWord codeTypes codeKeywords s c text
    else copyStyle .A s c text
  else if current = .D then
    -- continuing in string
    if quoted c text = true then ([.D,.D],⟨.D,s.col + 2,s.last⟩,text.tail)
    else if c = 34 then ([.D],⟨.A,s.col + 1,s.last⟩,text)
    else copyStyle .D s c text
  else copyStyle current s c text

end Tables

/-! ## A turn writes as much as it reads -/

theorem length_parseComment (s : ParseState) (text : List UInt8) :
    (parseComment s text).1.length + (parseComment s text).2.2.length = text.length := by
  have hlength := congrArg List.length (List.takeWhile_append_dropWhile (p := fun c : UInt8 => decide (c ≠ 10)) (l := text))
  rw [List.length_append] at hlength
  rw [parseComment]
  cases hrest : text.dropWhile (fun c => decide (c ≠ 10)) with
  | nil =>
    rw [hrest,List.length_nil] at hlength
    dsimp only
    rw [List.length_map,List.length_nil]
    exact hlength
  | cons c rest =>
    rw [hrest,List.length_cons] at hlength
    dsimp only [copyStyle]
    rw [List.length_append,List.length_map,List.length_singleton]
    omega

theorem word_cons {c : UInt8} (hc : wordChar c = true) (text : List UInt8) :
    ((c :: text).takeWhile wordChar).take 254 = c :: (text.takeWhile wordChar).take 253 := by
  rw [List.takeWhile_cons_of_pos hc,List.take_succ_cons]

theorem length_word_le (c : UInt8) (text : List UInt8) :
    (((c :: text).takeWhile wordChar).take 254).length ≤ text.length + 1 :=
  (List.length_take_le' _ _).trans ((List.takeWhile_prefix _).length_le)

section Tables
variable (codeTypes codeKeywords : List UInt8 → Bool)

theorem length_parseWord (s : ParseState) (c : UInt8) (text : List UInt8) :
    (parseWord codeTypes codeKeywords s c text).1.length + (parseWord codeTypes codeKeywords s c text).2.2.length =
      text.length + 1 := by
  have hle := length_word_le c text
  rw [parseWord]
  cases wordStyle codeTypes codeKeywords (((c :: text).takeWhile wordChar).take 254)
      ((c :: text).drop (((c :: text).takeWhile wordChar).take 254).length) with
  | none =>
    dsimp only [copyStyle]
    rw [List.length_singleton,Nat.add_comm]
  | some style =>
    dsimp only
    rw [List.length_replicate,List.length_drop,List.length_cons]
    omega

theorem tail_of_quoted {c : UInt8} {text : List UInt8} (h : quoted c text = true) :
    ∃ rest, text = 34 :: rest := by
  rw [quoted,Bool.and_eq_true,beq_iff_eq,beq_iff_eq] at h
  exact List.head?_eq_some_iff.mp h.2

theorem length_parseStep (s : ParseState) (c : UInt8) (text : List UInt8) :
    (parseStep codeTypes codeKeywords s c text).1.length + (parseStep codeTypes codeKeywords s c text).2.2.length =
      text.length + 1 := by
  have hcopy : ∀ current, (copyStyle current s c text).1.length + (copyStyle current s c text).2.2.length =
      text.length + 1 := fun current => Nat.add_comm _ _
  have hpair : ∀ style : Style, quoted c text = true → [style,style].length + text.tail.length = text.length + 1 := by
    intro style h
    obtain ⟨rest,rfl⟩ := tail_of_quoted h
    simp only [List.length_cons,List.length_nil,List.tail_cons]
    omega
  rw [parseStep]
  split_ifs with _ _ _ hquoted _ _ _ hquoted
  · exact hcopy _
  · exact length_parseComment s (c :: text)
  · exact hpair _ hquoted
  · exact hcopy _
  · exact length_parseWord codeTypes codeKeywords s c text
  · exact hcopy _
  · exact hpair _ hquoted
  · exact Nat.add_comm _ _
  · exact hcopy _
  · exact hcopy _

/-- A turn writes something. -/
theorem parseStep_pos (s : ParseState) (c : UInt8) (text : List UInt8) :
    0 < (parseStep codeTypes codeKeywords s c text).1.length := by
  rw [parseStep]
  split_ifs with _ _ hcomment _ _ hword
  · exact Nat.one_pos
  · rw [parseComment]
    cases (c :: text).dropWhile (fun c => decide (c ≠ 10)) <;>
      simp [hcomment]
  · exact Nat.two_pos
  · exact Nat.one_pos
  · rw [parseWord]
    cases wordStyle codeTypes codeKeywords (((c :: text).takeWhile wordChar).take 254)
        ((c :: text).drop (((c :: text).takeWhile wordChar).take 254).length) with
    | none => exact Nat.one_pos
    | some style =>
      dsimp only
      rw [List.length_replicate,word_cons hword.2,List.length_cons]
      exact Nat.succ_pos _
  · exact Nat.one_pos
  · exact Nat.two_pos
  · exact Nat.one_pos
  · exact Nat.one_pos
  · exact Nat.one_pos

def parser : Scanner ParseState UInt8 Style where
  step := parseStep codeTypes codeKeywords
  paced := length_parseStep codeTypes codeKeywords
  moves s c text := by
    have hlength := length_parseStep codeTypes codeKeywords s c text
    have hpos := parseStep_pos codeTypes codeKeywords s c text
    omega

/-- The styles that are written for a text, from the style of its first character on. -/
def paint (current : Style) (text : List UInt8) : List Style :=
  ((parser codeTypes codeKeywords).run ⟨current,0,false⟩ text).1

/-- Parse text and produce style data; there is none where more is written than there is room for. -/
def styleParse (text : List UInt8) (style : List Style) : Option (List Style) :=
  let written := paint codeTypes codeKeywords (style.headD .A) text
  if written.length ≤ style.length then some (written ++ style.drop written.length) else none

/-- As many styles are written as there are characters. -/
theorem length_paint (current : Style) (text : List UInt8) :
    (paint codeTypes codeKeywords current text).length = text.length :=
  (parser codeTypes codeKeywords).length_run _ _

theorem styleParse_eq {text : List UInt8} {style : List Style} (h : style.length = text.length) :
    styleParse codeTypes codeKeywords text style = some (paint codeTypes codeKeywords (style.headD .A) text) := by
  rw [styleParse,length_paint,h,if_pos (le_refl _),List.drop_of_length_le (by omega),List.append_nil]

end Tables

/-! ## A newline ends a line -/

def Settled (s : ParseState) : Prop := settle s.current = s.current

/-- A newline is copied, and comments and directives end. -/
def newline (s : ParseState) : Style × ParseState :=
  (s.current,⟨if s.current = .B ∨ s.current = .E then .A else s.current,0,false⟩)

theorem copyStyle_newline (current : Style) (s : ParseState) (text : List UInt8) :
    copyStyle current s 10 text = ([current],⟨if current = .B ∨ current = .E then .A else current,0,false⟩,text) := by
  have hparen : paren 10 = false := by decide
  have hlast : (isalnum 10 || (10 : UInt8) == 95 || (10 : UInt8) == 46) = false := by decide
  rw [copyStyle,hparen,hlast,if_neg (fun h => Bool.false_ne_true h.2),if_pos rfl]
  simp only [true_and]

theorem quoted_append (c : UInt8) (text rest : List UInt8) : quoted c (text ++ 10 :: rest) = quoted c text := by
  cases text with
  | nil => rw [quoted,quoted,List.nil_append,List.head?_cons]; rfl
  | cons d text => rfl

theorem takeWhile_append_newline {p : UInt8 → Bool} (hp : p 10 = false) (text rest : List UInt8) :
    (text ++ 10 :: rest).takeWhile p = text.takeWhile p := by
  rw [List.takeWhile_append,List.takeWhile_cons_of_neg (by rw [hp]; exact Bool.false_ne_true),List.append_nil]
  split_ifs with h
  · exact ((List.takeWhile_prefix p).eq_of_length h).symm
  · rfl

theorem dropWhile_append_newline {p : UInt8 → Bool} (hp : p 10 = false) (text rest : List UInt8) :
    (text ++ 10 :: rest).dropWhile p = text.dropWhile p ++ 10 :: rest := by
  rw [List.dropWhile_append]
  split_ifs with h
  · rw [List.isEmpty_iff.mp h,List.dropWhile_cons_of_neg (by rw [hp]; exact Bool.false_ne_true),List.nil_append]
  · rfl

/-- A turn is the same in front of a newline, or it goes up to the newline. -/
def SplitsAt (whole part : Parsed) (rest : List UInt8) : Prop :=
  Settled part.2.1 ∧ whole = (part.1,part.2.1,part.2.2 ++ 10 :: rest) ∨
    part.2.2 = [] ∧ whole = (part.1 ++ [(newline part.2.1).1],(newline part.2.1).2,rest)

theorem copyStyle_splits {current : Style} (hcurrent : settle current = current) (s : ParseState) (c : UInt8)
    (text rest : List UInt8) : SplitsAt (copyStyle current s c (text ++ 10 :: rest)) (copyStyle current s c text) rest := by
  refine .inl ⟨?_,rfl⟩
  rw [Settled,copyStyle]
  dsimp only
  split_ifs
  · rfl
  · exact hcurrent

theorem parseComment_splits (s : ParseState) (text rest : List UInt8) :
    SplitsAt (parseComment s (text ++ 10 :: rest)) (parseComment s text) rest := by
  have hnewline : decide ((10 : UInt8) ≠ 10) = false := by decide
  rw [parseComment,parseComment,takeWhile_append_newline hnewline,dropWhile_append_newline hnewline]
  cases hdrop : text.dropWhile (fun c => decide (c ≠ 10)) with
  | nil =>
    refine .inr ⟨rfl,?_⟩
    rw [List.nil_append]
    dsimp only
    rw [copyStyle_newline]
    rfl
  | cons c text' =>
    have hc : c = 10 := by
      have hhead := List.head?_dropWhile_not (fun c : UInt8 => decide (c ≠ 10)) text
      rw [hdrop] at hhead
      simpa using hhead
    refine .inl ⟨?_,rfl⟩
    rw [hc]
    dsimp only
    rw [copyStyle_newline]
    rfl

section Tables
variable (codeTypes codeKeywords : List UInt8 → Bool)

theorem parseWord_splits (s : ParseState) (c : UInt8) (text rest : List UInt8) :
    SplitsAt (parseWord codeTypes codeKeywords s c (text ++ 10 :: rest)) (parseWord codeTypes codeKeywords s c text)
      rest := by
  have hnewline : wordChar 10 = false := by decide
  have hword : ((c :: (text ++ 10 :: rest)).takeWhile wordChar).take 254 = ((c :: text).takeWhile wordChar).take 254 := by
    rw [← List.cons_append,takeWhile_append_newline hnewline]
  have hle := length_word_le c text
  rw [parseWord,parseWord,hword]
  generalize ((c :: text).takeWhile wordChar).take 254 = word at hle ⊢
  have htemp : (c :: (text ++ 10 :: rest)).drop word.length = (c :: text).drop word.length ++ 10 :: rest := by
    rw [← List.cons_append,List.drop_append_of_le_length (by rw [List.length_cons]; exact hle)]
  have hstyle : wordStyle codeTypes codeKeywords word ((c :: text).drop word.length ++ 10 :: rest) =
      wordStyle codeTypes codeKeywords word ((c :: text).drop word.length) := by
    rw [wordStyle,wordStyle]
    cases (c :: text).drop word.length with
    | nil => rw [List.nil_append,List.head?_cons,Option.any_some,hnewline]; rfl
    | cons d temp => rfl
  rw [htemp,hstyle]
  cases wordStyle codeTypes codeKeywords word ((c :: text).drop word.length) with
  | none => exact copyStyle_splits rfl s c text rest
  | some style => exact .inl ⟨rfl,rfl⟩

theorem parser_splits : (parser codeTypes codeKeywords).Splits Settled 10 newline := by
  constructor
  · intro s rest hs
    have hquoted : quoted 10 rest = false := rfl
    have hword : wordChar 10 = false := by decide
    have hnewline : (parser codeTypes codeKeywords).step s 10 rest = copyStyle s.current s 10 rest := by
      change parseStep codeTypes codeKeywords s 10 rest = _
      rw [parseStep,hs,hquoted,hword]
      by_cases hplain : s.current = .A
      · rw [if_pos hplain,if_neg (fun h => absurd h.2 (by decide)),if_neg (by decide),if_neg Bool.false_ne_true,
          if_neg (by decide),if_neg (fun h => Bool.false_ne_true h.2),hplain]
      · rw [if_neg hplain]
        by_cases hstring : s.current = .D
        · rw [if_pos hstring,if_neg Bool.false_ne_true,if_neg (by decide),hstring]
        · rw [if_neg hstring]
    rw [hnewline,copyStyle_newline]
    rfl
  · intro s c text rest hs
    change SplitsAt (parseStep codeTypes codeKeywords s c (text ++ 10 :: rest)) (parseStep codeTypes codeKeywords s c text)
      rest
    have htail : quoted c text = true → (text ++ 10 :: rest).tail = text.tail ++ 10 :: rest := by
      intro h
      obtain ⟨text',rfl⟩ := tail_of_quoted h
      rfl
    rw [parseStep,parseStep,quoted_append,← List.cons_append]
    split_ifs with _ _ _ hquoted _ _ _ hquoted
    · exact copyStyle_splits rfl s c text rest
    · exact parseComment_splits s (c :: text) rest
    · exact .inl ⟨rfl,by rw [htail hquoted]⟩
    · exact copyStyle_splits rfl s c text rest
    · exact parseWord_splits codeTypes codeKeywords s c text rest
    · exact copyStyle_splits rfl s c text rest
    · exact .inl ⟨rfl,by rw [htail hquoted]⟩
    · exact .inl ⟨rfl,rfl⟩
    · exact copyStyle_splits rfl s c text rest
    · exact copyStyle_splits (by rw [hs]; exact hs) s c text rest

/-! ## Where two states paint alike -/

theorem settle_settle (style : Style) : settle (settle style) = settle style := by
  cases style <;> rfl

theorem parseStep_settle (style : Style) (col : ℕ) (last : Bool) (c : UInt8) (text : List UInt8) :
    parseStep codeTypes codeKeywords ⟨settle style,col,last⟩ c text = parseStep codeTypes codeKeywords ⟨style,col,last⟩ c text := by
  rw [parseStep,parseStep,settle_settle]
  rfl

theorem paint_settle (style : Style) (text : List UInt8) :
    paint codeTypes codeKeywords (settle style) text = paint codeTypes codeKeywords style text := by
  cases text with
  | nil => rfl
  | cons c text =>
    have hstep : (parser codeTypes codeKeywords).step ⟨settle style,0,false⟩ c text =
        (parser codeTypes codeKeywords).step ⟨style,0,false⟩ c text := parseStep_settle codeTypes codeKeywords style 0 false c text
    rw [paint,paint,Scanner.run_cons,Scanner.run_cons,hstep]

/-- A plain state begins a string at a quote and a directive at a `#` that begins a line, and nothing else does. -/
theorem head_plain {s : ParseState} (hs : settle s.current = .A) (c : UInt8) (text : List UInt8) :
    ∃ style styles, (parseStep codeTypes codeKeywords s c text).1 = style :: styles ∧ (style = .D ↔ c = 34) ∧
      (style = .E ↔ s.col = 0 ∧ c = 35) ∧ style ≠ .C ∧ style ≠ .I := by
  rw [parseStep,if_pos hs]
  split_ifs with hdirective hcomment hquoted hstring hword
  · obtain ⟨hcol,rfl⟩ := hdirective
    exact ⟨.E,[],rfl,by decide,iff_of_true rfl ⟨hcol,rfl⟩,by decide,by decide⟩
  · subst hcomment
    have hdropped : ∃ styles, (parseComment s (59 :: text)).1 = .B :: styles := by
      rw [parseComment,List.takeWhile_cons_of_pos (by decide),List.map_cons]
      cases (59 :: text).dropWhile (fun c => decide (c ≠ 10)) with
      | nil => exact ⟨_,rfl⟩
      | cons c text' => exact ⟨_,rfl⟩
    obtain ⟨styles,hstyles⟩ := hdropped
    exact ⟨.B,styles,hstyles,by decide,iff_of_false (by decide) (fun h => absurd h.2 (by decide)),by decide,by decide⟩
  · rw [quoted,Bool.and_eq_true,beq_iff_eq] at hquoted
    rw [hquoted.1]
    exact ⟨.A,[.A],rfl,by decide,iff_of_false (by decide) (fun h => absurd h.2 (by decide)),by decide,by decide⟩
  · subst hstring
    exact ⟨.D,[],rfl,iff_of_true rfl rfl,iff_of_false (by decide) (fun h => absurd h.2 (by decide)),by decide,by decide⟩
  · have hfound : ∃ style styles, (parseWord codeTypes codeKeywords s c text).1 = style :: styles ∧
        (style = .A ∨ style = .F ∨ style = .G ∨ style = .H) := by
      rw [parseWord,word_cons hword.2]
      cases hstyle : wordStyle codeTypes codeKeywords (c :: (text.takeWhile wordChar).take 253)
          ((c :: text).drop (c :: (text.takeWhile wordChar).take 253).length) with
      | none =>
        refine ⟨_,[],rfl,?_⟩
        split_ifs
        · exact .inr (.inr (.inr rfl))
        · exact .inl rfl
      | some style =>
        refine ⟨style,_,rfl,?_⟩
        rw [wordStyle] at hstyle
        split_ifs at hstyle
        · exact .inr (.inl (Option.some.inj hstyle).symm)
        · exact .inr (.inr (.inl (Option.some.inj hstyle).symm))
    obtain ⟨style,styles,hstyles,hcase⟩ := hfound
    refine ⟨style,styles,hstyles,iff_of_false ?_ hstring,iff_of_false ?_ hdirective,?_,?_⟩ <;>
      obtain rfl | rfl | rfl | rfl := hcase <;> decide
  · refine ⟨_,[],rfl,iff_of_false ?_ hstring,iff_of_false ?_ hdirective,?_,?_⟩ <;> split_ifs <;> decide

theorem head_string {s : ParseState} (hs : s.current = .D) (c : UInt8) (text : List UInt8) :
    ∃ styles, (parseStep codeTypes codeKeywords s c text).1 = .D :: styles := by
  have hsettle : settle s.current = .D := by rw [hs]; rfl
  rw [parseStep,hsettle,if_neg (by decide),if_pos rfl]
  split_ifs
  · exact ⟨_,rfl⟩
  · exact ⟨_,rfl⟩
  · exact ⟨_,rfl⟩

theorem step_other {s : ParseState} (hs : Settled s) (hplain : s.current ≠ .A) (hstring : s.current ≠ .D) (c : UInt8)
    (text : List UInt8) : parseStep codeTypes codeKeywords s c text = copyStyle s.current s c text := by
  rw [parseStep,hs,if_neg hplain,if_neg hstring]

theorem step_quote {s : ParseState} (text : List UInt8) :
    (settle s.current = .A → parseStep codeTypes codeKeywords s 34 text = ([.D],⟨.D,s.col + 1,false⟩,text)) ∧
    (s.current = .D → parseStep codeTypes codeKeywords s 34 text = ([.D],⟨.A,s.col + 1,s.last⟩,text)) := by
  have hquoted : quoted 34 text = false := rfl
  constructor
  · intro hs
    rw [parseStep,hs,hquoted,if_pos rfl,if_neg (fun h => absurd h.2 (by decide)),if_neg (by decide),
      if_neg Bool.false_ne_true,if_pos rfl]
    rfl
  · intro hs
    have hsettle : settle s.current = .D := by rw [hs]; rfl
    rw [parseStep,hsettle,hquoted,if_neg (by decide),if_pos rfl,if_neg Bool.false_ne_true,if_pos rfl]

/-- Quotes alone are a string from inside and from outside. -/
theorem run_quotes {s t : ParseState} (hs : settle s.current = .A) (ht : t.current = .D) (text : List UInt8) :
    ((parser codeTypes codeKeywords).run s text).1 = ((parser codeTypes codeKeywords).run t text).1 ↔
      ∀ c ∈ text, c = 34 := by
  induction text generalizing s t with
  | nil => exact iff_of_true rfl (fun c hc => absurd hc List.not_mem_nil)
  | cons c text ih =>
    rw [List.forall_mem_cons,Scanner.run_cons,Scanner.run_cons]
    change (parseStep codeTypes codeKeywords s c text).1 ++ ((parser codeTypes codeKeywords).run
      (parseStep codeTypes codeKeywords s c text).2.1 (parseStep codeTypes codeKeywords s c text).2.2).1 =
      (parseStep codeTypes codeKeywords t c text).1 ++ ((parser codeTypes codeKeywords).run
      (parseStep codeTypes codeKeywords t c text).2.1 (parseStep codeTypes codeKeywords t c text).2.2).1 ↔ _
    by_cases hc : c = 34
    · subst hc
      rw [(step_quote codeTypes codeKeywords text).1 hs,(step_quote codeTypes codeKeywords text).2 ht]
      dsimp only
      rw [List.append_cancel_left_eq,eq_comm,ih rfl rfl]
      exact ⟨fun h => ⟨rfl,h⟩,fun h => h.2⟩
    · obtain ⟨style,styles,hplain,hstyle,-⟩ := head_plain codeTypes codeKeywords hs c text
      obtain ⟨styles',hstring⟩ := head_string codeTypes codeKeywords ht c text
      rw [hplain,hstring]
      exact iff_of_false (fun h => hc (hstyle.mp (List.cons.inj h).1)) (fun h => hc h.1)

theorem paint_cons (style : Style) (c : UInt8) (text : List UInt8) : ∃ styles,
    paint codeTypes codeKeywords style (c :: text) = (parseStep codeTypes codeKeywords ⟨style,0,false⟩ c text).1 ++ styles := by
  rw [paint,Scanner.run_cons]
  exact ⟨_,rfl⟩

theorem paint_plain (c : UInt8) (text : List UInt8) : ∃ style styles, paint codeTypes codeKeywords .A (c :: text) =
    style :: styles ∧ (style = .D ↔ c = 34) ∧ (style = .E ↔ c = 35) ∧ style ≠ .C ∧ style ≠ .I := by
  obtain ⟨styles,hpaint⟩ := paint_cons codeTypes codeKeywords .A c text
  obtain ⟨style,more,hstep,hstring,hdirective,hrest⟩ := head_plain codeTypes codeKeywords (s := ⟨.A,0,false⟩) rfl c text
  rw [hpaint,hstep]
  exact ⟨style,more ++ styles,rfl,hstring,hdirective.trans (and_iff_right rfl),hrest⟩

theorem paint_string (c : UInt8) (text : List UInt8) :
    ∃ styles, paint codeTypes codeKeywords .D (c :: text) = .D :: styles := by
  obtain ⟨styles,hpaint⟩ := paint_cons codeTypes codeKeywords .D c text
  obtain ⟨more,hstep⟩ := head_string codeTypes codeKeywords (s := ⟨.D,0,false⟩) rfl c text
  rw [hpaint,hstep]
  exact ⟨more ++ styles,rfl⟩

theorem paint_other {r : Style} (hr : settle r = r) (hplain : r ≠ .A) (hstring : r ≠ .D) (c : UInt8) (text : List UInt8) :
    ∃ styles, paint codeTypes codeKeywords r (c :: text) = r :: styles := by
  obtain ⟨styles,hpaint⟩ := paint_cons codeTypes codeKeywords r c text
  have hcopy := step_other codeTypes codeKeywords (s := ⟨r,0,false⟩) hr hplain hstring c text
  rw [hpaint,hcopy]
  dsimp only [copyStyle]
  rw [if_neg (fun h => hplain h.1)]
  exact ⟨styles,rfl⟩

/-- A line that begins with `#` is a directive also for a state that takes it for one. -/
theorem paint_directive (c : UInt8) (text : List UInt8) :
    paint codeTypes codeKeywords .E (c :: text) = paint codeTypes codeKeywords .A (c :: text) ↔ c = 35 := by
  constructor
  · intro h
    obtain ⟨style,styles,hplain,-,hdirective,-⟩ := paint_plain codeTypes codeKeywords c text
    obtain ⟨styles',hother⟩ := paint_other codeTypes codeKeywords (r := .E) rfl (by decide) (by decide) c text
    rw [hplain,hother] at h
    exact hdirective.mp (List.cons.inj h).1.symm
  · rintro rfl
    have hstep : (parser codeTypes codeKeywords).step ⟨.E,0,false⟩ 35 text =
        (parser codeTypes codeKeywords).step ⟨.A,0,false⟩ 35 text := rfl
    rw [paint,paint,Scanner.run_cons,Scanner.run_cons,hstep]

/-- Two states at the start of a line paint a text alike: they are the same, or the one is that of a directive and the
text is a directive, or there are only quotes. -/
def Like (r mode : Style) (text : List UInt8) : Prop :=
  text = [] ∨ settle r = mode ∨ (r = .E ∧ mode = .A ∧ text.head? = some 35) ∨
    ((settle r = .A ∨ r = .D) ∧ ∀ c ∈ text, c = 34)

theorem paint_eq_iff {r mode : Style} (hmode : mode = .A ∨ mode = .D) (text : List UInt8) :
    paint codeTypes codeKeywords r text = paint codeTypes codeKeywords mode text ↔ Like r mode text := by
  cases text with
  | nil => exact iff_of_true rfl (.inl rfl)
  | cons c text =>
    have hquotes : paint codeTypes codeKeywords .A (c :: text) = paint codeTypes codeKeywords .D (c :: text) ↔
        ∀ d ∈ c :: text, d = 34 := run_quotes codeTypes codeKeywords rfl rfl (c :: text)
    obtain ⟨style,styles,hplain,-,-,hblock,hlight⟩ := paint_plain codeTypes codeKeywords c text
    obtain ⟨styles',hstring⟩ := paint_string codeTypes codeKeywords c text
    have hother : r = .C ∨ r = .E ∨ r = .I → paint codeTypes codeKeywords r (c :: text) ≠
        paint codeTypes codeKeywords .D (c :: text) := by
      intro hr h
      obtain ⟨more,hmore⟩ := paint_other codeTypes codeKeywords (r := r) (by obtain rfl | rfl | rfl := hr <;> rfl)
        (by obtain rfl | rfl | rfl := hr <;> decide) (by obtain rfl | rfl | rfl := hr <;> decide) c text
      rw [hmore,hstring] at h
      obtain rfl | rfl | rfl := hr <;> exact absurd (List.cons.inj h).1 (by decide)
    have hunlike : ∀ r, r = .C ∨ r = .I → paint codeTypes codeKeywords r (c :: text) ≠
        paint codeTypes codeKeywords .A (c :: text) := by
      intro r hr h
      obtain ⟨more,hmore⟩ := paint_other codeTypes codeKeywords (r := r) (by obtain rfl | rfl := hr <;> rfl)
        (by obtain rfl | rfl := hr <;> decide) (by obtain rfl | rfl := hr <;> decide) c text
      rw [hmore,hplain] at h
      obtain rfl | rfl := hr
      · exact hblock (List.cons.inj h).1.symm
      · exact hlight (List.cons.inj h).1.symm
    have hsettle := paint_settle codeTypes codeKeywords r (c :: text)
    obtain rfl | rfl := hmode
    · cases r with
      | A => exact iff_of_true rfl (.inr (.inl rfl))
      | B => exact iff_of_true hsettle.symm (.inr (.inl rfl))
      | C => exact iff_of_false (hunlike .C (.inl rfl)) (by simp [Like,settle])
      | D => rw [eq_comm,hquotes]; simp [Like,settle]
      | E => rw [paint_directive]; simp [Like,settle]
      | F => exact iff_of_true hsettle.symm (.inr (.inl rfl))
      | G => exact iff_of_true hsettle.symm (.inr (.inl rfl))
      | H => exact iff_of_true hsettle.symm (.inr (.inl rfl))
      | I => exact iff_of_false (hunlike .I (.inr rfl)) (by simp [Like,settle])
    · cases r with
      | A => rw [hquotes]; simp [Like,settle]
      | B => rw [← hsettle]; exact hquotes.trans (by simp [Like,settle])
      | C => exact iff_of_false (hother (.inl rfl)) (by simp [Like,settle])
      | D => exact iff_of_true rfl (.inr (.inl rfl))
      | E => exact iff_of_false (hother (.inr (.inl rfl))) (by simp [Like,settle])
      | F => rw [← hsettle]; exact hquotes.trans (by simp [Like,settle])
      | G => rw [← hsettle]; exact hquotes.trans (by simp [Like,settle])
      | H => rw [← hsettle]; exact hquotes.trans (by simp [Like,settle])
      | I => exact iff_of_false (hother (.inr (.inr rfl))) (by simp [Like,settle])

end Tables

end Edelib.SchemeEditor
