import Edelib.Foundation.Numeral
import Edelib.Foundation.Consumer
import Edelib.Text.StrUtil

/-! # JSON texts

A text is read from a port, character by character; a value is what Scheme has for it. A variable may be unbound,
and a procedure of Scheme does not take a value of the wrong type.
-/
namespace Edelib.Json
open Foundation

abbrev Text := List UInt8

def ascii (s : String) : Text := s.toList.map (fun c => c.toNat.toUInt8)

inductive Datum
  | null
  | boolean (b : Bool)
  | integer (n : ℤ)
  | real (text : Text)
  | string (s : Text)
  | symbol (s : Text)
  | pair (car cdr : Datum)
  | procedure
  | eof
deriving DecidableEq

def Datum.ofList : List Datum → Datum
  | [] => null
  | d :: ds => pair d (ofList ds)

inductive Error
  | unbound (name : String)
  | wrongType
  | message (text : Text)

/-! ## Ports -/

abbrev Port := List UInt8

abbrev Parser := Consumer Error UInt8

/-- The end is at a NUL, and at a `char` that is -1. -/
def inchar : Port → Option UInt8 × Port
  | [] => (none,[])
  | c :: s => if c = 0 then (none,c :: s) else if c = 255 then (none,s) else (some c,s)

def readChar : Parser (Option UInt8) := fun s => .ok (inchar s)

theorem length_inchar_le (s : Port) : (inchar s).2.length ≤ s.length := by
  cases s with
  | nil => exact Nat.le_refl _
  | cons c s =>
    rw [inchar]
    split_ifs
    · exact Nat.le_refl _
    · exact Nat.le_succ _
    · exact Nat.le_succ _

theorem length_inchar_lt {s r : Port} {c : UInt8} (h : inchar s = (some c,r)) : r.length < s.length := by
  cases s with
  | nil => cases h
  | cons c' s =>
    rw [inchar] at h
    split_ifs at h
    · cases h
    · cases h
    · cases h
      exact Nat.lt_succ_self r.length

theorem forward_readChar : readChar.Forward := by
  intro s c r h
  obtain rfl : (inchar s).2 = r := congrArg Prod.snd (Except.ok.inj h)
  exact length_inchar_le s

/-! ## The lexer -/

/-- `->string` -/
def toText : Datum → Text
  | .symbol s => s
  | .eof => ascii "<EOF>"
  | _ => []

def lexerError {α : Type} : Option UInt8 → Parser α
  | some c => throw (.message (ascii "unexpected character " ++ [c]))
  | none => throw (.message (ascii "unexpected character " ++ ascii "<EOF>"))

/-- `parse-error` -/
def parseErrorOf (token : Datum) : Error := .message (ascii "unexpected token " ++ toText token)

def hexCharValue : Option UInt8 → Parser ℕ
  | none => throw .wrongType
  | some ch =>
    if 97 ≤ ch ∧ ch ≤ 102 then pure (ch.toNat - 87)
    else if 65 ≤ ch ∧ ch ≤ 70 then pure (ch.toNat - 55)
    else if 48 ≤ ch ∧ ch ≤ 57 then pure (ch.toNat - 48)
    else lexerError (some ch)

/-- `char-control?` -/
def charControl (c : UInt8) : Bool := decide (c < 32 ∨ 127 < c ∧ c < 160)

def consumeChar (expect : UInt8) : Parser Unit := do
  let ch ← readChar
  if ch = some expect then pure () else lexerError ch

def parseUnicode : Parser UInt8 := do
  let a ← hexCharValue (← readChar)
  let b ← hexCharValue (← readChar)
  let c ← hexCharValue (← readChar)
  let d ← hexCharValue (← readChar)
  pure (4096 * a + 256 * b + 16 * c + d).toUInt8

def parseEscape (q : UInt8) : Parser UInt8 := do
  let ch ← readChar
  if ch = some 98 then pure 8
  else if ch = some 102 then pure 12
  else if ch = some 110 then pure 10
  else if ch = some 114 then pure 13
  else if ch = some 116 then pure 9
  else if ch = some 92 then pure 92
  else if ch = some 117 then parseUnicode
  else if ch = some q then pure q
  else lexerError ch

def parseTrue : Parser Datum := do
  consumeChar 114
  consumeChar 117
  consumeChar 101
  pure (.boolean true)

def parseFalse : Parser Datum := do
  consumeChar 97
  consumeChar 108
  consumeChar 115
  consumeChar 101
  pure (.boolean false)

def parseNull : Parser Datum := do
  consumeChar 117
  consumeChar 108
  consumeChar 108
  pure .null

/-- The loop of `mk_atom`: none for a symbol, else whether there is a point or an exponent. -/
def atomLoop : Text → Bool → Option Bool
  | [], hasDecPoint => some hasDecPoint
  | c :: p, hasDecPoint =>
    if 48 ≤ c ∧ c ≤ 57 then atomLoop p hasDecPoint
    else if c = 46 then if hasDecPoint then none else atomLoop p true
    else if c = 101 ∨ c = 69 then
      match p with
      | [] => none
      | sign :: p => if sign = 45 ∨ sign = 43 ∨ 48 ≤ sign ∧ sign ≤ 57 then atomLoop p true else none
    else none

/-- A number with a point or an exponent is given by its text. -/
def atomOf (q : Text) : Option Bool → Datum
  | some true => .real q
  | some false => .integer (StrUtil.atol q)
  | none => .symbol (StrUtil.strTolower q)

def mkAtom (q : Text) : Datum :=
  let unsigned := if q.head? = some 45 ∨ q.head? = some 43 then q.tail else q
  let digits := if unsigned.head? = some 46 then unsigned.tail else unsigned
  match digits with
  | [] => atomOf q none
  | c :: p => atomOf q (if 48 ≤ c ∧ c ≤ 57 then atomLoop p (decide (unsigned.head? = some 46)) else none)

def stringToNumber (str : Text) : Except Error Datum :=
  match mkAtom str with
  | .integer n => .ok (.integer n)
  | .real text => .ok (.real text)
  | _ => .error (.message (ascii "string->xxx: not a xxx"))

def numberChars : Text := ascii "-+0123456789.eE"

/-- The loop of `parse-number`. A character that was only peeked at is put back, the end is not. -/
def numberLoop (res : Text) (s : Port) : Except Error (Datum × Port) :=
  match _h : inchar s with
  | (some ch,r) =>
    if ch ∈ numberChars then numberLoop (res ++ [ch]) r else (stringToNumber res).map (fun d => (d,s))
  | (none,r) => (stringToNumber res).map (fun d => (d,r))
termination_by s.length
decreasing_by exact length_inchar_lt _h

def parseNumber (ch : UInt8) : Parser Datum := numberLoop [ch]

def stringAppend (res : Datum) (s : Text) : Except Error Datum :=
  match res with
  | .string t => .ok (.string (t ++ s))
  | _ => .error .wrongType

theorem forward_lexerError {α : Type} (ch : Option UInt8) : (lexerError ch : Parser α).Forward := by
  cases ch with
  | none => exact Consumer.forward_throw _
  | some c => exact Consumer.forward_throw _

theorem forward_hexCharValue (ch : Option UInt8) : (hexCharValue ch).Forward := by
  cases ch with
  | none => exact Consumer.forward_throw _
  | some c =>
    have hpure : ∀ n : ℕ, (pure n : Parser ℕ).Forward := fun n => Consumer.forward_pure n
    exact .ite (hpure _) (.ite (hpure _) (.ite (hpure _) (forward_lexerError _)))

theorem forward_parseUnicode : parseUnicode.Forward := by
  refine forward_readChar.bind (fun a => (forward_hexCharValue a).bind (fun a => ?_))
  refine forward_readChar.bind (fun b => (forward_hexCharValue b).bind (fun b => ?_))
  refine forward_readChar.bind (fun c => (forward_hexCharValue c).bind (fun c => ?_))
  exact forward_readChar.bind (fun d => (forward_hexCharValue d).bind (fun d => Consumer.forward_pure _))

theorem forward_parseEscape (q : UInt8) : (parseEscape q).Forward := by
  refine forward_readChar.bind (fun ch => ?_)
  have hpure : ∀ c : UInt8, (pure c : Parser UInt8).Forward := fun c => Consumer.forward_pure c
  exact .ite (hpure _) (.ite (hpure _) (.ite (hpure _) (.ite (hpure _) (.ite (hpure _) (.ite (hpure _)
    (.ite forward_parseUnicode (.ite (hpure _) (forward_lexerError ch))))))))

/-- The loop of `parse-string`. After an escape it goes on with `string-append` instead of a string. -/
def stringLoop (q : UInt8) (res : Datum) (s : Port) : Except Error (Datum × Port) :=
  match _h : inchar s with
  | (some ch,r) =>
    if ch = 92 then
      match _hescape : parseEscape q r with
      | .ok (_,r) => stringLoop q .procedure r
      | .error e => .error e
    else if ch = q then .ok (res,r)
    else if charControl ch then lexerError (some ch) r
    else
      match stringAppend res [ch] with
      | .ok res => stringLoop q res r
      | .error e => .error e
  | (none,_) => .error .wrongType
termination_by s.length
decreasing_by
  · exact (forward_parseEscape q _ _ _ _hescape).trans_lt (length_inchar_lt _h)
  · exact length_inchar_lt _h

def parseString (q : UInt8) : Parser Datum := stringLoop q (.string [])

def openBrace : Datum := .symbol (ascii "open-brace")

def closeBrace : Datum := .symbol (ascii "close-brace")

def openCurly : Datum := .symbol (ascii "open-curly")

def closeCurly : Datum := .symbol (ascii "close-curly")

def colon : Datum := .symbol (ascii "colon")

def comma : Datum := .symbol (ascii "comma")

def stringToSymbol (s : Text) : Datum := .symbol (s.takeWhile (fun c => decide (c ≠ 0)))

def tokenOf (ch : UInt8) : Parser Datum :=
  if ch = 34 ∨ ch = 39 then parseString ch
  else if ch = 45 ∨ 48 ≤ ch ∧ ch ≤ 57 then parseNumber ch
  else if ch = 91 then pure openBrace
  else if ch = 93 then pure closeBrace
  else if ch = 123 then pure openCurly
  else if ch = 125 then pure closeCurly
  else if ch = 58 then pure colon
  else if ch = 44 then pure comma
  else if ch = 116 then parseTrue
  else if ch = 102 then parseFalse
  else if ch = 110 then parseNull
  else lexerError (some ch)

def nextToken (s : Port) : Except Error (Datum × Port) :=
  match _h : inchar s with
  | (some ch,r) => if ch ∈ ascii " \n\t\r" then nextToken r else tokenOf ch r
  | (none,r) => .ok (.eof,r)
termination_by s.length
decreasing_by exact length_inchar_lt _h

theorem forward_consumeChar (expect : UInt8) : (consumeChar expect).Forward :=
  forward_readChar.bind (fun ch => .ite (Consumer.forward_pure _) (forward_lexerError ch))

theorem rest_of_map {e : Except Error Datum} {s r : Port} {d : Datum} (h : e.map (fun d => (d,s)) = .ok (d,r)) :
    e = .ok d ∧ r = s := by
  cases e with
  | error => cases h
  | ok d' =>
    cases h
    exact ⟨rfl,rfl⟩

theorem forward_parseNumber (ch : UInt8) : (parseNumber ch).Forward := by
  have hloop : ∀ res s d r, numberLoop res s = .ok (d,r) → r.length ≤ s.length := by
    intro res s
    fun_induction numberLoop res s with
    | case1 res s ch s' h hch ih => exact fun d r hr => (ih d r hr).trans (length_inchar_lt h).le
    | case2 res s ch s' h hch =>
      intro d r hr
      rw [(rest_of_map hr).2]
    | case3 res s s' h =>
      intro d r hr
      have hle := length_inchar_le s
      rw [h] at hle
      rwa [(rest_of_map hr).2]
  exact fun s d r => hloop [ch] s d r

theorem forward_parseString (q : UInt8) : (parseString q).Forward := by
  have hloop : ∀ res s d r, stringLoop q res s = .ok (d,r) → r.length ≤ s.length := by
    intro res s
    fun_induction stringLoop q res s with
    | case1 res s s' c s'' hescape hinchar ih =>
      exact fun d r hr => (ih d r hr).trans ((forward_parseEscape q _ _ _ hescape).trans (length_inchar_lt hinchar).le)
    | case2 res s s' e hescape hinchar =>
      intro d r hr
      cases hr
    | case3 res s s' hinchar hne =>
      intro d r hr
      cases hr
      exact (length_inchar_lt hinchar).le
    | case4 res s ch s' hinchar hne hq hcontrol => exact fun d r hr => by cases hr
    | case5 res s ch s' hinchar hne hq hcontrol res' happend ih =>
      exact fun d r hr => (ih d r hr).trans (length_inchar_lt hinchar).le
    | case6 res s ch s' hinchar hne hq hcontrol e happend => exact fun d r hr => by cases hr
    | case7 res s s' hinchar => exact fun d r hr => by cases hr
  exact fun s d r => hloop (.string []) s d r

theorem forward_tokenOf (ch : UInt8) : (tokenOf ch).Forward := by
  have hpure : ∀ d : Datum, (pure d : Parser Datum).Forward := fun d => Consumer.forward_pure d
  have htrue : parseTrue.Forward :=
    (forward_consumeChar _).bind (fun _ => (forward_consumeChar _).bind (fun _ => (forward_consumeChar _).bind
      (fun _ => hpure _)))
  have hfalse : parseFalse.Forward :=
    (forward_consumeChar _).bind (fun _ => (forward_consumeChar _).bind (fun _ => (forward_consumeChar _).bind
      (fun _ => (forward_consumeChar _).bind (fun _ => hpure _))))
  have hnull : parseNull.Forward :=
    (forward_consumeChar _).bind (fun _ => (forward_consumeChar _).bind (fun _ => (forward_consumeChar _).bind
      (fun _ => hpure _)))
  exact .ite (forward_parseString ch) (.ite (forward_parseNumber ch) (.ite (hpure _) (.ite (hpure _) (.ite (hpure _)
    (.ite (hpure _) (.ite (hpure _) (.ite (hpure _) (.ite htrue (.ite hfalse (.ite hnull
      (forward_lexerError _)))))))))))

theorem nextToken_le {s r : Port} {d : Datum} (h : nextToken s = .ok (d,r)) :
    r.length ≤ s.length ∧ (d ≠ .eof → r.length < s.length) := by
  fun_induction nextToken s with
  | case1 s ch s' hinchar hblank ih =>
    have hlt := length_inchar_lt hinchar
    exact ⟨(ih h).1.trans hlt.le,fun _ => (ih h).1.trans_lt hlt⟩
  | case2 s ch s' hinchar hblank =>
    have hlt := (forward_tokenOf ch _ _ _ h).trans_lt (length_inchar_lt hinchar)
    exact ⟨hlt.le,fun _ => hlt⟩
  | case3 s s' hinchar =>
    cases h
    have hle := length_inchar_le s
    rw [hinchar] at hle
    exact ⟨hle,fun hno => absurd rfl hno⟩

/-! ## The parser -/

abbrev Parsed (s : Port) := {p : Datum × Port // p.2.length ≤ s.length}

def weight (token : Datum) : ℕ := if token = openBrace ∨ token = openCurly then 2 else 0

/-- After a token less is asked for. -/
theorem token_decreases {s r : Port} {token : Datum} (h : nextToken s = .ok (token,r)) {n : ℕ} (hn : 0 < n) :
    Prod.Lex (· < ·) (· < ·) (r.length,weight token) (s.length,n) := by
  by_cases hopen : token = openBrace ∨ token = openCurly
  · have hne : token ≠ .eof := by rcases hopen with rfl | rfl <;> decide
    exact Prod.Lex.left _ _ ((nextToken_le h).2 hne)
  · rw [weight,if_neg hopen]
    rcases Nat.lt_or_eq_of_le (nextToken_le h).1 with hlt | heq
    · exact Prod.Lex.left _ _ hlt
    · rw [heq]
      exact Prod.Lex.right _ hn

theorem comma_decreases {s r s' r' : Port} {token next : Datum} (h : nextToken s = .ok (token,r))
    (hle : s'.length ≤ r.length) (h' : nextToken s' = .ok (next,r')) (hcomma : next = comma) {n m : ℕ} :
    Prod.Lex (· < ·) (· < ·) (r'.length,m) (s.length,n) := by
  have hne : next ≠ .eof := by rw [hcomma]; decide
  exact Prod.Lex.left _ _ (((nextToken_le h').2 hne).trans_le (hle.trans (nextToken_le h).1))

-- `next` is not bound where `parse-map` meets a key that is no string
mutual
def parseList (res : List Datum) (s : Port) : Except Error (Parsed s) :=
  match h : nextToken s with
  | .error e => .error e
  | .ok (token,r) =>
    if token = closeBrace then .ok ⟨(.ofList res.reverse,r),(nextToken_le h).1⟩
    else
      match parseObjectHelper token r with
      | .error e => .error e
      | .ok o =>
        match h' : nextToken o.1.2 with
        | .error e => .error e
        | .ok (next,r') =>
          if next = closeBrace then
            .ok ⟨(.ofList (o.1.1 :: res).reverse,r'),((nextToken_le h').1.trans o.2).trans (nextToken_le h).1⟩
          else if _hcomma : next = comma then
            match parseList (o.1.1 :: res) r' with
            | .error e => .error e
            | .ok l => .ok ⟨l.1,((l.2.trans (nextToken_le h').1).trans o.2).trans (nextToken_le h).1⟩
          else .error (parseErrorOf next)
termination_by (s.length,1)
decreasing_by
  · exact token_decreases h Nat.one_pos
  · exact comma_decreases h o.2 h' _hcomma
def parseMap (res : List Datum) (s : Port) : Except Error (Parsed s) :=
  match h : nextToken s with
  | .error e => .error e
  | .ok (token,r) =>
    if token = closeCurly then .ok ⟨(.ofList res.reverse,r),(nextToken_le h).1⟩
    else
      match token with
      | .string key =>
        match parseMapValue r with
        | .error e => .error e
        | .ok o =>
          match h' : nextToken o.1.2 with
          | .error e => .error e
          | .ok (next,r') =>
            if next = closeCurly then
              .ok ⟨(.ofList (.pair (stringToSymbol key) o.1.1 :: res).reverse,r'),
                ((nextToken_le h').1.trans o.2).trans (nextToken_le h).1⟩
            else if _hcomma : next = comma then
              match parseMap (.pair (stringToSymbol key) o.1.1 :: res) r' with
              | .error e => .error e
              | .ok l => .ok ⟨l.1,((l.2.trans (nextToken_le h').1).trans o.2).trans (nextToken_le h).1⟩
            else .error (parseErrorOf next)
      | _ => .error (.unbound "next")
termination_by (s.length,1)
decreasing_by
  · have hlt := (nextToken_le h).2 (fun hno => by cases hno)
    exact Prod.Lex.left _ _ hlt
  · exact comma_decreases h o.2 h' _hcomma
def parseMapValue (s : Port) : Except Error (Parsed s) :=
  match h : nextToken s with
  | .error e => .error e
  | .ok (token,r) =>
    if _hcolon : token = colon then
      match parseObject r with
      | .error e => .error e
      | .ok o => .ok ⟨o.1,o.2.trans (nextToken_le h).1⟩
    else .error (parseErrorOf token)
termination_by (s.length,1)
decreasing_by
  have hlt := (nextToken_le h).2 (by rw [_hcolon]; decide)
  exact Prod.Lex.left _ _ hlt
def parseObjectHelper (token : Datum) (s : Port) : Except Error (Parsed s) :=
  if _hopen : token = openBrace then parseList [.symbol (ascii "list")] s
  else if _hcurly : token = openCurly then parseMap [.symbol (ascii "map")] s
  else
    match token with
    | .null | .string _ | .integer _ | .real _ | .boolean _ => .ok ⟨(token,s),Nat.le_refl _⟩
    | _ => .error (parseErrorOf token)
termination_by (s.length,weight token)
decreasing_by
  · rw [_hopen]
    exact Prod.Lex.right _ (by decide)
  · rw [_hcurly]
    exact Prod.Lex.right _ (by decide)
def parseObject (s : Port) : Except Error (Parsed s) :=
  match h : nextToken s with
  | .error e => .error e
  | .ok (token,r) =>
    match parseObjectHelper token r with
    | .error e => .error e
    | .ok o => .ok ⟨o.1,o.2.trans (nextToken_le h).1⟩
termination_by (s.length,3)
decreasing_by exact token_decreases h (by decide)
end

/-! ## The generator -/

def doubleQuote (str : Text) : Text := [34] ++ str ++ [34]

def decimal (n : ℤ) : Text :=
  let digits := if n = 0 then [48] else (Nat.digits 10 n.natAbs).reverse.map (fun d => (48 + d).toUInt8)
  if n < 0 then 45 :: digits else digits

/-- `string-append` -/
def append : List Datum → Except Error Datum
  | [] => .ok (.string [])
  | d :: ds =>
    match d, append ds with
    | .string s, .ok (.string t) => .ok (.string (s ++ t))
    | _, _ => .error .wrongType

def symbolToString : Datum → Except Error Text
  | .symbol s => .ok s
  | _ => .error .wrongType

def separator : Datum → Except Error Datum
  | .string s => .ok (.string (if s.length > 0 then ascii ", " else []))
  | _ => .error .wrongType

-- `case` goes by the variable `tok`, if there is one; `printReal` is what is printed for a number that is no integer
mutual
def genString (printReal : Text → Text) (tok : Option Datum) : Datum → Except Error Datum
  | .pair _ cdr =>
    match tok with
    | none => .error (.unbound "tok")
    | some token =>
      if token = .symbol (ascii "map") then do
        append [.string (ascii "\x7b"),← genMap printReal tok cdr,.string (ascii "\x7d")]
      else if token = .symbol (ascii "list") then do
        append [.string (ascii "["),← genList printReal tok cdr,.string (ascii "]")]
      else .ok .null
  | .boolean b => .ok (.string (ascii (if b then "true" else "false")))
  | .integer n => .ok (.string (decimal n))
  | .real text => .ok (.string (printReal text))
  | .string s => .ok (.string (doubleQuote s))
  | .null => .ok (.string (ascii "null"))
  | _ => .ok .null
def genMap (printReal : Text → Text) (tok : Option Datum) : Datum → Except Error Datum
  | .null => .ok (.string [])
  | .pair (.pair key value) cdr => do
    let s ← genMap printReal tok cdr
    let key ← symbolToString key
    append [.string (doubleQuote key),.string (ascii ":"),← genString printReal tok value,← separator s,s]
  | _ => .error .wrongType
def genList (printReal : Text → Text) (tok : Option Datum) : Datum → Except Error Datum
  | .null => .ok (.string [])
  | .pair o cdr => do
    let s ← genList printReal tok cdr
    append [← genString printReal tok o,← separator s,s]
  | _ => .error .wrongType
end

/-- No `tok` is defined. -/
def jsonGenString (printReal : Text → Text) : Datum → Except Error Datum := genString printReal none

/-- What `with-input-from-string` is given: a string, and what reads from its port. -/
abbrev WithInput := Text → (Port → Except Error (Datum × Port)) → Except Error Datum

/-- `with-input-from-string` comes from elsewhere, if it does. -/
def jsonParseString (withInputFromString : Option WithInput) (str : Text) : Except Error Datum :=
  match withInputFromString with
  | none => .error (.unbound "with-input-from-string")
  | some withInput => withInput str (fun s => (parseObject s).map Subtype.val)

end Edelib.Json
