import Edelib.Sslib.Json

/-! # What comes back from a JSON text

The generator fails on every map and list, since it looks at a variable that is not there. A string comes back
if there is nothing in it that the parser takes for something else.
-/
namespace Edelib.Json
open Foundation

/-! ## Objects -/

mutual
inductive Object
  | null
  | boolean (b : Bool)
  | integer (n : ℤ) (h : -2 ^ 63 ≤ n ∧ n < 2 ^ 63)
  | string (s : Text)
  | list (items : Items)
  | map (entries : Entries)
inductive Items
  | nil
  | cons (o : Object) (items : Items)
inductive Entries
  | nil
  | cons (key : Text) (value : Object) (entries : Entries)
end

mutual
def Object.datum : Object → Datum
  | .null => .null
  | .boolean b => .boolean b
  | .integer n _ => .integer n
  | .string s => .string s
  | .list items => .pair (.symbol (ascii "list")) items.datum
  | .map entries => .pair (.symbol (ascii "map")) entries.datum
def Items.datum : Items → Datum
  | .nil => .null
  | .cons o items => .pair o.datum items.datum
def Entries.datum : Entries → Datum
  | .nil => .null
  | .cons key value entries => .pair (.pair (.symbol key) value.datum) entries.datum
end

/-- Neither a control character, nor a quote or a backslash, nor what is read as the end. -/
def PlainChar (c : UInt8) : Prop := charControl c = false ∧ c ≠ 34 ∧ c ≠ 92 ∧ c ≠ 255

instance : DecidablePred PlainChar := fun _ => inferInstanceAs (Decidable (_ ∧ _))

def Object.Plain : Object → Prop
  | .null => True
  | .boolean _ => True
  | .integer _ _ => True
  | .string s => ∀ c ∈ s, PlainChar c
  | .list _ => False
  | .map _ => False

/-- `with-input-from-string` calls the procedure with the string as the port, and returns what it returns. -/
def ReadsFrom (withInput : WithInput) : Prop := ∀ str thunk, withInput str thunk = (thunk str).map Prod.fst

def Returns (printReal : Text → Text) (withInputFromString : Option WithInput) (obj : Object) : Prop :=
  ∃ str, jsonGenString printReal obj.datum = .ok (.string str) ∧ jsonParseString withInputFromString str = .ok obj.datum

/-! ## Strings -/

variable {q c : UInt8} {s r : Port} {res : Datum} {t : Text}

theorem inchar_cons (h : c ≠ 0) (h' : c ≠ 255) : inchar (c :: s) = (some c,s) := by
  rw [inchar,if_neg h,if_neg h']

theorem of_inchar (h : inchar s = (some c,r)) : s = c :: r ∧ c ≠ 255 := by
  cases s with
  | nil => cases h
  | cons c' s =>
    rw [inchar] at h
    split_ifs at h with h0 h255
    · cases h
    · cases h
    · cases h
      exact ⟨rfl,h255⟩

theorem stringLoop_char (h : inchar s = (some c,r)) (hescape : c ≠ 92) (hq : c ≠ q) (hcontrol : charControl c = false) :
    stringLoop q (.string t) s = stringLoop q (.string (t ++ [c])) r := by
  rw [stringLoop]
  split
  · rename_i c' r' h'
    cases h.symm.trans h'
    rw [if_neg hescape,if_neg hq,if_neg (by rw [hcontrol]; decide)]
    rfl
  · rename_i h'
    cases h.symm.trans h'

theorem stringLoop_quote (h : inchar s = (some q,r)) (hescape : q ≠ 92) : stringLoop q res s = .ok (res,r) := by
  rw [stringLoop]
  split
  · rename_i c' r' h'
    cases h.symm.trans h'
    rw [if_neg hescape,if_pos rfl]
  · rename_i h'
    cases h.symm.trans h'

theorem ne_zero_of_plain (h : PlainChar c) : c ≠ 0 := by
  rintro rfl
  exact absurd h.1 (by decide)

/-- A plain string is read up to its quote. -/
theorem parseString_plain (hs : ∀ c ∈ s, PlainChar c) : parseString 34 (s ++ 34 :: r) = .ok (.string s,r) := by
  have hloop : ∀ t, stringLoop 34 (.string t) (s ++ 34 :: r) = .ok (.string (t ++ s),r) := by
    induction s with
    | nil =>
      intro t
      rw [List.nil_append,stringLoop_quote (inchar_cons (by decide) (by decide)) (by decide),List.append_nil]
    | cons c s ih =>
      intro t
      obtain ⟨hc,hs⟩ := List.forall_mem_cons.mp hs
      rw [List.cons_append,stringLoop_char (inchar_cons (ne_zero_of_plain hc) hc.2.2.2) hc.2.2.1 hc.2.1 hc.1,ih hs,
        List.append_assoc]
      rfl
  exact hloop []

/-- A string that was read was plain up to the quote, and after an escape there is no string. -/
theorem of_stringLoop {d : Datum} (h : stringLoop 34 res s = .ok (d,r)) :
    (res = .procedure → d = .procedure) ∧ ∀ t, res = .string t →
      d = .procedure ∨ ∃ u, (∀ c ∈ u, PlainChar c) ∧ s = u ++ 34 :: r ∧ d = .string (t ++ u) := by
  fun_induction stringLoop 34 res s with
  | case1 res s s' c s'' hescape hinchar ih => exact ⟨fun _ => (ih h).1 rfl,fun _ _ => .inl ((ih h).1 rfl)⟩
  | case2 res s s' e hescape hinchar => cases h
  | case3 res s s' hinchar hne =>
    cases h
    obtain ⟨rfl,-⟩ := of_inchar hinchar
    exact ⟨id,fun t ht => .inr ⟨[],fun c hc => absurd hc List.not_mem_nil,rfl,by rw [List.append_nil,ht]⟩⟩
  | case4 res s ch s' hinchar hne hq hcontrol => cases h
  | case5 res s ch s' hinchar hne hq hcontrol res' happend ih =>
    obtain ⟨rfl,h255⟩ := of_inchar hinchar
    cases res with
    | string t =>
      cases happend
      refine ⟨(fun hno => by cases hno),fun t' ht' => ?_⟩
      cases ht'
      rcases (ih h).2 _ rfl with hd | ⟨u,hu,rfl,hd⟩
      · exact .inl hd
      · have hch : PlainChar ch := ⟨by simpa using hcontrol,hq,hne,h255⟩
        exact .inr ⟨ch :: u,List.forall_mem_cons.mpr ⟨hch,hu⟩,rfl,by rw [hd,List.append_assoc]; rfl⟩
    | _ => cases happend
  | case6 res s ch s' hinchar hne hq hcontrol e happend => cases h
  | case7 res s s' hinchar => cases h

/-! ## Tokens -/

theorem nextToken_eq (h : inchar s = (some c,r)) (hc : c ∉ ascii " \n\t\r") : nextToken s = tokenOf c r := by
  rw [nextToken]
  split
  · rename_i c' r' h'
    cases h.symm.trans h'
    rw [if_neg hc]
  · rename_i h'
    cases h.symm.trans h'

def IsValue (d : Datum) : Prop :=
  d = .null ∨ (∃ b, d = .boolean b) ∨ (∃ n, d = .integer n) ∨ (∃ t, d = .real t) ∨ ∃ t, d = .string t

theorem parseObjectHelper_value {d : Datum} (hd : IsValue d) :
    (parseObjectHelper d s).map Subtype.val = .ok (d,s) := by
  rw [parseObjectHelper]
  rcases hd with rfl | ⟨b,rfl⟩ | ⟨n,rfl⟩ | ⟨t,rfl⟩ | ⟨t,rfl⟩ <;> rfl

theorem parseObject_of_token {d : Datum} (h : nextToken s = .ok (d,r)) :
    (parseObject s).map Subtype.val = (parseObjectHelper d r).map Subtype.val := by
  rw [parseObject]
  split
  · rename_i e h'
    cases h.symm.trans h'
  · rename_i d' r' h'
    cases h.symm.trans h'
    cases parseObjectHelper d r <;> rfl

theorem parseObject_of_error {e : Error} (h : nextToken s = .error e) : parseObject s = .error e := by
  rw [parseObject]
  split
  · rename_i e' h'
    cases h.symm.trans h'
    rfl
  · rename_i d' r' h'
    cases h.symm.trans h'

/-- A value is parsed as the token that it is. -/
theorem parseObject_value {d : Datum} (h : nextToken s = .ok (d,r)) (hd : IsValue d) :
    (parseObject s).map Subtype.val = .ok (d,r) := by
  rw [parseObject_of_token h,parseObjectHelper_value hd]

theorem parseObject_procedure (h : nextToken s = .ok (.procedure,r)) :
    (parseObject s).map Subtype.val = .error (parseErrorOf .procedure) := by
  rw [parseObject_of_token h,parseObjectHelper]
  rfl

/-! ## Numbers -/

def digitsText (ds : List ℕ) : Text := ds.map (fun d => (48 + d).toUInt8)

theorem toNat_digit {d : ℕ} (hd : d < 10) : ((48 + d).toUInt8).toNat = 48 + d := by
  rw [Nat.toUInt8,UInt8.toNat_ofNat']
  omega

theorem digit_of_mem {ds : List ℕ} (hds : ∀ d ∈ ds, d < 10) (hc : c ∈ digitsText ds) : 48 ≤ c ∧ c ≤ 57 := by
  obtain ⟨d,hd,rfl⟩ := List.mem_map.mp hc
  have := hds d hd
  rw [UInt8.le_iff_toNat_le,UInt8.le_iff_toNat_le,toNat_digit this]
  exact ⟨Nat.le_add_right 48 d,by change 48 + d ≤ 57; omega⟩

theorem value_digitsText {ds : List ℕ} (hds : ∀ d ∈ ds, d < 10) :
    (digitsText ds).foldl (fun n c => 10 * n + (c.toNat - 48)) 0 = Numeral.value 10 ds := by
  rw [digitsText,List.foldl_map,Numeral.value]
  refine List.foldl_ext _ _ _ (fun n d hd => ?_)
  rw [toNat_digit (hds d hd),Nat.add_sub_cancel_left,Numeral.push]

/-- The text of a number is digits, after a sign if it is negative. -/
theorem decimal_eq (n : ℤ) : ∃ d ds, (∀ e ∈ d :: ds, e < 10) ∧ Numeral.value 10 (d :: ds) = n.natAbs ∧
    decimal n = (if n < 0 then [45] else []) ++ digitsText (d :: ds) := by
  by_cases hn : n = 0
  · rw [hn]
    exact ⟨0,[],by decide,rfl,rfl⟩
  · have hne : (Nat.digits 10 n.natAbs).reverse ≠ [] := by
      rw [ne_eq,List.reverse_eq_nil_iff]
      exact Nat.digits_ne_nil_iff_ne_zero.mpr (Int.natAbs_ne_zero.mpr hn)
    obtain ⟨d,ds,hds⟩ := List.exists_cons_of_ne_nil hne
    refine ⟨d,ds,fun e he => ?_,?_,?_⟩
    · rw [← hds] at he
      exact Nat.digits_lt_base (by decide) (List.mem_reverse.mp he)
    · rw [← hds,Numeral.value_reverse_digits]
    · rw [decimal,if_neg hn,hds]
      split_ifs <;> rfl

/-- What a digit is not. -/
theorem digit_ne (h : 48 ≤ c ∧ c ≤ 57) : StrUtil.isspace c = false ∧ c ≠ 45 ∧ c ≠ 43 ∧ c ≠ 46 := by
  have hlow : 48 ≤ c.toNat := h.1
  simp only [StrUtil.isspace,← UInt8.toNat_inj,UInt8.reduceToNat,ne_eq,Bool.or_eq_false_iff,beq_eq_false_iff_ne]
  omega

theorem atol_digitsText {d : ℕ} {ds : List ℕ} (hds : ∀ e ∈ d :: ds, e < 10) :
    StrUtil.atol (45 :: digitsText (d :: ds)) = max (-2 ^ 63) (-(Numeral.value 10 (d :: ds) : ℤ)) ∧
    StrUtil.atol (digitsText (d :: ds)) = min (2 ^ 63 - 1) (Numeral.value 10 (d :: ds) : ℤ) := by
  have htake : (digitsText (d :: ds)).takeWhile (fun c => decide (48 ≤ c ∧ c ≤ 57)) = digitsText (d :: ds) :=
    List.takeWhile_eq_self_iff.mpr (fun c hc => decide_eq_true (digit_of_mem hds hc))
  have hhead := digit_ne (digit_of_mem hds (List.mem_cons_self : (48 + d).toUInt8 ∈ digitsText (d :: ds)))
  have hdrop : (digitsText (d :: ds)).dropWhile StrUtil.isspace = digitsText (d :: ds) :=
    List.dropWhile_cons_of_neg (by rw [hhead.1]; decide)
  have hminus : (45 :: digitsText (d :: ds)).dropWhile StrUtil.isspace = 45 :: digitsText (d :: ds) :=
    List.dropWhile_cons_of_neg (by decide)
  have hsign : (digitsText (d :: ds)).head? ≠ some 45 ∧ (digitsText (d :: ds)).head? ≠ some 43 :=
    ⟨fun h => hhead.2.1 (Option.some.inj h),fun h => hhead.2.2.1 (Option.some.inj h)⟩
  constructor
  · simp only [StrUtil.atol,hminus,List.head?_cons,true_or,if_true,List.tail_cons,htake,value_digitsText hds]
  · simp only [StrUtil.atol,hdrop,hsign,or_self,if_false,htake,value_digitsText hds]

/-- The number comes back from its text, if it fits. -/
theorem atol_decimal {n : ℤ} (hn : -2 ^ 63 ≤ n ∧ n < 2 ^ 63) : StrUtil.atol (decimal n) = n := by
  obtain ⟨d,ds,hds,hvalue,htext⟩ := decimal_eq n
  rw [htext]
  split_ifs with hneg
  · rw [List.singleton_append,(atol_digitsText hds).1,hvalue]
    omega
  · rw [List.nil_append,(atol_digitsText hds).2,hvalue]
    omega

theorem atomLoop_digits {p : Text} (hp : ∀ c ∈ p, 48 ≤ c ∧ c ≤ 57) : atomLoop p false = some false := by
  induction p with
  | nil => rfl
  | cons c p ih =>
    obtain ⟨hc,hp⟩ := List.forall_mem_cons.mp hp
    rw [atomLoop.eq_def]
    dsimp only
    rw [if_pos hc,ih hp]

theorem mkAtom_decimal {n : ℤ} (hn : -2 ^ 63 ≤ n ∧ n < 2 ^ 63) : mkAtom (decimal n) = .integer n := by
  obtain ⟨d,ds,hds,-,htext⟩ := decimal_eq n
  have hmem : (48 + d).toUInt8 ∈ digitsText (d :: ds) := List.mem_cons_self
  have hhead := digit_ne (digit_of_mem hds hmem)
  have htail : ∀ c ∈ digitsText ds, 48 ≤ c ∧ c ≤ 57 := fun c hc => digit_of_mem hds (List.mem_cons_of_mem _ hc)
  have hunsigned : (if (decimal n).head? = some 45 ∨ (decimal n).head? = some 43 then (decimal n).tail else decimal n) =
      digitsText (d :: ds) := by
    rw [htext]
    split_ifs with hneg hsign hsign
    · rfl
    · exact absurd (.inl rfl) hsign
    · rcases hsign with h | h
      · exact absurd (Option.some.inj h) hhead.2.1
      · exact absurd (Option.some.inj h) hhead.2.2.1
    · rfl
  have hpoint : (digitsText (d :: ds)).head? ≠ some 46 := fun h => hhead.2.2.2 (Option.some.inj h)
  rw [mkAtom]
  simp only [hunsigned,hpoint,if_false,decide_false]
  change atomOf (decimal n) (if 48 ≤ (48 + d).toUInt8 ∧ (48 + d).toUInt8 ≤ 57 then atomLoop (digitsText ds) false else none) = _
  rw [if_pos (digit_of_mem hds hmem),atomLoop_digits htail]
  exact congrArg Datum.integer (atol_decimal hn)

theorem numberLoop_char {res : Text} (h : inchar s = (some c,r)) (hc : c ∈ numberChars) :
    numberLoop res s = numberLoop (res ++ [c]) r := by
  rw [numberLoop]
  split
  · rename_i c' r' h'
    cases h.symm.trans h'
    rw [if_pos hc]
  · rename_i h'
    cases h.symm.trans h'

theorem numberLoop_nil {res : Text} : numberLoop res [] = (stringToNumber res).map (fun d => (d,[])) := by
  rw [numberLoop]
  split
  · rename_i h'
    cases h'
  · rename_i h'
    cases h'
    rfl

theorem ne_end_of_number (hc : c ∈ numberChars) : c ≠ 0 ∧ c ≠ 255 := by
  have hall : ∀ e ∈ numberChars, e ≠ 0 ∧ e ≠ 255 := by decide +kernel
  exact hall c hc

theorem numberLoop_all {res : Text} (hs : ∀ c ∈ s, c ∈ numberChars) :
    numberLoop res s = (stringToNumber (res ++ s)).map (fun d => (d,[])) := by
  induction s generalizing res with
  | nil => rw [numberLoop_nil,List.append_nil]
  | cons c s ih =>
    obtain ⟨hc,hs⟩ := List.forall_mem_cons.mp hs
    obtain ⟨h0,h255⟩ := ne_end_of_number hc
    rw [numberLoop_char (inchar_cons h0 h255) hc,ih hs,List.append_assoc]
    rfl

theorem mem_numberChars {ds : List ℕ} (hds : ∀ d ∈ ds, d < 10) (hc : c ∈ digitsText ds) : c ∈ numberChars := by
  have hall : ∀ d < 10, (48 + d).toUInt8 ∈ numberChars := by decide
  obtain ⟨d,hd,rfl⟩ := List.mem_map.mp hc
  exact hall d (hds d hd)

/-- The text of a number is read to its end. -/
theorem nextToken_decimal {n : ℤ} (hn : -2 ^ 63 ≤ n ∧ n < 2 ^ 63) : nextToken (decimal n) = .ok (.integer n,[]) := by
  have hnumber : ∀ c s, decimal n = c :: s → c = 45 ∨ 48 ≤ c ∧ c ≤ 57 → (∀ e ∈ c :: s, e ∈ numberChars) →
      nextToken (decimal n) = .ok (.integer n,[]) := by
    intro c s htext hc hall
    obtain ⟨hfirst,hs⟩ := List.forall_mem_cons.mp hall
    obtain ⟨h0,h255⟩ := ne_end_of_number hfirst
    have hblank : c ∉ ascii " \n\t\r" := by
      have hno : ∀ e ∈ numberChars, e ∉ ascii " \n\t\r" := by decide +kernel
      exact hno c hfirst
    have hquote : ¬ (c = 34 ∨ c = 39) := by
      have hno : ∀ e ∈ numberChars, ¬ (e = 34 ∨ e = 39) := by decide +kernel
      exact hno c hfirst
    rw [htext,nextToken_eq (inchar_cons h0 h255) hblank,tokenOf,if_neg hquote,if_pos hc,parseNumber,numberLoop_all hs,
      List.singleton_append,← htext,stringToNumber,mkAtom_decimal hn]
    rfl
  obtain ⟨d,ds,hds,-,htext⟩ := decimal_eq n
  have hdigits : ∀ c ∈ digitsText (d :: ds), c ∈ numberChars := fun c hc => mem_numberChars hds hc
  by_cases hneg : n < 0
  · rw [if_pos hneg] at htext
    exact hnumber 45 _ htext (.inl rfl) (List.forall_mem_cons.mpr ⟨by decide,hdigits⟩)
  · rw [if_neg hneg] at htext
    exact hnumber _ _ htext (.inr (digit_of_mem hds List.mem_cons_self)) hdigits

/-! ## Objects that come back -/

variable {printReal : Text → Text} {withInput : WithInput}

theorem jsonParseString_eq (hw : ReadsFrom withInput) (str : Text) :
    jsonParseString (some withInput) str = ((parseObject str).map Subtype.val).map Prod.fst := hw str _

/-- What is printed for a value and read as a token of its own comes back. -/
theorem returns_of_token {obj : Object} {str : Text} (hw : ReadsFrom withInput)
    (hgen : jsonGenString printReal obj.datum = .ok (.string str)) (htoken : nextToken str = .ok (obj.datum,[]))
    (hvalue : IsValue obj.datum) : Returns printReal (some withInput) obj := by
  refine ⟨str,hgen,?_⟩
  rw [jsonParseString_eq hw,parseObject_value htoken hvalue]
  rfl

theorem nextToken_string (hs : ∀ c ∈ s, PlainChar c) : nextToken (doubleQuote s) = .ok (.string s,[]) := by
  have hfirst : inchar (doubleQuote s) = (some 34,s ++ [34]) := rfl
  rw [nextToken_eq hfirst (by decide),tokenOf,if_pos (.inl rfl),parseString_plain hs]

theorem returns_of_plain {obj : Object} (hw : ReadsFrom withInput) (h : obj.Plain) :
    Returns printReal (some withInput) obj := by
  cases obj with
  | null =>
    refine returns_of_token hw rfl ?_ (.inl rfl)
    exact (nextToken_eq (c := 110) rfl (by decide)).trans rfl
  | boolean b =>
    refine returns_of_token hw rfl ?_ (.inr (.inl ⟨b,rfl⟩))
    cases b with
    | true => exact (nextToken_eq (c := 116) rfl (by decide)).trans rfl
    | false => exact (nextToken_eq (c := 102) rfl (by decide)).trans rfl
  | integer n hn => exact returns_of_token hw rfl (nextToken_decimal hn) (.inr (.inr (.inl ⟨n,rfl⟩)))
  | string s => exact returns_of_token hw rfl (nextToken_string h) (.inr (.inr (.inr (.inr ⟨s,rfl⟩))))
  | list items => exact h.elim
  | map entries => exact h.elim

/-! ## Objects that do not -/

/-- Only a plain string is read as itself. -/
theorem plain_of_nextToken {d : Datum} (h : nextToken (doubleQuote s) = .ok (d,r)) :
    d = .procedure ∨ ∃ u, (∀ c ∈ u, PlainChar c) ∧ s ++ [34] = u ++ 34 :: r ∧ d = .string u := by
  have hfirst : inchar (doubleQuote s) = (some 34,s ++ [34]) := rfl
  rw [nextToken_eq hfirst (by decide),tokenOf,if_pos (.inl rfl)] at h
  exact (of_stringLoop h).2 [] rfl

theorem plain_of_returns {obj : Object} (hw : ReadsFrom withInput) (h : Returns printReal (some withInput) obj) :
    obj.Plain := by
  obtain ⟨str,hgen,hparse⟩ := h
  cases obj with
  | null => trivial
  | boolean b => trivial
  | integer n hn => trivial
  | list items => cases hgen
  | map entries => cases hgen
  | string s =>
    cases hgen
    rw [jsonParseString_eq hw] at hparse
    cases htoken : nextToken (doubleQuote s) with
    | error e =>
      rw [parseObject_of_error htoken] at hparse
      cases hparse
    | ok p =>
      rcases plain_of_nextToken htoken with hd | ⟨u,hu,-,hd⟩
      · have hprocedure := parseObject_procedure (htoken.trans (congrArg Except.ok (Prod.ext hd rfl)))
        rw [hprocedure] at hparse
        cases hparse
      · have hvalue := parseObject_value htoken (.inr (.inr (.inr (.inr ⟨u,hd⟩))))
        rw [hvalue] at hparse
        cases hd.symm.trans (Except.ok.inj hparse)
        exact hu

/-- An object comes back iff `with-input-from-string` is there and the object is no map or list, and plain. -/
theorem returns_iff (printReal : Text → Text) (withInputFromString : Option WithInput)
    (hw : ∀ withInput, withInputFromString = some withInput → ReadsFrom withInput) (obj : Object) :
    Returns printReal withInputFromString obj ↔ withInputFromString.isSome = true ∧ obj.Plain := by
  cases withInputFromString with
  | none =>
    refine iff_of_false (fun ⟨str,_,hparse⟩ => ?_) (fun ⟨hsome,_⟩ => ?_)
    · cases hparse
    · cases hsome
  | some withInput =>
    have hreads := hw withInput rfl
    exact ⟨fun h => ⟨rfl,plain_of_returns hreads h⟩,fun h => returns_of_plain hreads h.2⟩

def readFrom : WithInput := fun str thunk => (thunk str).map Prod.fst

theorem returns_iff_one : Returns id (some readFrom) (.string [97,32,98]) := by
  refine (returns_iff id (some readFrom) (fun withInput h => ?_) (.string [97,32,98])).mpr ⟨rfl,?_⟩
  · cases h
    exact fun str thunk => rfl
  · change ∀ c ∈ [97,32,98], PlainChar c
    decide +kernel

/-- The list of the number 1. -/
theorem not_returns : ¬ ∀ obj : Object, Returns id (some readFrom) obj := by
  intro h
  obtain ⟨str,hgen,-⟩ := h (.list (.cons (.integer 1 (by decide)) .nil))
  cases hgen

end Edelib.Json
