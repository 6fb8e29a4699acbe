import Edelib.Foundation.SExpr
import Edelib.Text.StrUtil

/-! # Templates of signatures

The code of a signature becomes the text of typed values, character by character. Nothing closes an array, and
nothing is between the value of one type and the tag of the next.
-/
namespace Edelib.DBusExplorer
open Foundation Foundation.SExpr StrUtil

/-! ## The functions -/

inductive ArgDirection
  | directionIn | directionOut | directionNone
deriving DecidableEq

structure ArgSignature where
  sig : List UInt8
  direction : ArgDirection

/-- The cases of `basic_signature_char_to_string`. -/
def basicTypes : List (UInt8 × List UInt8) :=
  [(121,[98,121,116,101]),
    (98,[98,111,111,108]),
    (110,[105,110,116,49,54]),
    (113,[117,105,110,116,49,54]),
    (105,[105,110,116,51,50]),
    (117,[117,105,110,116,51,50]),
    (120,[105,110,116,54,52]),
    (116,[117,105,110,116,54,52]),
    (100,[100,111,117,98,108,101]),
    (115,[115,116,114,105,110,103]),
    (111,[111,98,106,101,99,116,45,112,97,116,104]),
    (103,[115,105,103,110,97,116,117,114,101]),
    (118,[118,97,114,105,97,110,116])]

def basicSignatureCharToString (sig : UInt8) : Option (List UInt8) := basicTypes.lookup sig

/-- `EDELIB_DBUS_EXPLORER_DEFAULT_VALUE_TEMPLATE` -/
def REPLACE_ME : List UInt8 := [82,69,80,76,65,67,69,95,77,69]

def arrayTag : List UInt8 := [58,97,114,114,97,121]

def structTag : List UInt8 := [58,115,116,114,117,99,116]

def dictTag : List UInt8 := [58,100,105,99,116]

def signatureChar (c : UInt8) : List UInt8 :=
  if c = 97 then arrayTag ++ [32,39,40]
  else if c = 40 ∨ c = 114 then structTag ++ [32,39,40]
  else if c = 123 ∨ c = 101 then dictTag ++ [32,39,40]
  else if c = 41 ∨ c = 125 then [41]
  else (basicSignatureCharToString c).elim [] (fun type => 58 :: type ++ 32 :: REPLACE_ME)

def appendArgs : Bool → List UInt8 → List ArgSignature → List UInt8
  | _, ret, [] => ret
  | argsStart, ret, it :: lst =>
    if it.direction = .directionOut then appendArgs argsStart ret lst
    else appendArgs true ((if argsStart then ret else [32]) ++ it.sig.flatMap signatureChar ++ [32]) lst

def signatureToScheme (lst : List ArgSignature) (ret : List UInt8) : List UInt8 :=
  if lst = [] then ret else strTrim (appendArgs false ret lst)

/-! ## Signatures -/

inductive Basic
  | byte | bool | int16 | uint16 | int32 | uint32 | int64 | uint64 | double | string | objectPath | signature | unixFd
deriving DecidableEq

mutual
/-- The single complete types. The entries of a dict are the elements of an array. -/
inductive Ty
  | basic (b : Basic)
  | variant
  | array (element : Ty)
  | dict (key : Basic) (value : Ty)
  | struct (members : Tys)
inductive Tys
  | one (t : Ty)
  | more (t : Ty) (ts : Tys)
end

def Basic.code : Basic → UInt8
  | byte => 121
  | bool => 98
  | int16 => 110
  | uint16 => 113
  | int32 => 105
  | uint32 => 117
  | int64 => 120
  | uint64 => 116
  | double => 100
  | string => 115
  | objectPath => 111
  | signature => 103
  | unixFd => 104

mutual
def Ty.sig : Ty → List UInt8
  | .basic b => [b.code]
  | .variant => [118]
  | .array t => 97 :: t.sig
  | .dict k v => 97 :: 123 :: k.code :: (v.sig ++ [125])
  | .struct ts => 40 :: (ts.sig ++ [41])
def Tys.sig : Tys → List UInt8
  | .one t => t.sig
  | .more t ts => t.sig ++ ts.sig
end

/-! ## Typed values -/

/-- A list of typed values; the value of a container is a list of the same kind. -/
inductive Args
  | nil
  | value (tag text : List UInt8) (rest : Args)
  | list (tag : List UInt8) (items rest : Args)

/-- A list is quoted unless it is part of a quoted one: there the reader makes `(quote x)` of a quote. -/
def openList (quoted : Bool) : List Token := if quoted then [.lparen] else [.quote,.lparen]

inductive Reads : Bool → List Token → Args → Prop
  | nil (quoted : Bool) : Reads quoted [] .nil
  | value {quoted : Bool} {ts : List Token} {rest : Args} (tag text : List UInt8) :
    Reads quoted ts rest → Reads quoted (.atom tag :: .atom text :: ts) (.value tag text rest)
  | list {quoted : Bool} {ts inner : List Token} {items rest : Args} (tag : List UInt8) :
    Reads true inner items → Reads quoted ts rest →
    Reads quoted (.atom tag :: openList quoted ++ (inner ++ .rparen :: ts)) (.list tag items rest)

def Basic.tag (b : Basic) : List UInt8 :=
  58 :: (basicSignatureCharToString b.code).getD [117,110,105,120,45,102,100]

mutual
def Ty.shape : Ty → Args → Args
  | .basic b, rest => .value b.tag REPLACE_ME rest
  | .variant, rest => .value (58 :: [118,97,114,105,97,110,116]) REPLACE_ME rest
  | .array t, rest => .list arrayTag (t.shape .nil) rest
  | .dict k v, rest => .list arrayTag (.list dictTag (.value k.tag REPLACE_ME (v.shape .nil)) .nil) rest
  | .struct ts, rest => .list structTag (ts.shape .nil) rest
def Tys.shape : Tys → Args → Args
  | .one t, rest => t.shape rest
  | .more t ts, rest => t.shape (ts.shape rest)
end

def shape (types : List Ty) : Args := types.foldr Ty.shape .nil

def Opens (c : UInt8) : Prop := c = 97 ∨ c = 40 ∨ c = 114 ∨ c = 123 ∨ c = 101

instance (c : UInt8) : Decidable (Opens c) := inferInstanceAs (Decidable (_ ∨ _ ∨ _ ∨ _ ∨ _))

def opened (sig : List UInt8) : ℕ := sig.countP (fun c => decide (Opens c))

def Ty.Flat (t : Ty) : Prop := opened t.sig ≤ 1

abbrev Argument := List Ty × ArgDirection

def Argument.signature (a : Argument) : ArgSignature := ⟨a.1.flatMap Ty.sig,a.2⟩

def inTypes (args : List Argument) : List Ty := (args.filter (fun a => a.2 ≠ .directionOut)).flatMap Prod.fst

/-- No character opens an array, each has a text, and what follows a basic type is the end of a container. -/
def Readable (sig : List UInt8) : Prop :=
  (∀ c ∈ sig, c ≠ 97 ∧ signatureChar c ≠ []) ∧
    ∀ before c d after, sig = before ++ c :: d :: after → (basicSignatureCharToString c).isSome → d = 41 ∨ d = 125

/-! ## Tokens of a list of typed values -/

def Args.tokens : Bool → Args → List Token
  | _, .nil => []
  | quoted, .value tag text rest => .atom tag :: .atom text :: rest.tokens quoted
  | quoted, .list tag items rest =>
    .atom tag :: openList quoted ++ (items.tokens true ++ .rparen :: rest.tokens quoted)

/-- The tokens with a quote for each list. -/
def Args.quotedTokens : Args → List Token
  | .nil => []
  | .value tag text rest => .atom tag :: .atom text :: rest.quotedTokens
  | .list tag items rest => .atom tag :: .quote :: .lparen :: (items.quotedTokens ++ .rparen :: rest.quotedTokens)

theorem reads_iff {quoted : Bool} {ts : List Token} {args : Args} : Reads quoted ts args ↔ ts = args.tokens quoted := by
  constructor
  · intro h
    induction h with
    | nil quoted => rfl
    | value tag text _ ih => rw [ih,Args.tokens]
    | list tag _ _ ihitems ihrest => rw [ihitems,ihrest,Args.tokens]
  · rintro rfl
    induction args generalizing quoted with
    | nil => exact .nil quoted
    | value tag text rest ih => exact .value tag text ih
    | list tag items rest ihitems ihrest => exact .list tag ihitems ihrest

theorem balancedTokens_args {depth : ℕ} {ts : List Token} (args : Args) :
    balancedTokens depth (args.quotedTokens ++ ts) = balancedTokens depth ts := by
  induction args generalizing depth ts with
  | nil => rfl
  | value tag text rest ih => exact ih
  | list tag items rest ihitems ihrest =>
    rw [Args.quotedTokens,List.cons_append,List.cons_append,List.cons_append,List.append_assoc,List.cons_append]
    simp only [balancedTokens]
    rw [ihitems,balancedTokens,ihrest,Nat.add_sub_cancel,decide_eq_true (Nat.succ_pos depth),Bool.true_and]

theorem count_tokens_le (quoted : Bool) (args : Args) :
    (args.tokens quoted).count .quote ≤ args.quotedTokens.count .quote := by
  induction args generalizing quoted with
  | nil => exact le_rfl
  | value tag text rest ih => simpa [Args.tokens,Args.quotedTokens] using ih quoted
  | list tag items rest ihitems ihrest =>
    have hitems := ihitems true
    have hrest := ihrest quoted
    cases quoted <;> simp [Args.tokens,Args.quotedTokens,openList] <;> omega

/-- Where no quote is missing they are the same. -/
theorem tokens_eq_of_count {quoted : Bool} {args : Args}
    (h : args.quotedTokens.count .quote ≤ (args.tokens quoted).count .quote) : args.tokens quoted = args.quotedTokens := by
  induction args generalizing quoted with
  | nil => rfl
  | value tag text rest ih =>
    have hrest : rest.quotedTokens.count .quote ≤ (rest.tokens quoted).count .quote := by
      simpa [Args.tokens,Args.quotedTokens] using h
    rw [Args.tokens,Args.quotedTokens,ih hrest]
  | list tag items rest ihitems ihrest =>
    have hitemsLe := count_tokens_le true items
    have hrestLe := count_tokens_le quoted rest
    cases quoted with
    | true =>
      simp [Args.tokens,Args.quotedTokens,openList] at h
      omega
    | false =>
      simp [Args.tokens,Args.quotedTokens,openList] at h
      rw [Args.tokens,Args.quotedTokens,ihitems (by omega),ihrest (by omega)]
      rfl

/-! ## Tokens of a template -/

def Closes (c : UInt8) : Prop := c = 41 ∨ c = 125

instance (c : UInt8) : Decidable (Closes c) := inferInstanceAs (Decidable (_ ∨ _))

def openTag (c : UInt8) : List UInt8 :=
  if c = 97 then arrayTag else if c = 40 ∨ c = 114 then structTag else dictTag

def charTokens (c : UInt8) : List Token :=
  if Opens c then [.atom (openTag c),.quote,.lparen]
  else if Closes c then [.rparen]
  else (basicSignatureCharToString c).elim [] (fun type => [.atom (58 :: type),.atom REPLACE_ME])

def weight (c : UInt8) : ℕ := if Opens c then 3 + (if c = 97 then 1 else 0) else if Closes c then 1 else 2

def pending (p : Bool) : List UInt8 := if p then REPLACE_ME else []

/-- How many tokens are missing: an array has no end, a tag after a value is part of it, and a character without
a text has neither a tag nor a value. -/
def lost : Bool → List UInt8 → ℕ
  | _, [] => 0
  | p, c :: sig =>
    if Opens c then p.toNat + (if c = 97 then 1 else 0) + lost false sig
    else if Closes c then lost false sig
    else if (basicSignatureCharToString c).isSome then p.toNat + lost true sig
    else 2 + lost p sig

variable {c : UInt8} {k sig type : List UInt8} {p : Bool}

theorem signatureChar_opens (h : Opens c) : signatureChar c = openTag c ++ [32,39,40] := by
  obtain rfl | rfl | rfl | rfl | rfl := h <;> rfl

theorem signatureChar_closes (h : Closes c) : signatureChar c = [41] := by
  obtain rfl | rfl := h <;> rfl

theorem signatureChar_basic (hopens : ¬ Opens c) (hcloses : ¬ Closes c) : signatureChar c =
    (basicSignatureCharToString c).elim [] (fun type => 58 :: type ++ 32 :: REPLACE_ME) := by
  simp only [Opens,Closes,not_or] at hopens hcloses
  rw [signatureChar,if_neg hopens.1,if_neg (not_or.mpr ⟨hopens.2.1,hopens.2.2.1⟩),
    if_neg (not_or.mpr ⟨hopens.2.2.2.1,hopens.2.2.2.2⟩),if_neg (not_or.mpr hcloses)]

theorem type_inAtom (h : basicSignatureCharToString c = some type) : ∀ x ∈ 58 :: type, inAtom x = true := by
  have hall : ∀ t ∈ basicTypes, ∀ x ∈ 58 :: t.2, inAtom x = true := by decide +kernel
  obtain ⟨before,after,htable,-⟩ := List.lookup_eq_some_iff.mp h
  exact hall (c,type) (by rw [htable]; simp)

theorem not_opens_of_basic (h : (basicSignatureCharToString c).isSome) : ¬ Opens c ∧ ¬ Closes c := by
  constructor
  · rintro (rfl | rfl | rfl | rfl | rfl) <;> cases h
  · rintro (rfl | rfl) <;> cases h

theorem openTag_inAtom (c : UInt8) : ∀ x ∈ openTag c, inAtom x = true := by
  rw [openTag]
  split_ifs <;> decide +kernel

theorem openTag_head (c : UInt8) : (openTag c).head? = some 58 := by
  rw [openTag]
  split_ifs <;> rfl

theorem openTag_ne_nil (c : UInt8) : openTag c ≠ [] := by
  intro h
  have hhead := openTag_head c
  rw [h] at hhead
  cases hhead

theorem flush_of_ne_nil {text : List UInt8} (h : text ≠ []) : flush text = [.atom text] := by
  cases text with
  | nil => exact absurd rfl h
  | cons c text => rfl

theorem scan_opens (h : Opens c) : scan (pending p) (signatureChar c ++ k) =
    .atom (pending p ++ openTag c) :: .quote :: .lparen :: scan [] k := by
  have hne : pending p ++ openTag c ≠ [] := List.append_ne_nil_of_right_ne_nil _ (openTag_ne_nil c)
  rw [signatureChar_opens h,List.append_assoc,scan_word (openTag_inAtom c) (fun _ => by rw [openTag_head]; decide)]
  change scan _ (32 :: 39 :: 40 :: k) = _
  rw [scan_blank rfl,scan_quote,scan_open,flush_of_ne_nil hne]
  rfl

theorem scan_closes (h : Closes c) :
    scan (pending p) (signatureChar c ++ k) = flush (pending p) ++ .rparen :: scan [] k := by
  rw [signatureChar_closes h]
  exact scan_close

theorem scan_basic (h : basicSignatureCharToString c = some type) : scan (pending p) (signatureChar c ++ k) =
    .atom (pending p ++ 58 :: type) :: scan (pending true) k := by
  obtain ⟨hopens,hcloses⟩ := not_opens_of_basic (Option.isSome_of_mem h)
  have hne : pending p ++ 58 :: type ≠ [] := List.append_ne_nil_of_right_ne_nil _ (List.cons_ne_nil _ _)
  have hvalue : ∀ x ∈ REPLACE_ME, inAtom x = true := by decide +kernel
  rw [signatureChar_basic hopens hcloses,h,Option.elim_some,List.append_assoc,
    scan_word (type_inAtom h) (fun _ => by rw [List.head?_cons]; decide),List.cons_append,scan_blank rfl,
    flush_of_ne_nil hne,scan_word hvalue (fun _ => by decide)]
  rfl

theorem signatureChar_none (hopens : ¬ Opens c) (hcloses : ¬ Closes c)
    (h : ¬ (basicSignatureCharToString c).isSome = true) : signatureChar c = [] := by
  rw [signatureChar_basic hopens hcloses,Option.not_isSome_iff_eq_none.mp h]
  rfl

theorem length_flush_pending : (flush (pending p)).length = p.toNat := by
  cases p <;> rfl

/-- A template has the tokens of its signature less those that are lost. -/
theorem length_scan : (scan (pending p) (sig.flatMap signatureChar ++ 32 :: k)).length + lost p sig =
    p.toNat + (sig.map weight).sum + (scan [] k).length := by
  induction sig generalizing p with
  | nil =>
    rw [List.flatMap_nil,List.nil_append,scan_blank rfl,List.length_append,length_flush_pending,lost]
    simp
  | cons c sig ih =>
    rw [List.flatMap_cons,List.append_assoc,lost,List.map_cons,List.sum_cons,weight]
    by_cases hopens : Opens c
    · have hrest := ih (p := false)
      change (scan [] _).length + _ = 0 + _ + _ at hrest
      rw [scan_opens hopens,if_pos hopens,if_pos hopens]
      simp only [List.length_cons]
      omega
    · rw [if_neg hopens,if_neg hopens]
      by_cases hcloses : Closes c
      · have hrest := ih (p := false)
        change (scan [] _).length + _ = 0 + _ + _ at hrest
        rw [scan_closes hcloses,if_pos hcloses,if_pos hcloses,List.length_append,length_flush_pending,List.length_cons]
        omega
      · rw [if_neg hcloses,if_neg hcloses]
        by_cases hbasic : (basicSignatureCharToString c).isSome = true
        · obtain ⟨type,htype⟩ := Option.isSome_iff_exists.mp hbasic
          have hrest := ih (p := true)
          rw [Bool.toNat_true] at hrest
          rw [if_pos hbasic,scan_basic htype,List.length_cons]
          omega
        · have hrest := ih (p := p)
          rw [if_neg hbasic,signatureChar_none hopens hcloses hbasic,List.nil_append]
          omega

theorem opened_cons_of_opens (h : Opens c) (sig : List UInt8) : opened (c :: sig) = opened sig + 1 :=
  List.countP_cons_of_pos (decide_eq_true h)

theorem opened_cons_of_not (h : ¬ Opens c) (sig : List UInt8) : opened (c :: sig) = opened sig :=
  List.countP_cons_of_neg (by simpa using h)

theorem opened_append (sig sig' : List UInt8) : opened (sig ++ sig') = opened sig + opened sig' := List.countP_append

theorem count_flush (atom : List UInt8) : (flush atom).count .quote = 0 := by
  cases atom <;> rfl

/-- No quote is lost. -/
theorem count_scan : (scan (pending p) (sig.flatMap signatureChar ++ 32 :: k)).count .quote =
    opened sig + (scan [] k).count .quote := by
  induction sig generalizing p with
  | nil =>
    rw [List.flatMap_nil,List.nil_append,scan_blank rfl,List.count_append,count_flush]
    rfl
  | cons c sig ih =>
    rw [List.flatMap_cons,List.append_assoc]
    by_cases hopens : Opens c
    · have hrest := ih (p := false)
      change (scan [] _).count _ = _ at hrest
      rw [scan_opens hopens,opened_cons_of_opens hopens,List.count_cons_of_ne (by simp),List.count_cons_self,
        List.count_cons_of_ne (by simp),hrest]
      omega
    · rw [opened_cons_of_not hopens]
      by_cases hcloses : Closes c
      · have hrest := ih (p := false)
        change (scan [] _).count _ = _ at hrest
        rw [scan_closes hcloses,List.count_append,count_flush,List.count_cons_of_ne (by simp),hrest]
        omega
      · by_cases hbasic : (basicSignatureCharToString c).isSome = true
        · obtain ⟨type,htype⟩ := Option.isSome_iff_exists.mp hbasic
          rw [scan_basic htype,List.count_cons_of_ne (by simp),ih]
        · rw [signatureChar_none hopens hcloses hbasic,List.nil_append,ih]

/-- Where none is lost they are those of the characters. -/
theorem scan_of_lost (h : lost p sig = 0) : scan (pending p) (sig.flatMap signatureChar ++ 32 :: k) =
    flush (pending p) ++ sig.flatMap charTokens ++ scan [] k := by
  induction sig generalizing p with
  | nil =>
    rw [List.flatMap_nil,List.nil_append,scan_blank rfl,List.flatMap_nil,List.append_nil]
  | cons c sig ih =>
    rw [lost] at h
    rw [List.flatMap_cons,List.append_assoc,List.flatMap_cons,charTokens]
    by_cases hopens : Opens c
    · rw [if_pos hopens] at h
      have hp : p = false := by
        cases p
        · rfl
        · rw [Bool.toNat_true] at h
          omega
      have hrest : scan [] _ = _ := ih (p := false) (by omega)
      rw [scan_opens hopens,if_pos hopens,hrest,hp]
      rfl
    · rw [if_neg hopens] at h ⊢
      by_cases hcloses : Closes c
      · rw [if_pos hcloses] at h
        have hrest : scan [] _ = _ := ih (p := false) h
        rw [scan_closes hcloses,if_pos hcloses,hrest]
        simp [pending,flush]
      · rw [if_neg hcloses] at h ⊢
        by_cases hbasic : (basicSignatureCharToString c).isSome = true
        · obtain ⟨type,htype⟩ := Option.isSome_iff_exists.mp hbasic
          rw [if_pos hbasic] at h
          have hp : p = false := by
            cases p
            · rfl
            · rw [Bool.toNat_true] at h
              omega
          rw [scan_basic htype,ih (p := true) (by omega),htype,hp]
          rfl
        · rw [if_neg hbasic] at h
          omega

/-! ## Signatures that are readable -/

theorem readable_cons : Readable (c :: sig) ↔ (c ≠ 97 ∧ signatureChar c ≠ []) ∧
    ((basicSignatureCharToString c).isSome → ∀ d ∈ sig.head?, Closes d) ∧ Readable sig := by
  constructor
  · rintro ⟨hchars,hends⟩
    obtain ⟨hc,hsig⟩ := List.forall_mem_cons.mp hchars
    refine ⟨hc,fun hbasic d hd => ?_,hsig,fun before c' d after h => ?_⟩
    · obtain ⟨after,hafter⟩ := List.head?_eq_some_iff.mp hd
      exact hends [] c d after (by rw [hafter]; rfl) hbasic
    · exact hends (c :: before) c' d after (congrArg (c :: ·) h)
  · rintro ⟨hc,hhead,hchars,hends⟩
    refine ⟨List.forall_mem_cons.mpr ⟨hc,hchars⟩,fun before c' d after h hbasic => ?_⟩
    cases before with
    | nil =>
      obtain ⟨rfl,hsig⟩ := List.cons.inj h
      exact hhead hbasic d (by rw [hsig]; rfl)
    | cons b before => exact hends before c' d after (List.cons.inj h).2 hbasic

theorem signatureChar_ne_nil_iff (hopens : ¬ Opens c) (hcloses : ¬ Closes c) :
    signatureChar c ≠ [] ↔ (basicSignatureCharToString c).isSome = true := by
  rw [signatureChar_basic hopens hcloses]
  cases basicSignatureCharToString c with
  | none => exact iff_of_false (fun h => h rfl) Bool.false_ne_true
  | some type => exact iff_of_true (List.cons_ne_nil _ _) rfl

theorem lost_eq_zero : lost p sig = 0 ↔ (p = true → ∀ d ∈ sig.head?, Closes d) ∧ Readable sig := by
  induction sig generalizing p with
  | nil =>
    refine iff_of_true rfl ⟨fun _ d hd => absurd hd (Option.not_mem_none d),fun c hc => absurd hc List.not_mem_nil,
      fun before c d after h => ?_⟩
    exact absurd h.symm (List.append_ne_nil_of_right_ne_nil _ (List.cons_ne_nil _ _))
  | cons c sig ih =>
    rw [lost,readable_cons,List.head?_cons]
    simp only [Option.mem_some_iff,forall_eq']
    have hfalse := ih (p := false)
    rw [and_iff_right (fun h => absurd h Bool.false_ne_true)] at hfalse
    by_cases hopens : Opens c
    · have hnot : ¬ Closes c := by
        obtain rfl | rfl | rfl | rfl | rfl := hopens <;> decide
      have htext : signatureChar c ≠ [] := by
        rw [signatureChar_opens hopens]
        exact List.append_ne_nil_of_right_ne_nil _ (List.cons_ne_nil _ _)
      have hbasic : ¬ (basicSignatureCharToString c).isSome = true := fun h => (not_opens_of_basic h).1 hopens
      rw [if_pos hopens,Nat.add_eq_zero_iff,Nat.add_eq_zero_iff,hfalse]
      cases p <;> simp [hnot,htext,hbasic]
    · rw [if_neg hopens]
      have hne : c ≠ 97 := fun h => hopens (.inl h)
      by_cases hcloses : Closes c
      · have htext : signatureChar c ≠ [] := by
          rw [signatureChar_closes hcloses]
          exact List.cons_ne_nil _ _
        have hbasic : ¬ (basicSignatureCharToString c).isSome = true := fun h => (not_opens_of_basic h).2 hcloses
        rw [if_pos hcloses,hfalse]
        simp [hcloses,hne,htext,hbasic]
      · rw [if_neg hcloses,signatureChar_ne_nil_iff hopens hcloses]
        by_cases hbasic : (basicSignatureCharToString c).isSome = true
        · rw [if_pos hbasic,Nat.add_eq_zero_iff,ih (p := true)]
          cases p <;> simp [hcloses,hne,hbasic]
        · rw [if_neg hbasic]
          exact iff_of_false (by omega) (fun h => hbasic h.2.1.2)

/-! ## Tokens of the shape of a signature -/

theorem Basic.weight_code (b : Basic) : weight b.code = 2 := by
  cases b <;> decide

mutual
theorem Ty.length_tokens (t : Ty) (rest : Args) :
    (t.shape rest).quotedTokens.length = (t.sig.map weight).sum + rest.quotedTokens.length := by
  cases t with
  | basic b =>
    simp [Ty.shape,Ty.sig,Args.quotedTokens,Basic.weight_code]
    omega
  | variant =>
    have hweight : weight 118 = 2 := by decide
    simp [Ty.shape,Ty.sig,Args.quotedTokens,hweight]
    omega
  | array t =>
    have hweight : weight 97 = 4 := by decide
    have ht := Ty.length_tokens t .nil
    simp only [Ty.shape,Ty.sig,Args.quotedTokens,List.length_cons,List.length_append,List.map_cons,List.sum_cons,hweight,ht,
      List.length_nil]
    omega
  | dict key v =>
    have hweight : weight 97 = 4 ∧ weight 123 = 3 ∧ weight 125 = 1 := by decide
    have hv := Ty.length_tokens v .nil
    simp only [Ty.shape,Ty.sig,Args.quotedTokens,List.length_cons,List.length_append,List.map_cons,List.sum_cons,hweight,hv,
      List.length_nil,List.map_append,List.sum_append,Basic.weight_code,List.map_nil,List.sum_nil]
    omega
  | struct ts =>
    have hweight : weight 40 = 3 ∧ weight 41 = 1 := by decide
    have hts := Tys.length_tokens ts .nil
    simp only [Ty.shape,Ty.sig,Args.quotedTokens,List.length_cons,List.length_append,List.map_cons,List.sum_cons,hweight,hts,
      List.length_nil,List.map_append,List.sum_append,List.map_nil,List.sum_nil]
    omega
theorem Tys.length_tokens (ts : Tys) (rest : Args) :
    (ts.shape rest).quotedTokens.length = (ts.sig.map weight).sum + rest.quotedTokens.length := by
  cases ts with
  | one t => exact Ty.length_tokens t rest
  | more t ts =>
    have hts := Tys.length_tokens ts rest
    rw [Tys.shape,Ty.length_tokens t,hts,Tys.sig,List.map_append,List.sum_append,Nat.add_assoc]
end

theorem Basic.not_opens_code (b : Basic) : ¬ Opens b.code := by
  cases b <;> decide

mutual
/-- With a quote for each list there is one for each container. -/
theorem Ty.count_quotedTokens (t : Ty) (rest : Args) :
    (t.shape rest).quotedTokens.count .quote = opened t.sig + rest.quotedTokens.count .quote := by
  cases t with
  | basic b =>
    rw [Ty.sig,opened_cons_of_not b.not_opens_code]
    simp [Ty.shape,Args.quotedTokens,opened]
  | variant =>
    have hopened : opened [118] = 0 := by decide
    simp [Ty.shape,Ty.sig,Args.quotedTokens,hopened]
  | array t =>
    have ht := Ty.count_quotedTokens t .nil
    rw [Ty.sig,opened_cons_of_opens (by decide)]
    simp [Ty.shape,Args.quotedTokens,ht]
    omega
  | dict key v =>
    have hv := Ty.count_quotedTokens v .nil
    rw [Ty.sig,opened_cons_of_opens (by decide),opened_cons_of_opens (by decide),
      opened_cons_of_not key.not_opens_code,opened_append]
    have hend : opened [125] = 0 := by decide
    simp [Ty.shape,Args.quotedTokens,hv,hend]
    omega
  | struct ts =>
    have hts := Tys.count_quotedTokens ts .nil
    have hend : opened [41] = 0 := by decide
    rw [Ty.sig,opened_cons_of_opens (by decide),opened_append,hend]
    simp [Ty.shape,Args.quotedTokens,hts]
    omega
theorem Tys.count_quotedTokens (ts : Tys) (rest : Args) :
    (ts.shape rest).quotedTokens.count .quote = opened ts.sig + rest.quotedTokens.count .quote := by
  cases ts with
  | one t => exact Ty.count_quotedTokens t rest
  | more t ts =>
    rw [Tys.shape,Ty.count_quotedTokens t,Tys.count_quotedTokens ts rest,Tys.sig,opened_append,Nat.add_assoc]
end

theorem Args.count_tokens_true (args : Args) : (args.tokens true).count .quote = 0 := by
  induction args with
  | nil => rfl
  | value tag text rest ih => simpa [Args.tokens] using ih
  | list tag items rest ihitems ihrest => simp [Args.tokens,openList,ihitems,ihrest]

/-- Only the outermost containers have a quote when they are read. -/
theorem Ty.count_tokens (t : Ty) (rest : Args) :
    ((t.shape rest).tokens false).count .quote = min 1 (opened t.sig) + (rest.tokens false).count .quote := by
  cases t with
  | basic b =>
    rw [Ty.sig,opened_cons_of_not b.not_opens_code]
    simp [Ty.shape,Args.tokens,opened]
  | variant =>
    have hopened : opened [118] = 0 := by decide
    simp [Ty.shape,Ty.sig,Args.tokens,hopened]
  | array t =>
    have hopened : opened (Ty.array t).sig = opened t.sig + 1 := by
      rw [Ty.sig,opened_cons_of_opens (by decide)]
    simp [Ty.shape,Args.tokens,openList,Args.count_tokens_true,hopened]
    omega
  | dict key v =>
    have hopened : opened (Ty.dict key v).sig = opened (123 :: key.code :: (v.sig ++ [125])) + 1 := by
      rw [Ty.sig,opened_cons_of_opens (by decide)]
    simp [Ty.shape,Args.tokens,openList,Args.count_tokens_true,hopened]
    omega
  | struct ts =>
    have hopened : opened (Ty.struct ts).sig = opened (ts.sig ++ [41]) + 1 := by
      rw [Ty.sig,opened_cons_of_opens (by decide)]
    simp [Ty.shape,Args.tokens,openList,Args.count_tokens_true,hopened]
    omega

theorem count_quotedTokens_shape (types : List Ty) :
    (shape types).quotedTokens.count .quote = opened (types.flatMap Ty.sig) := by
  induction types with
  | nil => rfl
  | cons t types ih =>
    have hcons : shape (t :: types) = t.shape (shape types) := rfl
    rw [hcons,t.count_quotedTokens,ih,List.flatMap_cons,opened_append]

/-- Every quote is read as one iff no container is opened in another. -/
theorem count_tokens_shape_iff (types : List Ty) :
    (shape types).quotedTokens.count .quote ≤ ((shape types).tokens false).count .quote ↔ ∀ t ∈ types, t.Flat := by
  induction types with
  | nil => exact iff_of_true le_rfl (fun t ht => absurd ht List.not_mem_nil)
  | cons t types ih =>
    have hcons : shape (t :: types) = t.shape (shape types) := rfl
    have hle := count_tokens_le false (shape types)
    rw [hcons,t.count_quotedTokens,t.count_tokens,List.forall_mem_cons,← ih,Ty.Flat]
    omega

/-- The characters of a signature by themselves, where each has a text and none opens an array. -/
def Plain (sig : List UInt8) : Prop := ∀ c ∈ sig, c ≠ 97 ∧ signatureChar c ≠ []

theorem Basic.charTokens_code (b : Basic) (h : signatureChar b.code ≠ []) :
    charTokens b.code = [.atom b.tag,.atom REPLACE_ME] := by
  cases b
  case unixFd => exact absurd rfl h
  all_goals rfl

mutual
theorem Ty.tokens_of_plain (t : Ty) (rest : Args) (h : Plain t.sig) :
    (t.shape rest).quotedTokens = t.sig.flatMap charTokens ++ rest.quotedTokens := by
  cases t with
  | basic b =>
    rw [Ty.sig,List.flatMap_singleton,b.charTokens_code (h _ List.mem_cons_self).2]
    rfl
  | variant => rfl
  | array t => exact absurd rfl (h 97 List.mem_cons_self).1
  | dict key v => exact absurd rfl (h 97 List.mem_cons_self).1
  | struct ts =>
    have hts := Tys.tokens_of_plain ts .nil (fun c hc => h c (List.mem_cons_of_mem _ (List.mem_append_left _ hc)))
    rw [Ty.shape,Args.quotedTokens,hts,Ty.sig,List.flatMap_cons,List.flatMap_append,Args.quotedTokens,List.append_nil,
      List.append_assoc,List.append_assoc]
    rfl
theorem Tys.tokens_of_plain (ts : Tys) (rest : Args) (h : Plain ts.sig) :
    (ts.shape rest).quotedTokens = ts.sig.flatMap charTokens ++ rest.quotedTokens := by
  cases ts with
  | one t => exact Ty.tokens_of_plain t rest h
  | more t ts =>
    rw [Tys.shape,Ty.tokens_of_plain t _ (fun c hc => h c (List.mem_append_left _ hc)),
      Tys.tokens_of_plain ts rest (fun c hc => h c (List.mem_append_right _ hc)),Tys.sig,List.flatMap_append,
      List.append_assoc]
end

/-! ## Templates -/

def argText (sig : List UInt8) : List UInt8 := sig.flatMap signatureChar ++ [32]

def passed (lst : List ArgSignature) : List (List UInt8) :=
  (lst.filter (fun a => a.direction ≠ .directionOut)).map ArgSignature.sig

theorem passed_out {it : ArgSignature} {lst : List ArgSignature} (h : it.direction = .directionOut) :
    passed (it :: lst) = passed lst := by
  rw [passed,passed,List.filter_cons_of_neg (by simpa using h)]

theorem passed_in {it : ArgSignature} {lst : List ArgSignature} (h : it.direction ≠ .directionOut) :
    passed (it :: lst) = it.sig :: passed lst := by
  rw [passed,passed,List.filter_cons_of_pos (by simpa using h),List.map_cons]

theorem appendArgs_started (ret : List UInt8) (lst : List ArgSignature) :
    appendArgs true ret lst = ret ++ (passed lst).flatMap argText := by
  induction lst generalizing ret with
  | nil => exact (List.append_nil ret).symm
  | cons it lst ih =>
    by_cases h : it.direction = .directionOut
    · rw [appendArgs,if_pos h,ih,passed_out h]
    · rw [appendArgs,if_neg h,if_pos rfl,ih,passed_in h,List.flatMap_cons,argText,List.append_assoc,List.append_assoc,
        List.append_assoc]

theorem appendArgs_eq (lst : List ArgSignature) :
    appendArgs false [] lst = if passed lst = [] then [] else 32 :: (passed lst).flatMap argText := by
  induction lst with
  | nil => rfl
  | cons it lst ih =>
    by_cases h : it.direction = .directionOut
    · rw [appendArgs,if_pos h,ih,passed_out h]
    · rw [appendArgs,if_neg h,if_neg Bool.false_ne_true,appendArgs_started,passed_in h,if_neg (List.cons_ne_nil _ _),
        List.flatMap_cons,argText,List.append_assoc,List.append_assoc,List.append_assoc]
      rfl

/-- The tokens of a template are those of the signatures that are passed. -/
theorem scan_signatureToScheme (lst : List ArgSignature) :
    scan [] (signatureToScheme lst []) = scan [] ((passed lst).flatMap argText) := by
  have htrim : strTrim (appendArgs false [] lst) =
      ((appendArgs false [] lst).rdropWhile isBlank).dropWhile isBlank := rfl
  rw [signatureToScheme]
  split_ifs with hnil
  · rw [hnil]
    rfl
  · rw [htrim,scan_trim,appendArgs_eq]
    split_ifs with hnone
    · rw [hnone]
      rfl
    · exact scan_blank rfl

theorem length_scan_args (sigs : List (List UInt8)) :
    (scan [] (sigs.flatMap argText)).length + (sigs.map (lost false)).sum =
      (sigs.map (fun sig => (sig.map weight).sum)).sum := by
  induction sigs with
  | nil => rfl
  | cons sig sigs ih =>
    have hsig := @length_scan (sigs.flatMap argText) sig false
    change (scan [] _).length + _ = 0 + _ + _ at hsig
    rw [List.flatMap_cons,argText,List.append_assoc,List.singleton_append,List.map_cons,List.sum_cons,List.map_cons,
      List.sum_cons]
    omega

theorem count_scan_args (sigs : List (List UInt8)) :
    (scan [] (sigs.flatMap argText)).count .quote = opened sigs.flatten := by
  induction sigs with
  | nil => rfl
  | cons sig sigs ih =>
    have hsig := @count_scan (sigs.flatMap argText) sig false
    change (scan [] _).count _ = _ at hsig
    rw [List.flatMap_cons,argText,List.append_assoc,List.singleton_append,hsig,ih,List.flatten_cons,opened_append]

theorem scan_args_of_lost {sigs : List (List UInt8)} (h : ∀ sig ∈ sigs, lost false sig = 0) :
    scan [] (sigs.flatMap argText) = sigs.flatMap (List.flatMap charTokens) := by
  induction sigs with
  | nil => rfl
  | cons sig sigs ih =>
    obtain ⟨hsig,hsigs⟩ := List.forall_mem_cons.mp h
    have hscan : scan [] _ = _ := @scan_of_lost (sigs.flatMap argText) sig false hsig
    rw [List.flatMap_cons,argText,List.append_assoc,List.singleton_append,hscan,ih hsigs,List.flatMap_cons]
    rfl

/-- The signatures of the arguments that are passed. -/
theorem passed_signatures (args : List Argument) : passed (args.map Argument.signature) =
    (args.filter (fun a => a.2 ≠ .directionOut)).map (fun a => a.1.flatMap Ty.sig) := by
  rw [passed,List.filter_map,List.map_map]
  rfl

theorem length_tokens_shape (types : List Ty) :
    (shape types).quotedTokens.length = ((types.flatMap Ty.sig).map weight).sum := by
  induction types with
  | nil => rfl
  | cons t types ih =>
    have hcons : shape (t :: types) = t.shape (shape types) := rfl
    rw [hcons,t.length_tokens,ih,List.flatMap_cons,List.map_append,List.sum_append]

theorem tokens_shape_of_plain {types : List Ty} (h : Plain (types.flatMap Ty.sig)) :
    (shape types).quotedTokens = (types.flatMap Ty.sig).flatMap charTokens := by
  induction types with
  | nil => rfl
  | cons t types ih =>
    have hcons : shape (t :: types) = t.shape (shape types) := rfl
    rw [List.flatMap_cons] at h
    rw [hcons,t.tokens_of_plain _ (fun c hc => h c (List.mem_append_left _ hc)),
      ih (fun c hc => h c (List.mem_append_right _ hc)),List.flatMap_cons,List.flatMap_append]

def Passes (args : List Argument) (sig : List UInt8) : Prop :=
  ∃ a ∈ args, a.2 ≠ .directionOut ∧ a.1.flatMap Ty.sig = sig

theorem mem_passed {args : List Argument} {sig : List UInt8} :
    sig ∈ passed (args.map Argument.signature) ↔ Passes args sig := by
  rw [passed_signatures,List.mem_map]
  constructor
  · rintro ⟨a,ha,rfl⟩
    obtain ⟨hmem,hdir⟩ := List.mem_filter.mp ha
    exact ⟨a,hmem,of_decide_eq_true hdir,rfl⟩
  · rintro ⟨a,hmem,hdir,rfl⟩
    exact ⟨a,List.mem_filter.mpr ⟨hmem,decide_eq_true hdir⟩,rfl⟩

theorem flatten_passed (args : List Argument) :
    (passed (args.map Argument.signature)).flatten = (inTypes args).flatMap Ty.sig := by
  rw [passed_signatures,inTypes,List.flatMap_assoc]
  rfl

/-- In the template of a struct the tag of the second member is part of the first value. -/
example : (scan [] (signatureToScheme [⟨[40,105,115,41],.directionIn⟩] [])).length = 7 := by decide

end Edelib.DBusExplorer
