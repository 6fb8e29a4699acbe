import Mathlib.Data.List.DropRight

/-! # The tokens of a symbolic expression

A text without strings and comments is read as parentheses, quotes and atoms; an atom goes on to the next delimiter.
-/
namespace Edelib.Foundation.SExpr

inductive Token
  | lparen | rparen | quote
  | atom (text : List UInt8)
deriving DecidableEq

def isBlank (c : UInt8) : Bool := c == 32 || c == 9 || c == 10 || c == 11 || c == 12 || c == 13

def isOpen (c : UInt8) : Bool := c ∈ [40,91]

def isClose (c : UInt8) : Bool := c ∈ [41,93]

def flush : List UInt8 → List Token
  | [] => []
  | c :: text => [.atom (c :: text)]

def scan : List UInt8 → List UInt8 → List Token
  | atom, [] => flush atom
  | atom, c :: str =>
    if isBlank c then flush atom ++ scan [] str
    else if isOpen c then flush atom ++ .lparen :: scan [] str
    else if isClose c then flush atom ++ .rparen :: scan [] str
    else if c = 39 ∧ atom = [] then .quote :: scan [] str
    else scan (atom ++ [c]) str

def balanced : ℕ → List UInt8 → Bool
  | depth, [] => depth = 0
  | depth, c :: str =>
    if isBlank c then balanced depth str
    else if isOpen c then balanced (depth + 1) str
    else if isClose c then decide (0 < depth) && balanced (depth - 1) str
    else balanced depth str

def balancedTokens : ℕ → List Token → Bool
  | depth, [] => depth = 0
  | depth, .lparen :: ts => balancedTokens (depth + 1) ts
  | depth, .rparen :: ts => decide (0 < depth) && balancedTokens (depth - 1) ts
  | depth, .quote :: ts => balancedTokens depth ts
  | depth, .atom _ :: ts => balancedTokens depth ts

variable {atom str : List UInt8} {c : UInt8} {ts : List Token} {depth : ℕ}

@[simp] theorem balancedTokens_flush : balancedTokens depth (flush atom ++ ts) = balancedTokens depth ts := by
  cases atom <;> rfl

theorem balancedTokens_scan (depth : ℕ) (atom str : List UInt8) :
    balancedTokens depth (scan atom str) = balanced depth str := by
  induction str generalizing depth atom with
  | nil => cases atom <;> rfl
  | cons c str ih =>
    rw [scan,balanced]
    split_ifs
    · rw [balancedTokens_flush,ih]
    · rw [balancedTokens_flush,balancedTokens,ih]
    · rw [balancedTokens_flush,balancedTokens,ih]
    · rw [balancedTokens,ih]
    · exact ih depth _

theorem scan_blank (h : isBlank c = true) : scan atom (c :: str) = flush atom ++ scan [] str := if_pos h

theorem scan_open : scan atom (40 :: str) = flush atom ++ .lparen :: scan [] str := rfl

theorem scan_close : scan atom (41 :: str) = flush atom ++ .rparen :: scan [] str := rfl

theorem scan_quote : scan [] (39 :: str) = .quote :: scan [] str := rfl

def inAtom (c : UInt8) : Bool := !isBlank c && !isOpen c && !isClose c

/-- A word is part of the atom that it is put to; a word that begins an atom does not begin with a quote. -/
theorem scan_word {word : List UInt8} (hword : ∀ c ∈ word, inAtom c = true)
    (hquote : atom = [] → word.head? ≠ some 39) : scan atom (word ++ str) = scan (atom ++ word) str := by
  induction word generalizing atom with
  | nil => rw [List.nil_append,List.append_nil]
  | cons c word ih =>
    obtain ⟨hc,hword⟩ := List.forall_mem_cons.mp hword
    rw [inAtom,Bool.and_eq_true,Bool.and_eq_true,Bool.not_eq_true',Bool.not_eq_true',Bool.not_eq_true'] at hc
    have hfirst : ¬ (c = 39 ∧ atom = []) := fun h => hquote h.2 (congrArg some h.1)
    rw [List.cons_append,scan,if_neg (Bool.eq_false_iff.mp hc.1.1),if_neg (Bool.eq_false_iff.mp hc.1.2),
      if_neg (Bool.eq_false_iff.mp hc.2),if_neg hfirst,
      ih hword (fun h => absurd h (List.append_ne_nil_of_right_ne_nil atom (List.cons_ne_nil c [])))]
    rw [List.append_assoc,List.singleton_append]

theorem scan_blanks {blanks : List UInt8} (h : ∀ c ∈ blanks, isBlank c = true) :
    scan atom (str ++ blanks) = scan atom str := by
  induction str generalizing atom with
  | nil =>
    induction blanks generalizing atom with
    | nil => rfl
    | cons c blanks ih =>
      obtain ⟨hc,hblanks⟩ := List.forall_mem_cons.mp h
      rw [List.nil_append,scan_blank hc]
      have hrest : scan [] ([] ++ blanks) = scan [] [] := ih hblanks
      rw [List.nil_append] at hrest
      rw [hrest,scan,scan,flush,List.append_nil]
  | cons c str ih =>
    rw [List.cons_append,scan,scan]
    simp only [ih]

theorem scan_dropWhile_blank : scan [] (str.dropWhile isBlank) = scan [] str := by
  induction str with
  | nil => rfl
  | cons c str ih =>
    by_cases h : isBlank c = true
    · rw [List.dropWhile_cons_of_pos h,ih,scan_blank h]
      rfl
    · rw [List.dropWhile_cons_of_neg h]

/-- Blanks around a text do not change its tokens. -/
theorem scan_trim : scan [] ((str.rdropWhile isBlank).dropWhile isBlank) = scan [] str := by
  have hsplit : str = str.rdropWhile isBlank ++ (str.reverse.takeWhile isBlank).reverse := by
    rw [List.rdropWhile,← List.reverse_append,List.takeWhile_append_dropWhile,List.reverse_reverse]
  have hblanks : ∀ c ∈ (str.reverse.takeWhile isBlank).reverse, isBlank c = true :=
    fun c hc => List.mem_takeWhile_imp (List.mem_reverse.mp hc)
  rw [scan_dropWhile_blank]
  conv_rhs => rw [hsplit,scan_blanks hblanks]

end Edelib.Foundation.SExpr
