import Edelib.Foundation.CString
import Edelib.Foundation.Separated

/-! # Text utilities: hashing and trimming

The hash mixes the bytes of a text into 32 bits, each byte a signed `char`. The
trimming functions are given on the text of a buffer, up to its terminator.
-/
namespace Edelib.StrUtil
open Foundation

/-- One round of the hash: `char` is signed, so the byte is sign extended. -/
def hashByte (hash : BitVec 32) (c : UInt8) : BitVec 32 :=
  let hash := hash + c.toBitVec.signExtend 32
  let hash := hash + (hash <<< 10)
  hash ^^^ (hash >>> 6)

/-- A length of zero asks for the whole string. -/
def strHash (str : CString) (len : ℕ) : BitVec 32 :=
  let len := if len < 1 then str.strlen else len
  let hash := (str.bytes.take len).foldl hashByte 0
  let hash := hash + (hash <<< 3)
  let hash := hash ^^^ (hash >>> 11)
  hash + (hash <<< 15)

theorem strHash_strlen (str : CString) : strHash str str.strlen = strHash str 0 := by
  by_cases h : str.strlen < 1
  · have : str.strlen = 0 := by omega
    rw [this]
  · simp only [strHash,h,Nat.lt_one_iff,↓reduceIte]

def isspace (c : UInt8) : Bool :=
  c == 32 || c == 9 || c == 10 || c == 11 || c == 12 || c == 13

/-- The number that a text begins with, as a `long` that is cut to an `int`. -/
def atoi (str : List UInt8) : ℤ :=
  let str := str.dropWhile isspace
  let neg := str.head? = some 45
  let str := if neg ∨ str.head? = some 43 then str.tail else str
  let n : ℕ := (str.takeWhile (fun c => decide (48 ≤ c ∧ c ≤ 57))).foldl (fun n c => 10 * n + (c.toNat - 48)) 0
  (if neg then max (-2 ^ 63) (-(n : ℤ)) else min (2 ^ 63 - 1) (n : ℤ)).bmod (2 ^ 32)

/-- The same number before it is cut. -/
def atol (str : List UInt8) : ℤ :=
  let str := str.dropWhile isspace
  let neg := str.head? = some 45
  let str := if neg ∨ str.head? = some 43 then str.tail else str
  let n : ℕ := (str.takeWhile (fun c => decide (48 ≤ c ∧ c ≤ 57))).foldl (fun n c => 10 * n + (c.toNat - 48)) 0
  if neg then max (-2 ^ 63) (-(n : ℤ)) else min (2 ^ 63 - 1) (n : ℤ)

def isupper (c : UInt8) : Bool := decide (65 ≤ c ∧ c ≤ 90)

def tolower (c : UInt8) : UInt8 := if isupper c then c + 32 else c

def strTolower (str : List UInt8) : List UInt8 := str.map tolower

theorem tolower_ne_zero {c : UInt8} (h : c ≠ 0) : tolower c ≠ 0 := by
  unfold tolower isupper
  split_ifs with hc
  · intro h0
    have hsum := congrArg UInt8.toNat h0
    simp only [decide_eq_true_eq,UInt8.le_iff_toNat_le] at hc
    have hle : c.toNat ≤ 90 := hc.2
    have hge : 65 ≤ c.toNat := hc.1
    simp [UInt8.toNat_add] at hsum
    omega
  · exact h

theorem strTolower_of_not_isupper {str : List UInt8} (h : ∀ c ∈ str, isupper c = false) : strTolower str = str := by
  have hmap : str.map tolower = str.map id := List.map_congr_left (fun c hc => by simp [tolower,h c hc])
  rwa [List.map_id] at hmap

def strTrimleft (str : List UInt8) : List UInt8 := str.dropWhile isspace

def strTrimright (str : List UInt8) : List UInt8 := str.rdropWhile isspace

def strTrim (str : List UInt8) : List UInt8 := strTrimleft (strTrimright str)

def strEnds (str test : List UInt8) : Bool := decide (test ≠ [] ∧ test <:+ str)

def Trimmed (str : List UInt8) : Prop := strTrim str = str

instance (str : List UInt8) : Decidable (Trimmed str) := inferInstanceAs (Decidable (strTrim str = str))

theorem strTrimright_of_trimmed {s : List UInt8} (h : Trimmed s) : strTrimright s = s := by
  have hs : (strTrimright s).dropWhile isspace = s := h
  have hlen := (List.dropWhile_sublist isspace (l := strTrimright s)).length_le
  rw [hs] at hlen
  exact (List.rdropWhile_prefix isspace s).eq_of_length (le_antisymm (List.rdropWhile_prefix isspace s).length_le hlen)

theorem strTrimleft_of_trimmed {s : List UInt8} (h : Trimmed s) : strTrimleft s = s := by
  have hs : strTrimleft (strTrimright s) = s := h
  rwa [strTrimright_of_trimmed h] at hs

theorem head_of_trimmed {c : UInt8} {s : List UInt8} (h : Trimmed (c :: s)) : isspace c = false := by
  have hd : (c :: s).dropWhile isspace = c :: s := strTrimleft_of_trimmed h
  by_contra hc
  have hc : isspace c = true := by simpa using hc
  rw [List.dropWhile_cons_of_pos hc] at hd
  have := (List.dropWhile_sublist isspace (l := s)).length_le
  rw [hd,List.length_cons] at this
  omega

/-- What is trimmed stays as it is. -/
theorem trimmed_strTrim (str : List UInt8) : Trimmed (strTrim str) := by
  have hstops : strTrimright (strTrim str) = strTrim str := by
    refine List.rdropWhile_eq_self_iff.mpr (fun hne => ?_)
    have hsuffix : strTrim str <:+ strTrimright str := List.dropWhile_suffix _
    have hright : strTrimright str ≠ [] := fun h => hne (List.suffix_nil.mp (h ▸ hsuffix))
    rw [List.IsSuffix.getLast hsuffix hne]
    exact List.rdropWhile_last_not isspace str hright
  rw [Trimmed,strTrim,hstops]
  exact List.dropWhile_idempotent isspace (strTrimright str)

/-! ## Tokens -/

def stringtok (str ws : List UInt8) : List (List UInt8) :=
  match _h : str.dropWhile (fun c => decide (c ∈ ws)) with
  | [] => []
  | c :: rest =>
    (c :: rest.takeWhile (fun c => decide (c ∉ ws))) ::
      stringtok ((rest.dropWhile (fun c => decide (c ∉ ws))).drop 1) ws
termination_by str.length
decreasing_by
  have hle := (List.dropWhile_sublist (fun c => decide (c ∈ ws)) (l := str)).length_le
  have hdrop := (List.dropWhile_sublist (fun c => decide (c ∉ ws)) (l := rest)).length_le
  rw [_h,List.length_cons] at hle
  rw [List.length_drop]
  omega

theorem stringtok_nil (ws : List UInt8) : stringtok [] ws = [] := by
  rw [stringtok]
  rfl

theorem stringtok_cons {ws str : List UInt8} {c : UInt8} (hc : c ∉ ws) : stringtok (c :: str) ws =
    (c :: str.takeWhile (fun c => decide (c ∉ ws))) ::
      stringtok ((str.dropWhile (fun c => decide (c ∉ ws))).drop 1) ws := by
  have hskip : (c :: str).dropWhile (fun c => decide (c ∈ ws)) = c :: str :=
    List.dropWhile_cons_of_neg (by simpa using hc)
  rw [stringtok]
  split
  · rename_i hnil
    rw [hskip] at hnil
    cases hnil
  · rename_i c' rest hcons
    rw [hskip] at hcons
    cases hcons
    rfl

/-- Between two tokens there is a delimiter at least. -/
theorem stringtok_length_le (str ws : List UInt8) :
    ((stringtok str ws).map (fun tok => tok.length + 1)).sum ≤ str.length + 1 := by
  induction hn : str.length using Nat.strong_induction_on generalizing str with
  | _ n ih =>
    subst hn
    have hskip := (List.dropWhile_sublist (fun c => decide (c ∈ ws)) (l := str)).length_le
    rw [stringtok]
    split
    · exact Nat.zero_le _
    · rename_i c rest hcons
      rw [hcons,List.length_cons] at hskip
      rw [List.map_cons,List.sum_cons,List.length_cons]
      have hsplit := congrArg List.length (List.takeWhile_append_dropWhile (p := fun c => decide (c ∉ ws)) (l := rest))
      rw [List.length_append] at hsplit
      cases hrest : rest.dropWhile (fun c => decide (c ∉ ws)) with
      | nil =>
        rw [hrest,List.length_nil] at hsplit
        rw [List.drop_nil,stringtok_nil]
        simp only [List.map_nil,List.sum_nil]
        omega
      | cons d tail =>
        rw [hrest,List.length_cons] at hsplit
        have htail := ih tail.length (by omega) tail rfl
        rw [List.drop_one,List.tail_cons]
        omega

/-- Texts that end with a delimiter each are the tokens, where none is empty or holds one. -/
theorem stringtok_trailing {sep : UInt8} {parts : List (List UInt8)} (h : Separated.Proper sep parts) :
    stringtok (Separated.trailing sep parts) [sep] = parts := by
  induction parts with
  | nil => exact stringtok_nil _
  | cons part parts ih =>
    obtain ⟨⟨hne,hsep⟩,hparts⟩ := List.forall_mem_cons.mp h
    cases part with
    | nil => exact absurd rfl hne
    | cons c part =>
      obtain ⟨hc,hpart⟩ : sep ≠ c ∧ sep ∉ part := by simpa using hsep
      have hin : ∀ b ∈ part, decide (b ∉ [sep]) = true := by
        intro b hb
        have hbs : b ≠ sep := fun he => hpart (he ▸ hb)
        simpa using hbs
      rw [Separated.trailing_cons,List.cons_append,stringtok_cons (by simpa using hc.symm),
        List.takeWhile_append_of_pos hin,List.takeWhile_cons_of_neg (by simp),List.append_nil,
        List.dropWhile_append_of_pos hin,List.dropWhile_cons_of_neg (by simp),List.drop_one,List.tail_cons,ih hparts]

end Edelib.StrUtil
