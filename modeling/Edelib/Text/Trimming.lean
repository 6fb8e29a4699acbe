import Edelib.Foundation.CInt
import Edelib.Text.StrUtil

/-! # Trimming in place

The loops of the trimming functions over the bytes of a string and its terminator. Other bytes are
not there to be read or written. Which characters are blanks is left open.
-/
namespace Edelib.Trimming
open Foundation

variable (blank : UInt8 → Bool)

/-! ## The functions -/

def skipBlanks (str : List UInt8) (ptr : ℕ) : Option ℕ :=
  if h : ptr < str.length then
    if str[ptr] ≠ 0 ∧ blank str[ptr] = true then skipBlanks str (ptr + 1) else some ptr
  else none
  termination_by str.length - ptr

def strlen (str : List UInt8) (ptr : ℕ) : Option ℕ := (str.drop ptr).idxOf? 0

def memmove (str : List UInt8) (ptr n : ℕ) : Option (List UInt8) :=
  if ptr + n ≤ str.length then some ((str.drop ptr).take n ++ str.drop n) else none

def strTrimleft (str : List UInt8) : Option (List UInt8) := do
  let ptr ← skipBlanks blank str 0
  let len ← strlen str ptr
  memmove str ptr (len + 1)

/-- `for(...; i >= 0 && isspace(str[i]); i--)` -/
def backBlanks (str : List UInt8) (i : ℤ) : Option ℤ :=
  if 0 ≤ i then
    match str[i.toNat]? with
    | none => none
    | some c => if blank c then backBlanks str (i - 1) else some i
  else some i
  termination_by (i + 1).toNat

def store (str : List UInt8) (i : ℤ) (c : UInt8) : Option (List UInt8) :=
  if 0 ≤ i ∧ i < str.length then some (str.set i.toNat c) else none

def strTrimright (str : List UInt8) : Option (List UInt8) := do
  let n ← strlen str 0
  let len := CInt.ofSize n
  if len = 0 then some str
  else do
    let i ← CInt.checked (len - 1)
    let i ← backBlanks blank str i
    store str (i + 1) 0

def strTrim (str : List UInt8) : Option (List UInt8) := do
  let str ← strTrimright blank str
  strTrimleft blank str

/-- What a String has: a length of 32 bits, and the characters up to the terminator. -/
structure Data where
  length : ℕ
  chars : List UInt8

def trimBy (f : List UInt8 → Option (List UInt8)) (d : Data) : Option Data :=
  if d.length ≠ 0 then do
    let chars ← f d.chars
    let len ← strlen chars 0
    some ⟨len % 2 ^ 32,chars⟩
  else some d

def trimLeft (d : Data) : Option Data := trimBy (strTrimleft blank) d

def trimRight (d : Data) : Option Data := trimBy (strTrimright blank) d

def trim (d : Data) : Option Data := trimBy (strTrim blank) d

/-! ## What trimming is -/

def block (s : CString) : List UInt8 := s.bytes ++ [0]

def text (r : Option (List UInt8)) : Option (List UInt8) := r.map (fun b => (CString.ofBuf b).bytes)

def Updated (r : Option Data) : Prop := ∃ d, r = some d ∧ d.length = (CString.ofBuf d.chars).strlen

/-- The blanks at the ends are gone, again and in either order; Strings know their new length. -/
structure Trims (s : CString) : Prop where
  left : text (strTrimleft blank (block s)) = some (s.bytes.dropWhile blank)
  right : text (strTrimright blank (block s)) = some (s.bytes.rdropWhile blank)
  both : text (strTrim blank (block s)) = some ((s.bytes.rdropWhile blank).dropWhile blank)
  leftTwice : text (strTrimleft blank (block s) >>= strTrimleft blank) = text (strTrimleft blank (block s))
  rightTwice : text (strTrimright blank (block s) >>= strTrimright blank) = text (strTrimright blank (block s))
  bothTwice : text (strTrim blank (block s) >>= strTrim blank) = text (strTrim blank (block s))
  commute : text (strTrimright blank (block s) >>= strTrimleft blank) =
    text (strTrimleft blank (block s) >>= strTrimright blank)
  members : s.strlen < 2 ^ 32 → Updated (trimLeft blank ⟨s.strlen,block s⟩) ∧
    Updated (trimRight blank ⟨s.strlen,block s⟩) ∧ Updated (trim blank ⟨s.strlen,block s⟩)

/-- The length as an `int` is not negative, and behind it are blanks only. -/
def Fits (t : List UInt8) : Prop :=
  0 ≤ CInt.ofSize t.length ∧
    if CInt.ofSize t.length = 0 then t.rdropWhile blank = t
    else ∀ c ∈ t.drop (CInt.ofSize t.length).toNat, blank c = true

variable {blank}

/-! ## From the left -/

theorem text_some {t tail : List UInt8} (ht : (0 : UInt8) ∉ t) : text (some (t ++ 0 :: tail)) = some t :=
  congrArg (fun s => some (CString.bytes s)) (CString.ofBuf_bytes_append_nul ⟨t,ht⟩ tail)

theorem strlen_append {u t tail : List UInt8} (ht : (0 : UInt8) ∉ t) :
    strlen (u ++ (t ++ 0 :: tail)) u.length = some t.length := by
  rw [strlen,List.drop_left]
  induction t with
  | nil => rfl
  | cons c t ih =>
    obtain ⟨hc,htail⟩ : 0 ≠ c ∧ (0 : UInt8) ∉ t := by simpa only [List.mem_cons,not_or] using ht
    rw [List.cons_append,List.idxOf?_cons,if_neg (by simpa using hc.symm),ih htail]
    rfl

theorem strlen_zero {t tail : List UInt8} (ht : (0 : UInt8) ∉ t) : strlen (t ++ 0 :: tail) 0 = some t.length :=
  strlen_append (u := []) ht

theorem skipBlanks_append (u : List UInt8) {t tail : List UInt8} (ht : (0 : UInt8) ∉ t) :
    skipBlanks blank (u ++ (t ++ 0 :: tail)) u.length = some (u ++ t.takeWhile blank).length := by
  induction t generalizing u with
  | nil =>
    rw [skipBlanks,dif_pos (by simp),if_neg (by simp)]
    simp
  | cons c t ih =>
    obtain ⟨hc,htail⟩ : 0 ≠ c ∧ (0 : UInt8) ∉ t := by simpa only [List.mem_cons,not_or] using ht
    have hget : (u ++ (c :: t ++ 0 :: tail))[u.length]? = some c := by simp
    have hlt : u.length < (u ++ (c :: t ++ 0 :: tail)).length := by simp
    rw [List.getElem?_eq_getElem hlt,Option.some_inj] at hget
    rw [skipBlanks,dif_pos hlt,hget]
    by_cases hb : blank c = true
    · have hnext := ih (u ++ [c]) htail
      rw [List.length_append,List.length_singleton,List.append_assoc,List.singleton_append,
        List.append_assoc,List.singleton_append] at hnext
      rw [if_pos ⟨hc.symm,hb⟩,List.takeWhile_cons_of_pos hb,List.cons_append,hnext]
    · rw [if_neg (fun h => hb h.2),List.takeWhile_cons_of_neg hb,List.append_nil]

theorem strTrimleft_append (blank : UInt8 → Bool) {t : List UInt8} (tail : List UInt8) (ht : (0 : UInt8) ∉ t) :
    ∃ tail', strTrimleft blank (t ++ 0 :: tail) = some (t.dropWhile blank ++ 0 :: tail') := by
  have hdrop : (0 : UInt8) ∉ t.dropWhile blank := fun h => ht ((List.dropWhile_sublist blank).mem h)
  have hsplit : t ++ 0 :: tail = t.takeWhile blank ++ (t.dropWhile blank ++ 0 :: tail) := by
    rw [← List.append_assoc,List.takeWhile_append_dropWhile]
  have hptr : skipBlanks blank (t ++ 0 :: tail) 0 = some (t.takeWhile blank).length := skipBlanks_append [] ht
  have hlen : strlen (t ++ 0 :: tail) (t.takeWhile blank).length = some (t.dropWhile blank).length := by
    rw [hsplit,strlen_append hdrop]
  have hmoved : ((t ++ 0 :: tail).drop (t.takeWhile blank).length).take ((t.dropWhile blank).length + 1) =
      t.dropWhile blank ++ [0] := by
    rw [hsplit,List.drop_left,List.take_length_add_append]
    rfl
  have hinside : (t.takeWhile blank).length + ((t.dropWhile blank).length + 1) ≤ (t ++ 0 :: tail).length := by
    rw [hsplit]
    simp only [List.length_append,List.length_cons]
    omega
  refine ⟨(t ++ 0 :: tail).drop ((t.dropWhile blank).length + 1),?_⟩
  rw [strTrimleft,hptr,Option.bind_eq_bind,Option.bind_some,hlen,Option.bind_some,memmove,
    if_pos hinside,hmoved,List.append_assoc,List.singleton_append]

/-! ## From the right -/

theorem backBlanks_take (blank : UInt8 → Bool) {t : List UInt8} (tail : List UInt8) {k : ℕ} (hk : k ≤ t.length) :
    backBlanks blank (t ++ tail) ((k : ℤ) - 1) = some ((((t.take k).rdropWhile blank).length : ℤ) - 1) := by
  induction k with
  | zero =>
    rw [backBlanks,if_neg (by omega)]
    rfl
  | succ k ih =>
    have hi : ((k + 1 : ℕ) : ℤ) - 1 = k := by omega
    have hget : (t ++ tail)[k]? = some t[k] := by
      rw [List.getElem?_append_left hk,List.getElem?_eq_getElem hk]
    rw [hi,backBlanks,if_pos (by omega),Int.toNat_natCast,hget,List.take_succ_eq_append_getElem hk,
      List.rdropWhile_concat]
    dsimp only
    split_ifs with hb
    · exact ih (Nat.le_of_succ_le hk)
    · rw [List.length_append,List.length_singleton,List.length_take_of_le (Nat.le_of_succ_le hk),hi]

theorem strTrimright_zero {t tail : List UInt8} (ht : (0 : UInt8) ∉ t) (hlen : CInt.ofSize t.length = 0) :
    strTrimright blank (t ++ 0 :: tail) = some (t ++ 0 :: tail) := by
  rw [strTrimright,strlen_zero ht,Option.bind_eq_bind,Option.bind_some]
  exact if_pos hlen

/-- The subtraction overflows, or the terminator is stored before the string. -/
theorem strTrimright_neg {t tail : List UInt8} (ht : (0 : UInt8) ∉ t) (hlen : CInt.ofSize t.length < 0) :
    strTrimright blank (t ++ 0 :: tail) = none := by
  rw [strTrimright,strlen_zero ht,Option.bind_eq_bind,Option.bind_some]
  dsimp only
  rw [if_neg (by omega)]
  by_cases hint : CInt.IsInt (CInt.ofSize t.length - 1)
  · rw [CInt.checked_eq hint,Option.bind_eq_bind,Option.bind_some,backBlanks,if_neg (by omega),Option.bind_some,store,
      if_neg (by omega)]
  · rw [CInt.checked,if_neg hint]
    rfl

theorem ofSize_toNat_le (n : ℕ) : (CInt.ofSize n).toNat ≤ n := by
  have hmod := Nat.mod_le n (2 ^ 32)
  rw [CInt.ofSize_eq]
  split_ifs <;> omega

theorem set_length (r rest : List UInt8) (c d : UInt8) : (r ++ c :: rest).set r.length d = r ++ d :: rest := by
  rw [List.set_append_right _ _ (Nat.le_refl _),Nat.sub_self]
  rfl

theorem strTrimright_pos (blank : UInt8 → Bool) {t : List UInt8} (tail : List UInt8) (ht : (0 : UInt8) ∉ t) (hlen : 0 < CInt.ofSize t.length) :
    ∃ tail', strTrimright blank (t ++ 0 :: tail) =
      some ((t.take (CInt.ofSize t.length).toNat).rdropWhile blank ++ 0 :: tail') := by
  have hk := ofSize_toNat_le t.length
  have hint : CInt.IsInt (CInt.ofSize t.length - 1) := by
    have := CInt.isInt_ofSize t.length
    rw [CInt.isInt_iff] at this ⊢
    omega
  have hcast : (((CInt.ofSize t.length).toNat : ℕ) : ℤ) = CInt.ofSize t.length := Int.toNat_of_nonneg hlen.le
  have hback := backBlanks_take blank (0 :: tail) hk
  rw [hcast] at hback
  obtain ⟨v,hv⟩ : (t.take (CInt.ofSize t.length).toNat).rdropWhile blank <+: t :=
    (List.rdropWhile_prefix blank _).trans (List.take_prefix _ _)
  generalize (t.take (CInt.ofSize t.length).toNat).rdropWhile blank = r at hback hv ⊢
  have hcut : ∃ c rest, t ++ 0 :: tail = r ++ c :: rest := by
    rw [← hv,List.append_assoc]
    cases v with
    | nil => exact ⟨0,tail,rfl⟩
    | cons c v => exact ⟨c,v ++ 0 :: tail,rfl⟩
  obtain ⟨c,rest,hrest⟩ := hcut
  refine ⟨rest,?_⟩
  have hstore : store (t ++ 0 :: tail) ((r.length : ℤ) - 1 + 1) 0 = some (r ++ 0 :: rest) := by
    rw [hrest,Int.sub_add_cancel,store,if_pos (by simp only [List.length_append,List.length_cons]; omega),
      Int.toNat_natCast,set_length]
  rw [strTrimright,strlen_zero ht,Option.bind_eq_bind,Option.bind_some]
  dsimp only
  rw [if_neg hlen.ne',CInt.checked_eq hint,Option.bind_eq_bind,Option.bind_some,hback,Option.bind_some,hstore]

/-! ## Texts without their last blanks -/

theorem rdropWhile_append (blank : UInt8 → Bool) (xs ys : List UInt8) :
    (xs ++ ys).rdropWhile blank = if ys.rdropWhile blank = [] then xs.rdropWhile blank else xs ++ ys.rdropWhile blank := by
  simp only [List.rdropWhile,List.reverse_append,List.dropWhile_append,List.isEmpty_iff,List.reverse_eq_nil_iff]
  split_ifs with h
  · rfl
  · rw [List.reverse_append,List.reverse_reverse]

theorem rdropWhile_take_eq {t : List UInt8} {k : ℕ} :
    (t.take k).rdropWhile blank = t.rdropWhile blank ↔ ∀ c ∈ t.drop k, blank c = true := by
  have hsplit := rdropWhile_append blank (t.take k) (t.drop k)
  rw [List.take_append_drop] at hsplit
  rw [hsplit,← List.rdropWhile_eq_nil_iff]
  constructor
  · intro h
    by_contra hne
    rw [if_neg hne] at h
    have hle := (List.rdropWhile_prefix blank (t.take k)).length_le
    rw [h,List.length_append] at hle
    exact hne (List.length_eq_zero_iff.mp (by omega))
  · intro h
    rw [if_pos h]

theorem dropWhile_rdropWhile (t : List UInt8) :
    (t.rdropWhile blank).dropWhile blank = (t.dropWhile blank).rdropWhile blank := by
  have hblank : ∀ c ∈ t.takeWhile blank, blank c = true := fun c hc => List.mem_takeWhile_imp hc
  have hsplit := rdropWhile_append blank (t.takeWhile blank) (t.dropWhile blank)
  rw [List.takeWhile_append_dropWhile] at hsplit
  rw [hsplit]
  split_ifs with h
  · rw [h,List.rdropWhile_eq_nil_iff.mpr hblank,List.dropWhile_nil]
  · rw [List.dropWhile_append_of_pos hblank]
    obtain ⟨v,hv⟩ := List.rdropWhile_prefix blank (t.dropWhile blank)
    have hhead := List.head?_dropWhile_not blank t
    rw [← hv] at hhead
    cases hr : (t.dropWhile blank).rdropWhile blank with
    | nil => exact absurd hr h
    | cons c r =>
      rw [hr] at hhead
      exact List.dropWhile_cons_of_neg (by simpa using hhead)

/-! ## When the length fits -/

theorem fits_of_lt {t : List UInt8} (h : t.length < 2 ^ 31) : Fits blank t := by
  rw [Fits,CInt.ofSize_of_le (by omega)]
  refine ⟨Int.natCast_nonneg _,?_⟩
  split_ifs with hzero
  · rw [List.length_eq_zero_iff.mp (Int.natCast_eq_zero.mp hzero),List.rdropWhile_nil]
  · rw [Int.toNat_natCast,List.drop_length]
    simp

theorem Fits.rdropWhile_length {t : List UInt8} (h : Fits blank t) :
    t.rdropWhile blank = t ∨ (t.rdropWhile blank).length < 2 ^ 31 := by
  obtain ⟨hnonneg,hblank⟩ := h
  split_ifs at hblank with hzero
  · exact Or.inl hblank
  · right
    have hint := CInt.isInt_ofSize t.length
    rw [CInt.isInt_iff] at hint
    rw [← rdropWhile_take_eq.mpr hblank]
    have hle := (List.rdropWhile_prefix blank (t.take (CInt.ofSize t.length).toNat)).length_le
    rw [List.length_take] at hle
    omega

theorem strTrimright_of_fits {t : List UInt8} (tail : List UInt8) (ht : (0 : UInt8) ∉ t) (h : Fits blank t) :
    ∃ tail', strTrimright blank (t ++ 0 :: tail) = some (t.rdropWhile blank ++ 0 :: tail') := by
  obtain ⟨hnonneg,hblank⟩ := h
  split_ifs at hblank with hzero
  · exact ⟨tail,by rw [strTrimright_zero ht hzero,hblank]⟩
  · rw [← rdropWhile_take_eq.mpr hblank]
    exact strTrimright_pos blank tail ht (by omega)

theorem mem_of_rdropWhile {t : List UInt8} {c : UInt8} (h : c ∈ t.rdropWhile blank) : c ∈ t :=
  (List.rdropWhile_prefix blank t).subset h

theorem mem_of_dropWhile {t : List UInt8} {c : UInt8} (h : c ∈ t.dropWhile blank) : c ∈ t :=
  (List.dropWhile_suffix blank).subset h

/-- Only then is the text right. -/
theorem fits_of_text {t tail : List UInt8} (ht : (0 : UInt8) ∉ t)
    (h : text (strTrimright blank (t ++ 0 :: tail)) = some (t.rdropWhile blank)) : Fits blank t := by
  rcases lt_trichotomy (CInt.ofSize t.length) 0 with hneg | hzero | hpos
  · rw [strTrimright_neg ht hneg] at h
    cases h
  · rw [strTrimright_zero ht hzero,text_some ht,Option.some_inj] at h
    refine ⟨hzero.ge,?_⟩
    rw [if_pos hzero]
    exact h.symm
  · obtain ⟨tail',htail⟩ := strTrimright_pos blank tail ht hpos
    have hcut : (0 : UInt8) ∉ (t.take (CInt.ofSize t.length).toNat).rdropWhile blank :=
      fun h => ht (List.mem_of_mem_take (mem_of_rdropWhile h))
    rw [htail,text_some hcut,Option.some_inj] at h
    refine ⟨hpos.le,?_⟩
    rw [if_neg hpos.ne']
    exact rdropWhile_take_eq.mp h

/-! ## The three functions -/

theorem strTrim_of_fits {t : List UInt8} (tail : List UInt8) (ht : (0 : UInt8) ∉ t) (h : Fits blank t) :
    ∃ tail', strTrim blank (t ++ 0 :: tail) = some ((t.rdropWhile blank).dropWhile blank ++ 0 :: tail') := by
  obtain ⟨tail₁,hright⟩ := strTrimright_of_fits tail ht h
  obtain ⟨tail₂,hleft⟩ := strTrimleft_append blank tail₁ (fun hm => ht (mem_of_rdropWhile hm))
  exact ⟨tail₂,by rw [strTrim,hright,Option.bind_eq_bind,Option.bind_some,hleft]⟩

/-- A String knows the length of what a function leaves of its text. -/
theorem updated_trimBy {f : List UInt8 → Option (List UInt8)} {s : CString} (hs : s.strlen < 2 ^ 32) {t tail : List UInt8}
    (hf : f (block s) = some (t ++ 0 :: tail)) (ht : ∀ c ∈ t, c ∈ s.bytes) (hlen : t.length ≤ s.strlen) :
    Updated (trimBy f ⟨s.strlen,block s⟩) := by
  by_cases hzero : s.strlen = 0
  · refine ⟨⟨s.strlen,block s⟩,by rw [trimBy,if_neg (by simpa using hzero)],?_⟩
    exact congrArg CString.strlen (CString.ofBuf_bytes_append_nul s []).symm
  · have hnul : (0 : UInt8) ∉ t := fun h => s.nulFree (ht 0 h)
    refine ⟨⟨t.length % 2 ^ 32,t ++ 0 :: tail⟩,?_,?_⟩
    · rw [trimBy,if_pos hzero,hf,Option.bind_eq_bind,Option.bind_some,strlen_zero hnul]
      rfl
    · rw [Nat.mod_eq_of_lt (by omega)]
      exact congrArg CString.strlen (CString.ofBuf_bytes_append_nul ⟨t,hnul⟩ tail).symm

theorem fits_rdropWhile {t : List UInt8} (h : Fits blank t) : Fits blank (t.rdropWhile blank) := by
  rcases h.rdropWhile_length with heq | hlt
  · rwa [heq]
  · exact fits_of_lt hlt

theorem fits_both {t : List UInt8} (h : Fits blank t) (hleft : Fits blank (t.dropWhile blank)) :
    Fits blank ((t.rdropWhile blank).dropWhile blank) := by
  rcases h.rdropWhile_length with heq | hlt
  · rwa [heq]
  · exact fits_of_lt ((List.dropWhile_suffix blank).length_le.trans_lt hlt)

theorem trims_of_fits {s : CString} (h : Fits blank s.bytes) (hleft : Fits blank (s.bytes.dropWhile blank)) :
    Trims blank s := by
  have hnul := s.nulFree
  have hnulLeft : (0 : UInt8) ∉ s.bytes.dropWhile blank := fun hm => hnul (mem_of_dropWhile hm)
  have hnulRight : (0 : UInt8) ∉ s.bytes.rdropWhile blank := fun hm => hnul (mem_of_rdropWhile hm)
  have hnulBoth : (0 : UInt8) ∉ (s.bytes.rdropWhile blank).dropWhile blank := fun hm => hnulRight (mem_of_dropWhile hm)
  obtain ⟨tailL,hL⟩ := strTrimleft_append blank [] hnul
  obtain ⟨tailR,hR⟩ := strTrimright_of_fits [] hnul h
  obtain ⟨tailB,hB⟩ := strTrim_of_fits [] hnul h
  obtain ⟨tailLL,hLL⟩ := strTrimleft_append blank tailL hnulLeft
  obtain ⟨tailRR,hRR⟩ := strTrimright_of_fits tailR hnulRight (fits_rdropWhile h)
  obtain ⟨tailBB,hBB⟩ := strTrim_of_fits tailB hnulBoth (fits_both h hleft)
  obtain ⟨tailLR,hLR⟩ := strTrimright_of_fits tailL hnulLeft hleft
  obtain ⟨tailRL,hRL⟩ := strTrimleft_append blank tailR hnulRight
  rw [List.dropWhile_idempotent] at hLL
  rw [List.rdropWhile_idempotent] at hRR
  rw [← dropWhile_rdropWhile] at hLR
  have hstays : (((s.bytes.rdropWhile blank).dropWhile blank).rdropWhile blank).dropWhile blank =
      (s.bytes.rdropWhile blank).dropWhile blank := by
    rw [← dropWhile_rdropWhile,List.rdropWhile_idempotent,List.dropWhile_idempotent]
  rw [hstays] at hBB
  constructor
  · rw [block,hL,text_some hnulLeft]
  · rw [block,hR,text_some hnulRight]
  · rw [block,hB,text_some hnulBoth]
  · rw [block,hL,Option.bind_eq_bind,Option.bind_some,hLL,text_some hnulLeft,text_some hnulLeft]
  · rw [block,hR,Option.bind_eq_bind,Option.bind_some,hRR,text_some hnulRight,text_some hnulRight]
  · rw [block,hB,Option.bind_eq_bind,Option.bind_some,hBB,text_some hnulBoth,text_some hnulBoth]
  · rw [block,hL,hR,Option.bind_eq_bind,Option.bind_some,Option.bind_some,hLR,hRL,text_some hnulBoth,
      text_some hnulBoth]
  · intro hs
    have hleftLe := (List.dropWhile_suffix blank (l := s.bytes)).length_le
    have hrightLe := (List.rdropWhile_prefix blank s.bytes).length_le
    refine ⟨updated_trimBy hs hL (fun c => mem_of_dropWhile) hleftLe,
      updated_trimBy hs hR (fun c => mem_of_rdropWhile) hrightLe,
      updated_trimBy hs hB (fun c hc => mem_of_rdropWhile (mem_of_dropWhile hc)) ?_⟩
    exact (List.dropWhile_suffix blank).length_le.trans hrightLe

theorem trims_iff (blank : UInt8 → Bool) (s : CString) :
    Trims blank s ↔ Fits blank s.bytes ∧ Fits blank (s.bytes.dropWhile blank) := by
  refine ⟨fun h => ?_,fun h => trims_of_fits h.1 h.2⟩
  have hfits := fits_of_text s.nulFree h.right
  refine ⟨hfits,?_⟩
  -- the other order says that the text without its first blanks is trimmed right too
  obtain ⟨tailL,hL⟩ := strTrimleft_append blank [] s.nulFree
  have hcommute := h.commute
  rw [block,hL,Option.bind_eq_bind,Option.bind_some] at hcommute
  refine fits_of_text (fun hm => s.nulFree (mem_of_dropWhile hm)) (hcommute.symm.trans ?_)
  rw [← dropWhile_rdropWhile]
  exact h.both

/-- A string that is not longer than an `int` says is trimmed. -/
theorem trims_of_lt {s : CString} (h : s.strlen < 2 ^ 31) : Trims blank s :=
  trims_of_fits (fits_of_lt h) (fits_of_lt ((List.dropWhile_suffix blank).length_le.trans_lt h))

/-- On these the functions compute what they are taken for elsewhere. -/
theorem strTrim_isspace {s : CString} (h : s.strlen < 2 ^ 31) :
    text (strTrim StrUtil.isspace (block s)) = some (StrUtil.strTrim s.bytes) :=
  (trims_of_lt h).both

def letters : CString := ⟨List.replicate 2147483648 97,fun h => absurd (List.eq_of_mem_replicate h) (by decide)⟩

theorem not_trims : ¬ ∀ (blank : UInt8 → Bool) (s : CString), Trims blank s := by
  intro h
  have hfits := fits_of_text letters.nulFree (h StrUtil.isspace letters).right
  have hlen : letters.bytes.length = 2147483648 := List.length_replicate
  have hnonneg := hfits.1
  rw [hlen] at hnonneg
  exact absurd hnonneg (by decide)

end Edelib.Trimming
