import Edelib.Foundation.Numeral
import Edelib.Text.StrUtil

/-! # The name and the size of a font

A font is parsed from its end, over at most 68 bytes. That the size is missing is taken from the scan not having
moved, the size is copied to a buffer of 16 bytes, and the name to one of 64.
-/
namespace Edelib.Font
open Foundation StrUtil

/-! ## The function -/

/-- `EDELIB_FONT_CACHE_FACE_LEN` -/
def faceLen : ℕ := 64

/-- `FONT_CACHE_FACE_LEN_WITH_SIZE` -/
def faceLenWithSize : ℕ := 68

/-- A byte is read before the string, or written beyond the buffer of the name. -/
inductive ParseFault
  | before | beyond
deriving DecidableEq

def isdigit (c : UInt8) : Bool := decide (48 ≤ c ∧ c ≤ 57)

/-- A scan backwards from before an index, which is `i`; the byte is read before `i` is tested. -/
def scanBack (p : UInt8 → Bool) (font : List UInt8) : ℕ → Except ParseFault ℕ
  | 0 => .error .before
  | i + 1 => if p (font.getD i 0) then scanBack p font i else .ok (i + 1)

/-- The name that is written to a buffer of `faceLen` bytes, and the size; there is none where it returns `false`. -/
def parseFont (font : CString) (maxlen : ℕ) : Except ParseFault (Option (List UInt8 × ℤ)) :=
  let len := min font.strlen maxlen
  if len = 0 then .ok none
  else do
    -- strip ending spaces
    let i ← scanBack isspace font.bytes len
    -- get number
    let j ← scanBack isdigit font.bytes i
    let nbuf := if j = len then [49,50] else (font.bytes.drop j).take 15
    -- strip possible multiple spaces between font name and font size
    let k ← scanBack isspace font.bytes j
    if k + 1 ≤ faceLen then .ok (some (font.bytes.take k,atoi nbuf)) else .error .beyond

/-! ## Fonts -/

def number (digits : List UInt8) : ℕ := Numeral.value 10 (digits.map (fun c => c.toNat - 48))

structure FontText where
  name : List UInt8
  size : Option (List UInt8 × List UInt8)
  trail : List UInt8
  named : name ≠ []
  nulFree : (0 : UInt8) ∉ name
  stops : ∀ c ∈ name.getLast?, isspace c = false ∧ isdigit c = false
  sized : ∀ s ∈ size, (s.1 ≠ [] ∧ ∀ c ∈ s.1, isspace c = true) ∧ (s.2 ≠ [] ∧ ∀ c ∈ s.2, isdigit c = true) ∧
    number s.2 < 2 ^ 31
  blank : ∀ c ∈ trail, isspace c = true

namespace FontText

def rest (t : FontText) : List UInt8 := t.size.elim [] (fun s => s.1 ++ s.2) ++ t.trail

def bytes (t : FontText) : List UInt8 := t.name ++ t.rest

def points (t : FontText) : ℕ := t.size.elim 12 (fun s => number s.2)

end FontText

def unblanked (str : List UInt8) : List UInt8 := str.rdropWhile isspace

def unsized (str : List UInt8) : List UInt8 := (unblanked str).rdropWhile isdigit

def nameOf (str : List UInt8) : List UInt8 := unblanked (unsized str)

/-- A text is a name, blanks, digits and blanks, and each part is as long as it can be from the end. -/
structure Split (str name gap digits trail : List UInt8) : Prop where
  eq : str = name ++ (gap ++ (digits ++ trail))
  gap_blank : ∀ c ∈ gap, isspace c = true
  digits_digit : ∀ c ∈ digits, isdigit c = true
  trail_blank : ∀ c ∈ trail, isspace c = true
  name_stops : ∀ c ∈ name.getLast?, isspace c = false
  gap_stops : ∀ c ∈ (name ++ gap).getLast?, isdigit c = false
  digits_stop : digits = [] → ∀ c ∈ (name ++ gap).getLast?, isspace c = false

/-- Where the name fits: without a size nothing follows it; and the buffer of the size has room for the digits, after
the blanks if these are not before the 68th byte, unless they are zeros. Where it does not: the five bytes after the
63rd are still the name's and are blanks, digits and blanks, and the number that is read there is the size. -/
def Fits (t : FontText) : Prop :=
  if t.name.length < faceLen then
    t.size.elim (t.trail = []) (fun s => number s.2 = 0 ∨
      s.2.length + (if t.name.length + s.1.length < faceLenWithSize then 0 else s.1.length) ≤ 15)
  else faceLenWithSize ≤ t.name.length ∧
    ∃ gap digits trail, Split (t.name.take faceLenWithSize) (t.name.take (faceLen - 1)) gap digits trail ∧
      atoi ((t.bytes.drop (faceLen - 1 + gap.length)).take 15) = t.points

/-! ## Scans -/

section Scan
variable {p : UInt8 → Bool} {font str : List UInt8} {n : ℕ}

/-- A scan stops behind the last byte that is not skipped; where there is none it goes on before the string. -/
theorem scanBack_eq (h : n ≤ font.length) : scanBack p font n =
    if (font.take n).rdropWhile p = [] then .error .before else .ok ((font.take n).rdropWhile p).length := by
  induction n with
  | zero => rfl
  | succ n ih =>
    have htake : font.take (n + 1) = font.take n ++ [font.getD n 0] := by
      rw [List.take_add_one,List.getD_eq_getElem?_getD,List.getElem?_eq_getElem h]
      rfl
    rw [scanBack,htake]
    by_cases hp : p (font.getD n 0) = true
    · rw [if_pos hp,List.rdropWhile_concat_pos _ _ _ hp]
      exact ih (by omega)
    · rw [if_neg hp,List.rdropWhile_concat_neg _ _ _ hp,if_neg (List.append_ne_nil_of_right_ne_nil _ (List.cons_ne_nil _ _)),
        List.length_append,List.length_take,List.length_singleton,Nat.min_eq_left (by omega)]

theorem rdropWhile_append (h : ∀ c ∈ str, p c = true) : (font ++ str).rdropWhile p = font.rdropWhile p := by
  rw [List.rdropWhile,List.rdropWhile,List.reverse_append,
    List.dropWhile_append_of_pos (fun c hc => h c (List.mem_reverse.mp hc))]

theorem rdropWhile_stops (h : ∀ c ∈ str.getLast?, p c = false) : str.rdropWhile p = str := by
  rw [List.rdropWhile_eq_self_iff]
  intro hne
  rw [h _ (List.getLast?_eq_some_getLast hne)]
  exact Bool.false_ne_true

end Scan

theorem unblanked_begins (str : List UInt8) : unblanked str <+: str := List.rdropWhile_prefix _ _

theorem unsized_begins (str : List UInt8) : unsized str <+: str :=
  (List.rdropWhile_prefix _ _).trans (unblanked_begins str)

theorem nameOf_begins (str : List UInt8) : nameOf str <+: str := (unblanked_begins _).trans (unsized_begins str)

/-- A scan of what another has left. -/
theorem scanBack_begins {p : UInt8 → Bool} {font str : List UInt8} (h : str <+: font) : scanBack p font str.length =
    if str.rdropWhile p = [] then .error .before else .ok (str.rdropWhile p).length := by
  rw [scanBack_eq h.length_le,← List.prefix_iff_eq_take.mp h]

/-- The three scans: the name is what is left of the part that is scanned. -/
theorem parseFont_eq {font : CString} {maxlen : ℕ} (hne : font.bytes.take maxlen ≠ []) : parseFont font maxlen =
    if nameOf (font.bytes.take maxlen) = [] then .error .before
    else if (nameOf (font.bytes.take maxlen)).length + 1 ≤ faceLen then
      .ok (some (nameOf (font.bytes.take maxlen),
        atoi (if (unsized (font.bytes.take maxlen)).length = (font.bytes.take maxlen).length then [49,50]
          else (font.bytes.drop (unsized (font.bytes.take maxlen)).length).take 15)))
    else .error .beyond := by
  have hlen : min font.strlen maxlen = (font.bytes.take maxlen).length := by
    rw [List.length_take,Nat.min_comm]
    rfl
  have hpos := List.length_pos_iff.mpr hne
  have hprefix : font.bytes.take maxlen <+: font.bytes := List.take_prefix _ _
  rw [parseFont,hlen]
  dsimp only
  rw [if_neg (by omega)]
  generalize font.bytes.take maxlen = str at *
  rw [scanBack_begins hprefix]
  change Except.bind (if unblanked str = [] then _ else _) _ = _
  by_cases hblank : unblanked str = []
  · have hname : nameOf str = [] := by rw [nameOf,unsized,hblank]; rfl
    rw [if_pos hblank,if_pos hname]
    rfl
  · rw [if_neg hblank]
    change Except.bind (scanBack isdigit font.bytes (unblanked str).length) _ = _
    rw [scanBack_begins ((unblanked_begins str).trans hprefix)]
    change Except.bind (if unsized str = [] then _ else _) _ = _
    by_cases hdigit : unsized str = []
    · have hname : nameOf str = [] := by rw [nameOf,hdigit]; rfl
      rw [if_pos hdigit,if_pos hname]
      rfl
    · rw [if_neg hdigit]
      change Except.bind (scanBack isspace font.bytes (unsized str).length) _ = _
      rw [scanBack_begins ((unsized_begins str).trans hprefix)]
      change Except.bind (if nameOf str = [] then _ else _) _ = _
      by_cases hname : nameOf str = []
      · rw [if_pos hname,if_pos hname]
        rfl
      · rw [if_neg hname,if_neg hname]
        have htake : font.bytes.take (nameOf str).length = nameOf str :=
          (List.prefix_iff_eq_take.mp ((nameOf_begins str).trans hprefix)).symm
        change (if (nameOf str).length + 1 ≤ faceLen then Except.ok (some (font.bytes.take (nameOf str).length,_)) else _) = _
        rw [htake]
        rfl

/-! ## Numbers -/

theorem digit_ne {c : UInt8} (h : isdigit c = true) : isspace c = false ∧ c ≠ 45 ∧ c ≠ 43 ∧ c ≠ 0 := by
  rw [isdigit,decide_eq_true_eq] at h
  have hlow : 48 ≤ c.toNat := h.1
  simp only [isspace,← UInt8.toNat_inj,UInt8.reduceToNat,ne_eq,Bool.or_eq_false_iff,beq_eq_false_iff_ne]
  omega

theorem blank_ne {c : UInt8} (h : isspace c = true) : isdigit c = false ∧ c ≠ 45 ∧ c ≠ 43 ∧ c ≠ 0 := by
  simp only [isspace,Bool.or_eq_true,beq_iff_eq] at h
  obtain ((((rfl | rfl) | rfl) | rfl) | rfl) | rfl := h <;> decide

theorem takeWhile_digits {digits trail : List UInt8} (hdigits : ∀ c ∈ digits, isdigit c = true)
    (htrail : ∀ c ∈ trail, isspace c = true) :
    (digits ++ trail).takeWhile (fun c => decide (48 ≤ c ∧ c ≤ 57)) = digits := by
  rw [List.takeWhile_append_of_pos (p := fun c => decide (48 ≤ c ∧ c ≤ 57)) hdigits]
  cases trail with
  | nil => exact List.append_nil _
  | cons c trail =>
    have hc : isdigit c = false := (blank_ne (htrail c List.mem_cons_self)).1
    exact (congrArg (digits ++ ·) (List.takeWhile_cons_of_neg (Bool.eq_false_iff.mp hc))).trans (List.append_nil _)

theorem foldl_number (digits : List UInt8) :
    digits.foldl (fun n c => 10 * n + (c.toNat - 48)) 0 = number digits := by
  rw [number,Numeral.value,List.foldl_map]
  rfl

theorem head_of_digits {digits trail : List UInt8} (hdigits : ∀ c ∈ digits, isdigit c = true)
    (htrail : ∀ c ∈ trail, isspace c = true) : ∀ c ∈ (digits ++ trail).head?, c ≠ 45 ∧ c ≠ 43 := by
  intro c hc
  have hmem := List.mem_of_mem_head? hc
  obtain hmem | hmem := List.mem_append.mp hmem
  · exact ⟨(digit_ne (hdigits c hmem)).2.1,(digit_ne (hdigits c hmem)).2.2.1⟩
  · exact ⟨(blank_ne (htrail c hmem)).2.1,(blank_ne (htrail c hmem)).2.2.1⟩

/-- `atoi` skips blanks and takes the digits up to another blank. -/
theorem atoi_digits {gap digits trail : List UInt8} (hgap : ∀ c ∈ gap, isspace c = true)
    (hdigits : ∀ c ∈ digits, isdigit c = true) (htrail : ∀ c ∈ trail, isspace c = true) (hlt : number digits < 2 ^ 31) :
    atoi (gap ++ (digits ++ trail)) = number digits := by
  have hskip : ∃ trail', (gap ++ (digits ++ trail)).dropWhile isspace = digits ++ trail' ∧
      ∀ c ∈ trail', isspace c = true := by
    rw [List.dropWhile_append_of_pos hgap]
    cases digits with
    | nil =>
      refine ⟨[],?_,fun c hc => absurd hc List.not_mem_nil⟩
      rw [List.nil_append,List.nil_append]
      exact List.dropWhile_eq_nil_iff.mpr htrail
    | cons d digits =>
      have hd : isspace d = false := (digit_ne (hdigits d List.mem_cons_self)).1
      exact ⟨trail,List.dropWhile_cons_of_neg (Bool.eq_false_iff.mp hd),htrail⟩
  obtain ⟨trail',hdrop,htrail'⟩ := hskip
  have hhead := head_of_digits hdigits htrail'
  have hneg : ¬ (digits ++ trail').head? = some 45 := fun h => (hhead 45 h).1 rfl
  have hpos : ¬ (digits ++ trail').head? = some 43 := fun h => (hhead 43 h).2 rfl
  rw [atoi]
  simp only [hdrop,hneg,hpos,or_self,if_false,takeWhile_digits hdigits htrail',foldl_number]
  rw [min_eq_right (by omega)]
  exact Int.bmod_eq_of_le (by omega) (by omega)

theorem number_split (digits : List UInt8) (room : ℕ) : number digits =
    10 ^ (digits.drop room).length * number (digits.take room) + number (digits.drop room) := by
  have happend := @Numeral.value_append 10 ((digits.take room).map (fun c => c.toNat - 48))
    ((digits.drop room).map (fun c => c.toNat - 48))
  rw [← List.map_append,List.take_append_drop,List.length_map] at happend
  exact happend

theorem number_take_le (digits : List UInt8) (room : ℕ) : number (digits.take room) ≤ number digits := by
  have hsplit := number_split digits room
  have hpow : 0 < 10 ^ (digits.drop room).length := Nat.pow_pos (by decide)
  have hle : number (digits.take room) ≤ 10 ^ (digits.drop room).length * number (digits.take room) :=
    Nat.le_mul_of_pos_left _ hpow
  omega

/-- The first of some digits are the same number if they are all, or if they are zeros. -/
theorem number_take (digits : List UInt8) (room : ℕ) :
    number (digits.take room) = number digits ↔ number digits = 0 ∨ digits.length ≤ room := by
  constructor
  · intro h
    by_cases hle : digits.length ≤ room
    · exact .inr hle
    · left
      have hsplit := number_split digits room
      obtain ⟨k,hk⟩ : ∃ k, (digits.drop room).length = k + 1 := ⟨digits.length - room - 1,by rw [List.length_drop]; omega⟩
      rw [hk,Nat.pow_succ,h] at hsplit
      have hpow : 0 < 10 ^ k := Nat.pow_pos (by decide)
      have hgrow : number digits ≤ 10 ^ k * number digits := Nat.le_mul_of_pos_left _ hpow
      have hten : 10 ^ k * 10 * number digits = 10 * (10 ^ k * number digits) := by
        rw [Nat.mul_comm (10 ^ k) 10,Nat.mul_assoc]
      omega
  · rintro (hzero | hle)
    · have hle := number_take_le digits room
      omega
    · rw [List.take_of_length_le hle]

/-- What a buffer of some bytes holds of blanks and digits. -/
theorem atoi_take {gap digits trail : List UInt8} (hgap : ∀ c ∈ gap, isspace c = true)
    (hdigits : ∀ c ∈ digits, isdigit c = true) (htrail : ∀ c ∈ trail, isspace c = true) (hlt : number digits < 2 ^ 31)
    (room : ℕ) : atoi ((gap ++ (digits ++ trail)).take room) = number (digits.take (room - gap.length)) := by
  have htake : (gap ++ (digits ++ trail)).take room = gap.take room ++ (digits.take (room - gap.length) ++
      trail.take (room - gap.length - digits.length)) := by
    rw [List.take_append,List.take_append]
  rw [htake]
  exact atoi_digits (fun c hc => hgap c (List.mem_of_mem_take hc)) (fun c hc => hdigits c (List.mem_of_mem_take hc))
    (fun c hc => htrail c (List.mem_of_mem_take hc)) ((number_take_le digits _).trans_lt hlt)

/-! ## The parts of a text -/

section Split
variable {str name gap digits trail : List UInt8}

theorem getLast_append {more : List UInt8} (h : more ≠ []) : ∀ c ∈ (str ++ more).getLast?, c ∈ more := by
  intro c hc
  rw [List.getLast?_append_of_ne_nil _ h] at hc
  exact List.mem_of_mem_getLast? hc

/-- The second scan stops before the digits. -/
theorem Split.unsized_eq (h : Split str name gap digits trail) : unsized str = name ++ gap := by
  have hblank : unblanked ((name ++ gap) ++ digits) = (name ++ gap) ++ digits := by
    refine rdropWhile_stops (fun c hc => ?_)
    by_cases hnil : digits = []
    · rw [hnil,List.append_nil] at hc
      exact h.digits_stop hnil c hc
    · exact (digit_ne (h.digits_digit c (getLast_append hnil c hc))).1
  rw [h.eq,← List.append_assoc,← List.append_assoc,unsized,unblanked,rdropWhile_append h.trail_blank,← unblanked,
    hblank,rdropWhile_append h.digits_digit]
  exact rdropWhile_stops h.gap_stops

/-- The third one stops behind the name. -/
theorem Split.nameOf_eq (h : Split str name gap digits trail) : nameOf str = name := by
  rw [nameOf,h.unsized_eq,unblanked,rdropWhile_append h.gap_blank]
  exact rdropWhile_stops h.name_stops

/-- The scans move where something is behind the name. -/
theorem Split.length_ne (h : Split str name gap digits trail) (hlt : name.length < str.length) :
    (unsized str).length ≠ str.length := by
  intro heq
  have hlength := congrArg List.length h.eq
  rw [h.unsized_eq,List.length_append] at heq
  rw [List.length_append,List.length_append,List.length_append] at hlength
  have hdigits : digits = [] := List.length_eq_zero_iff.mp (by omega)
  have hgap : gap ≠ [] := List.length_pos_iff.mp (by omega)
  have hlast : (name ++ gap).getLast? = some (gap.getLast hgap) := by
    rw [List.getLast?_append_of_ne_nil _ hgap,List.getLast?_eq_some_getLast hgap]
  have hblank := h.gap_blank _ (List.getLast_mem hgap)
  rw [h.digits_stop hdigits _ hlast] at hblank
  exact Bool.false_ne_true hblank

theorem split_rdropWhile (p : UInt8 → Bool) (str : List UInt8) : ∃ more, str = str.rdropWhile p ++ more ∧
    (∀ c ∈ more, p c = true) ∧ ∀ c ∈ (str.rdropWhile p).getLast?, p c = false := by
  refine ⟨str.rtakeWhile p,List.rdropWhile_append_rtakeWhile.symm,fun c => List.mem_rtakeWhile_imp,fun c hc => ?_⟩
  obtain ⟨hne,rfl⟩ := List.mem_getLast?_eq_getLast hc
  exact Bool.eq_false_iff.mpr (List.rdropWhile_last_not p str hne)

/-- Every text has its parts. -/
theorem exists_split (str : List UInt8) : ∃ gap digits trail, Split str (nameOf str) gap digits trail := by
  obtain ⟨trail,htrail,htrailBlank,htrailStops⟩ := split_rdropWhile isspace str
  obtain ⟨digits,hdigits,hdigit,hdigitStops⟩ := split_rdropWhile isdigit (unblanked str)
  obtain ⟨gap,hgap,hgapBlank,hgapStops⟩ := split_rdropWhile isspace (unsized str)
  have hunsized : nameOf str ++ gap = unsized str := hgap.symm
  have hunblanked : unsized str ++ digits = unblanked str := hdigits.symm
  refine ⟨gap,digits,trail,?_,hgapBlank,hdigit,htrailBlank,hgapStops,?_,?_⟩
  · rw [← List.append_assoc,← List.append_assoc,hunsized,hunblanked]
    exact htrail
  · rw [hunsized]
    exact hdigitStops
  · rintro rfl
    rw [hunsized,← List.append_nil (unsized str),hunblanked]
    exact htrailStops

end Split

/-! ## The parts of a font -/

namespace FontText
variable (t : FontText)

/-- The blanks before the size, where they are in front of the last byte that is scanned. -/
def gapIn (n : ℕ) : List UInt8 := t.size.elim [] (fun s => if t.name.length + s.1.length < n then s.1 else [])

/-- The parts of what is scanned, where the name is. -/
theorem split_take {n : ℕ} (h : t.name.length ≤ n) :
    ∃ digits trail, Split (t.bytes.take n) t.name (t.gapIn n) digits trail := by
  have htake : t.bytes.take n = t.name ++ t.rest.take (n - t.name.length) := by
    rw [bytes,List.take_append,List.take_of_length_le h]
  have hstops := t.stops
  -- where no digit is scanned what is behind the name is its trail
  have hblanks : ∀ {trail}, (∀ c ∈ trail, isspace c = true) → Split (t.name ++ trail) t.name [] [] trail := by
    intro trail htrail
    refine ⟨rfl,fun c hc => absurd hc List.not_mem_nil,fun c hc => absurd hc List.not_mem_nil,htrail,
      fun c hc => (hstops c hc).1,?_,fun _ => ?_⟩
    · rw [List.append_nil]
      exact fun c hc => (hstops c hc).2
    · rw [List.append_nil]
      exact fun c hc => (hstops c hc).1
  rw [htake]
  match hsize : t.size with
  | none =>
    have hgap : t.gapIn n = [] := by rw [gapIn,hsize]; rfl
    have hrest : t.rest = t.trail := by rw [rest,hsize]; rfl
    rw [hgap,hrest]
    exact ⟨[],_,hblanks (fun c hc => t.blank c (List.mem_of_mem_take hc))⟩
  | some s =>
    obtain ⟨⟨hgapNe,hgapBlank⟩,⟨hdigitsNe,hdigits⟩,-⟩ := t.sized s hsize
    have hrest : t.rest = s.1 ++ (s.2 ++ t.trail) := by rw [rest,hsize]; exact List.append_assoc _ _ _
    have hgap : t.gapIn n = if t.name.length + s.1.length < n then s.1 else [] := by rw [gapIn,hsize]; rfl
    rw [hgap,hrest]
    split_ifs with hroom
    · refine ⟨s.2.take (n - t.name.length - s.1.length),t.trail.take (n - t.name.length - s.1.length - s.2.length),?_,
        hgapBlank,fun c hc => hdigits c (List.mem_of_mem_take hc),fun c hc => t.blank c (List.mem_of_mem_take hc),
        fun c hc => (hstops c hc).1,fun c hc => (blank_ne (hgapBlank c (getLast_append hgapNe c hc))).1,fun hnil => ?_⟩
      · rw [List.take_append,List.take_append,List.take_of_length_le (by omega)]
      · obtain hzero | hnil := List.take_eq_nil_iff.mp hnil
        · omega
        · exact absurd hnil hdigitsNe
    · rw [List.take_append_of_le_length (by omega)]
      exact ⟨[],_,hblanks (fun c hc => hgapBlank c (List.mem_of_mem_take hc))⟩

theorem nulFree_bytes : (0 : UInt8) ∉ t.bytes := by
  have hblank : ∀ {str : List UInt8}, (∀ c ∈ str, isspace c = true) → (0 : UInt8) ∉ str :=
    fun h hmem => (blank_ne (h 0 hmem)).2.2.2 rfl
  have hdigit : ∀ {str : List UInt8}, (∀ c ∈ str, isdigit c = true) → (0 : UInt8) ∉ str :=
    fun h hmem => (digit_ne (h 0 hmem)).2.2.2 rfl
  have hsize : (0 : UInt8) ∉ t.size.elim [] (fun s => s.1 ++ s.2) := by
    match hsize : t.size with
    | none => exact List.not_mem_nil
    | some s =>
      obtain ⟨⟨-,hgap⟩,⟨-,hdigits⟩,-⟩ := t.sized s hsize
      exact fun hmem => (List.mem_append.mp hmem).elim (hblank hgap) (hdigit hdigits)
  intro hmem
  obtain hmem | hmem := List.mem_append.mp hmem
  · exact t.nulFree hmem
  · exact (List.mem_append.mp hmem).elim hsize (hblank t.blank)

def font : CString := ⟨t.bytes,t.nulFree_bytes⟩

theorem font_bytes : t.font.bytes = t.bytes := rfl

end FontText

/-- What is returned is a name that fits, with the number that is read behind it. -/
theorem parseFont_eq_some {font : CString} {maxlen : ℕ} {name : List UInt8} {size : ℤ} (hne : font.bytes.take maxlen ≠ [])
    (hname : name ≠ []) : parseFont font maxlen = .ok (some (name,size)) ↔
      nameOf (font.bytes.take maxlen) = name ∧ name.length < faceLen ∧
      atoi (if (unsized (font.bytes.take maxlen)).length = (font.bytes.take maxlen).length then [49,50]
        else (font.bytes.drop (unsized (font.bytes.take maxlen)).length).take 15) = size := by
  rw [parseFont_eq hne]
  generalize atoi _ = number
  constructor
  · intro h
    split_ifs at h with hnil hlen
    obtain ⟨rfl,rfl⟩ := Prod.mk.inj (Option.some.inj (Except.ok.inj h))
    exact ⟨rfl,hlen,rfl⟩
  · rintro ⟨rfl,hlen,rfl⟩
    rw [if_neg hname,if_pos (Nat.succ_le_of_lt hlen)]

section Fits
variable (t : FontText)

/-- What is before the number that is read: the name, and the blanks if they are in front of the last byte. -/
theorem unsized_take {n : ℕ} (h : t.name.length ≤ n) : unsized (t.bytes.take n) = t.name ++ t.gapIn n := by
  obtain ⟨digits,trail,hsplit⟩ := t.split_take h
  exact hsplit.unsized_eq

theorem nameOf_take {n : ℕ} (h : t.name.length ≤ n) : nameOf (t.bytes.take n) = t.name := by
  obtain ⟨digits,trail,hsplit⟩ := t.split_take h
  exact hsplit.nameOf_eq

theorem take_ne_nil : t.bytes.take faceLenWithSize ≠ [] := by
  intro h
  obtain h | h := List.take_eq_nil_iff.mp h
  · exact absurd h (by decide)
  · exact t.named (List.append_eq_nil_iff.mp h).1

/-- The number that is read where the name fits. -/
theorem number_of_short (hlen : t.name.length < faceLen) :
    atoi (if (unsized (t.bytes.take faceLenWithSize)).length = (t.bytes.take faceLenWithSize).length then [49,50]
      else (t.bytes.drop (unsized (t.bytes.take faceLenWithSize)).length).take 15) = t.points ↔
    t.size.elim (t.trail = []) (fun s => number s.2 = 0 ∨
      s.2.length + (if t.name.length + s.1.length < faceLenWithSize then 0 else s.1.length) ≤ 15) := by
  have hface : faceLen = 64 := rfl
  have hwith : faceLenWithSize = 68 := rfl
  have hbytes : t.bytes = t.name ++ t.rest := rfl
  rw [unsized_take t (by omega),List.length_take,hbytes,List.length_append,List.length_append]
  match hsize : t.size with
  | none =>
    have hrest : t.rest = t.trail := by rw [FontText.rest,hsize]; rfl
    have hgap : t.gapIn faceLenWithSize = [] := by rw [FontText.gapIn,hsize]; rfl
    have hpoints : t.points = 12 := by rw [FontText.points,hsize]; rfl
    rw [hrest,hgap,hpoints,List.length_nil,Nat.add_zero,List.drop_left,Option.elim_none]
    by_cases htrail : t.trail = []
    · rw [htrail,List.length_nil,if_pos (by omega)]
      exact ⟨fun _ => rfl,fun _ => by decide⟩
    · have hpos := List.length_pos_iff.mpr htrail
      have hread : atoi (t.trail.take 15) = 0 := by
        have htake := @atoi_take [] [] t.trail (by simp) (by simp) t.blank (by decide) 15
        rw [List.take_nil] at htake
        exact htake
      rw [if_neg (by omega),hread]
      exact ⟨fun h => absurd h (by decide),fun h => absurd h htrail⟩
  | some s =>
    obtain ⟨⟨hgapNe,hgapBlank⟩,⟨hdigitsNe,hdigits⟩,hlt⟩ := t.sized s hsize
    have hrest : t.rest = s.1 ++ (s.2 ++ t.trail) := by rw [FontText.rest,hsize]; exact List.append_assoc _ _ _
    have hgap : t.gapIn faceLenWithSize = if t.name.length + s.1.length < faceLenWithSize then s.1 else [] := by
      rw [FontText.gapIn,hsize]; rfl
    have hpoints : t.points = number s.2 := by rw [FontText.points,hsize]; rfl
    have hgapPos := List.length_pos_iff.mpr hgapNe
    have hdigitsPos := List.length_pos_iff.mpr hdigitsNe
    rw [hrest,hgap,hpoints,Option.elim_some,List.length_append,List.length_append]
    split_ifs with hroom hmoved hmoved
    · omega
    · have hread := @atoi_take [] s.2 t.trail (by simp) hdigits t.blank hlt 15
      rw [List.nil_append,List.length_nil,Nat.sub_zero] at hread
      rw [← List.append_assoc,← List.length_append,List.drop_left,hread,Nat.cast_inj,number_take,Nat.add_zero]
    · rw [List.length_nil] at hmoved
      omega
    · rw [List.length_nil,Nat.add_zero,List.drop_left,atoi_take hgapBlank hdigits t.blank hlt,Nat.cast_inj,number_take]
      exact or_congr_right (by omega)

/-- A font is parsed to its name, as much of it as fits, and its size exactly where it `Fits`. -/
theorem parseFont_iff : parseFont t.font faceLenWithSize = .ok (some (t.name.take (faceLen - 1),(t.points : ℤ))) ↔
    Fits t := by
  have hface : faceLen = 64 := rfl
  have hwith : faceLenWithSize = 68 := rfl
  have hnamePos := List.length_pos_iff.mpr t.named
  have hname : t.name.take (faceLen - 1) ≠ [] := by
    rw [← List.length_pos_iff,List.length_take]
    omega
  have hnameLt : (t.name.take (faceLen - 1)).length < faceLen := by
    rw [List.length_take]
    omega
  rw [parseFont_eq_some (take_ne_nil t) hname,Fits,t.font_bytes]
  by_cases hlen : t.name.length < faceLen
  · rw [if_pos hlen,number_of_short t hlen,nameOf_take t (by omega),List.take_of_length_le (by omega)]
    exact ⟨fun h => h.2.2,fun h => ⟨rfl,hlen,h⟩⟩
  · rw [if_neg hlen]
    by_cases hlong : faceLenWithSize ≤ t.name.length
    · have htake : t.bytes.take faceLenWithSize = t.name.take faceLenWithSize := List.take_append_of_le_length hlong
      have hlt : (t.name.take (faceLen - 1)).length < (t.name.take faceLenWithSize).length := by
        rw [List.length_take,List.length_take]
        omega
      rw [htake]
      constructor
      · rintro ⟨hnameOf,-,hnumber⟩
        obtain ⟨gap,digits,trail,hsplit⟩ := exists_split (t.name.take faceLenWithSize)
        rw [hnameOf] at hsplit
        refine ⟨hlong,gap,digits,trail,hsplit,?_⟩
        rw [if_neg (hsplit.length_ne hlt),hsplit.unsized_eq,List.length_append,List.length_take,Nat.min_eq_left (by omega)] at hnumber
        exact hnumber
      · rintro ⟨-,gap,digits,trail,hsplit,hnumber⟩
        refine ⟨hsplit.nameOf_eq,hnameLt,?_⟩
        rw [if_neg (hsplit.length_ne hlt),hsplit.unsized_eq,List.length_append,List.length_take,Nat.min_eq_left (by omega)]
        exact hnumber
    · constructor
      · rintro ⟨hnameOf,-⟩
        rw [nameOf_take t (by omega)] at hnameOf
        have hlength := congrArg List.length hnameOf
        rw [List.length_take] at hlength
        omega
      · exact fun h => absurd h.1 hlong

end Fits

/-- Blanks behind a name are a size of 0. -/
theorem not_parseFont : ¬ ∀ t : FontText,
    parseFont t.font faceLenWithSize = .ok (some (t.name.take (faceLen - 1),(t.points : ℤ))) := by
  intro h
  have hparsed := h ⟨[97],none,[32],by decide,by decide +kernel,by decide +kernel,by simp,by decide +kernel⟩
  exact absurd hparsed (by decide)

end Edelib.Font
