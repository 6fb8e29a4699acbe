import Edelib.Foundation.CInt
import Edelib.Foundation.Numeral
import Edelib.Text.StrUtil

/-! # Colours and their HTML names

A name in one of the documented forms is a triplet of groups of one, two or three digits. One number is
read from the digits of the longer forms, and of it the three lowest bytes are taken.
-/
namespace Edelib.Color
open Foundation Foundation.CInt StrUtil

/-- `fltk_cmap.h` -/
def fltkColomap : List (BitVec 32) :=
  [0x00000000,0xff000000,0x00ff0000,0xffff0000,0x0000ff00,0xff00ff00,0x00ffff00,0xffffff00,0x55555500,0xc6717100,
  0x71c67100,0x8e8e3800,0x7171c600,0x8e388e00,0x388e8e00,0x00008000,0xa8a89800,0xe8e8d800,0x68685800,0x98a8a800,
  0xd8e8e800,0x58686800,0x9c9ca800,0xdcdce800,0x5c5c6800,0x9ca89c00,0xdce8dc00,0x5c685c00,0x90909000,0xc0c0c000,
  0x50505000,0xa0a0a000,0x00000000,0x0d0d0d00,0x1a1a1a00,0x26262600,0x31313100,0x3d3d3d00,0x48484800,0x55555500,
  0x5f5f5f00,0x6a6a6a00,0x75757500,0x80808000,0x8a8a8a00,0x95959500,0xa0a0a000,0xaaaaaa00,0xb5b5b500,0xc0c0c000,
  0xcbcbcb00,0xd5d5d500,0xe0e0e000,0xeaeaea00,0xf5f5f500,0xffffff00,0x00000000,0x00240000,0x00480000,0x006d0000,
  0x00910000,0x00b60000,0x00da0000,0x00ff0000,0x3f000000,0x3f240000,0x3f480000,0x3f6d0000,0x3f910000,0x3fb60000,
  0x3fda0000,0x3fff0000,0x7f000000,0x7f240000,0x7f480000,0x7f6d0000,0x7f910000,0x7fb60000,0x7fda0000,0x7fff0000,
  0xbf000000,0xbf240000,0xbf480000,0xbf6d0000,0xbf910000,0xbfb60000,0xbfda0000,0xbfff0000,0xff000000,0xff240000,
  0xff480000,0xff6d0000,0xff910000,0xffb60000,0xffda0000,0xffff0000,0x00003f00,0x00243f00,0x00483f00,0x006d3f00,
  0x00913f00,0x00b63f00,0x00da3f00,0x00ff3f00,0x3f003f00,0x3f243f00,0x3f483f00,0x3f6d3f00,0x3f913f00,0x3fb63f00,
  0x3fda3f00,0x3fff3f00,0x7f003f00,0x7f243f00,0x7f483f00,0x7f6d3f00,0x7f913f00,0x7fb63f00,0x7fda3f00,0x7fff3f00,
  0xbf003f00,0xbf243f00,0xbf483f00,0xbf6d3f00,0xbf913f00,0xbfb63f00,0xbfda3f00,0xbfff3f00,0xff003f00,0xff243f00,
  0xff483f00,0xff6d3f00,0xff913f00,0xffb63f00,0xffda3f00,0xffff3f00,0x00007f00,0x00247f00,0x00487f00,0x006d7f00,
  0x00917f00,0x00b67f00,0x00da7f00,0x00ff7f00,0x3f007f00,0x3f247f00,0x3f487f00,0x3f6d7f00,0x3f917f00,0x3fb67f00,
  0x3fda7f00,0x3fff7f00,0x7f007f00,0x7f247f00,0x7f487f00,0x7f6d7f00,0x7f917f00,0x7fb67f00,0x7fda7f00,0x7fff7f00,
  0xbf007f00,0xbf247f00,0xbf487f00,0xbf6d7f00,0xbf917f00,0xbfb67f00,0xbfda7f00,0xbfff7f00,0xff007f00,0xff247f00,
  0xff487f00,0xff6d7f00,0xff917f00,0xffb67f00,0xffda7f00,0xffff7f00,0x0000bf00,0x0024bf00,0x0048bf00,0x006dbf00,
  0x0091bf00,0x00b6bf00,0x00dabf00,0x00ffbf00,0x3f00bf00,0x3f24bf00,0x3f48bf00,0x3f6dbf00,0x3f91bf00,0x3fb6bf00,
  0x3fdabf00,0x3fffbf00,0x7f00bf00,0x7f24bf00,0x7f48bf00,0x7f6dbf00,0x7f91bf00,0x7fb6bf00,0x7fdabf00,0x7fffbf00,
  0xbf00bf00,0xbf24bf00,0xbf48bf00,0xbf6dbf00,0xbf91bf00,0xbfb6bf00,0xbfdabf00,0xbfffbf00,0xff00bf00,0xff24bf00,
  0xff48bf00,0xff6dbf00,0xff91bf00,0xffb6bf00,0xffdabf00,0xffffbf00,0x0000ff00,0x0024ff00,0x0048ff00,0x006dff00,
  0x0091ff00,0x00b6ff00,0x00daff00,0x00ffff00,0x3f00ff00,0x3f24ff00,0x3f48ff00,0x3f6dff00,0x3f91ff00,0x3fb6ff00,
  0x3fdaff00,0x3fffff00,0x7f00ff00,0x7f24ff00,0x7f48ff00,0x7f6dff00,0x7f91ff00,0x7fb6ff00,0x7fdaff00,0x7fffff00,
  0xbf00ff00,0xbf24ff00,0xbf48ff00,0xbf6dff00,0xbf91ff00,0xbfb6ff00,0xbfdaff00,0xbfffff00,0xff00ff00,0xff24ff00,
  0xff48ff00,0xff6dff00,0xff91ff00,0xffb6ff00,0xffdaff00,0xffffff00]

/-! ## The functions -/

def hex2int (hex : UInt8) : BitVec 32 :=
  if 48 ≤ hex ∧ hex ≤ 57 then hex.toBitVec.setWidth 32 - 48
  else if 97 ≤ hex ∧ hex ≤ 102 then hex.toBitVec.setWidth 32 - 97 + 10
  else if 65 ≤ hex ∧ hex ≤ 70 then hex.toBitVec.setWidth 32 - 65 + 10
  else -1

def colorRgbToFltk (r g b : UInt8) : BitVec 32 :=
  (r.toBitVec.setWidth 32 <<< 24) + (g.toBitVec.setWidth 32 <<< 16) + (b.toBitVec.setWidth 32 <<< 8)

def colorFltkToRgb (color : BitVec 32) : UInt8 × UInt8 × UInt8 :=
  let color := if color > 0 ∧ color &&& 0xffffff00 = 0 then fltkColomap.getD color.toNat 0 else color
  (⟨(color >>> 24).setWidth 8⟩,⟨((color >>> 16) &&& 0xff).setWidth 8⟩,⟨((color >>> 8) &&& 0xff).setWidth 8⟩)

def digitValue (c : UInt8) : Option ℕ :=
  if 48 ≤ c ∧ c ≤ 57 then some (c.toNat - 48)
  else if 97 ≤ c ∧ c ≤ 102 then some (c.toNat - 87)
  else if 65 ≤ c ∧ c ≤ 70 then some (c.toNat - 55)
  else none

def numeral (str : List UInt8) : Bool × List ℕ :=
  let str := str.dropWhile isspace
  let neg := decide (str.head? = some 45)
  let str := if neg ∨ str.head? = some 43 then str.tail else str
  let str := match str with
    | 48 :: x :: c :: rest => if (x = 120 ∨ x = 88) ∧ (digitValue c).isSome then c :: rest else str
    | _ => str
  (neg,(str.takeWhile (fun c => (digitValue c).isSome)).filterMap digitValue)

/-- `strtol` with base 16, a `long` of 64 bits. -/
def strtol (str : List UInt8) : ℤ :=
  let (neg,digits) := numeral str
  if neg then max (-2 ^ 63) (-(Numeral.value 16 digits : ℤ)) else min (2 ^ 63 - 1) (Numeral.value 16 digits : ℤ)

/-- There is no result where the length is the least `int`. -/
def colorHtmlToFltk (col : Option CString) : Option (BitVec 32) :=
  col.elim (pure 0) (fun col =>
    if col.bytes.head? ≠ some 35 then pure 0
    else do
      let len ← checked (ofSize col.strlen - 1)
      if len.tmod 3 = 0 ∧ len > 3 then
        let rgb : BitVec 32 := .ofInt 32 (strtol (col.bytes.drop 1))
        let r := rgb.sshiftRight 16
        let g := rgb.sshiftRight 8 &&& 255
        let b := rgb &&& 255
        pure (colorRgbToFltk ⟨r.setWidth 8⟩ ⟨g.setWidth 8⟩ ⟨b.setWidth 8⟩)
      else if len = 3 then
        let r := hex2int (col.bytes.getD 1 0) * 0x11
        let g := hex2int (col.bytes.getD 2 0) * 0x11
        let b := hex2int (col.bytes.getD 3 0) * 0x11
        pure (colorRgbToFltk ⟨r.setWidth 8⟩ ⟨g.setWidth 8⟩ ⟨b.setWidth 8⟩)
      else pure 0)

def hexDigit (d : ℕ) : UInt8 := if d < 10 then .ofNat (48 + d) else .ofNat (87 + d)

/-- `%02x` -/
def hex02 (c : UInt8) : List UInt8 := [hexDigit (c.toNat / 16),hexDigit (c.toNat % 16)]

/-- `snprintf` to a buffer of 8 bytes. -/
def colorFltkToHtml (color : BitVec 32) : CString :=
  let (r,g,b) := colorFltkToRgb color
  .ofBuf ((35 :: (hex02 r ++ hex02 g ++ hex02 b)).take 7)

def colorRgbToHtml (r g b : UInt8) : CString := colorFltkToHtml (colorRgbToFltk r g b)

def colorHtmlToRgb (buf : CString) : Option (UInt8 × UInt8 × UInt8) :=
  (colorHtmlToFltk (some buf)).map colorFltkToRgb

/-! ## What is documented -/

def triplet (col : CString) : Option (List ℕ) :=
  match col.bytes with
  | 35 :: digits =>
    if digits.all (fun c => (digitValue c).isSome) ∧ (digits.length = 3 ∨ digits.length = 6 ∨ digits.length = 9) then
      some (digits.filterMap digitValue)
    else none
  | _ => none

/-- A group of digits scaled to 8 bits: one is repeated, and of three the highest bits are taken. -/
def channel : List ℕ → UInt8
  | [] => 0
  | [d] => .ofNat (16 * d + d)
  | d₁ :: d₂ :: _ => .ofNat (16 * d₁ + d₂)

/-- The colour of the three groups; everything else is black. -/
def documented (col : CString) : BitVec 32 :=
  (triplet col).elim 0 (fun digits =>
    let n := digits.length / 3
    colorRgbToFltk (channel (digits.take n)) (channel ((digits.drop n).take n)) (channel (digits.drop (2 * n))))

/-- The number that the text begins with is a multiple of 2^24, or is below every `long`. -/
def Vanishes (str : List UInt8) : Prop :=
  let (neg,digits) := numeral str
  if neg then Numeral.value 16 digits % 2 ^ 24 = 0 ∨ 2 ^ 63 ≤ Numeral.value 16 digits
  else Numeral.value 16 digits % 2 ^ 24 = 0 ∧ Numeral.value 16 digits < 2 ^ 63

/-- Where black is to be given: the length is an `int`, what is taken for three digits are zeros, and what is
taken for a longer triplet vanishes. -/
def Refused (col : CString) : Prop :=
  ofSize col.strlen ≠ INT_MIN ∧
    (ofSize col.strlen - 1 = 3 → (col.bytes.drop 1).take 3 = [48,48,48]) ∧
      (3 < ofSize col.strlen - 1 → (ofSize col.strlen - 1) % 3 = 0 → Vanishes (col.bytes.drop 1))

/-- Of nine digits the first, the fourth and the sixth are the same, and the second, the fifth and those from
the seventh on. -/
def Even : List ℕ → Prop
  | [d₁,d₂,_,d₄,d₅,d₆,d₇,d₈,d₉] => d₁ = d₄ ∧ d₄ = d₆ ∧ d₂ = d₅ ∧ d₅ = d₇ ∧ d₇ = d₈ ∧ d₈ = d₉
  | _ => True

/-- A triplet of nine digits is even, and what is no triplet is refused. -/
def Meets (col : CString) : Prop := col.bytes.head? = some 35 → (triplet col).elim (Refused col) Even

/-! ## Channels -/

theorem toNat_colorRgbToFltk (r g b : UInt8) :
    (colorRgbToFltk r g b).toNat = 16777216 * r.toNat + 65536 * g.toNat + 256 * b.toNat := by
  have hr := r.toNat_lt
  have hg := g.toNat_lt
  have hb := b.toNat_lt
  simp only [colorRgbToFltk,BitVec.toNat_add,BitVec.toNat_shiftLeft,BitVec.toNat_setWidth,UInt8.toNat_toBitVec,
    Nat.shiftLeft_eq]
  omega

theorem colorRgbToFltk_inj {r g b r' g' b' : UInt8} :
    colorRgbToFltk r g b = colorRgbToFltk r' g' b' ↔ r = r' ∧ g = g' ∧ b = b' := by
  have hg := g.toNat_lt
  have hb := b.toNat_lt
  have hg' := g'.toNat_lt
  have hb' := b'.toNat_lt
  rw [← BitVec.toNat_inj,toNat_colorRgbToFltk,toNat_colorRgbToFltk,← UInt8.toNat_inj,← UInt8.toNat_inj,← UInt8.toNat_inj]
  omega

theorem colorRgbToFltk_zero {r g b : UInt8} : colorRgbToFltk r g b = 0 ↔ r = 0 ∧ g = 0 ∧ b = 0 :=
  @colorRgbToFltk_inj r g b 0 0 0

theorem toNat_and_255 (x : BitVec 32) : (x &&& 255).toNat = x.toNat % 256 :=
  Nat.and_two_pow_sub_one_eq_mod x.toNat 8

/-- Where the three higher bytes are masked out the number is that of a colour in the table. -/
theorem toNat_lt_of_mask {x : BitVec 32} (h : x &&& 0xffffff00 = 0) : x.toNat < 256 := by
  have hmask : (0xffffff00 : BitVec 32) = BitVec.allOnes 32 <<< 8 := rfl
  have hshift : x >>> 8 = (x &&& 0xffffff00) >>> 8 := by
    rw [hmask]
    apply BitVec.eq_of_getLsbD_eq
    intro i hi
    simp only [BitVec.getLsbD_ushiftRight,BitVec.getLsbD_and,BitVec.getLsbD_shiftLeft,BitVec.getLsbD_allOnes]
    by_cases hi' : 8 + i < 32
    · simp [hi',hi]
    · simp [BitVec.getLsbD_of_ge x (8 + i) (by omega)]
  have hzero := congrArg BitVec.toNat hshift
  rw [h,BitVec.toNat_ushiftRight,Nat.shiftRight_eq_div_pow] at hzero
  have hdiv : x.toNat / 2 ^ 8 = 0 := hzero
  omega

/-- A colour that is made of channels is not taken for one of the table. -/
theorem colorFltkToRgb_rgb (r g b : UInt8) : colorFltkToRgb (colorRgbToFltk r g b) = (r,g,b) := by
  have hr := r.toNat_lt
  have hg := g.toNat_lt
  have hb := b.toNat_lt
  have hcolor := toNat_colorRgbToFltk r g b
  have hdirect : ¬ (colorRgbToFltk r g b > 0 ∧ colorRgbToFltk r g b &&& 0xffffff00 = 0) := by
    rintro ⟨hpos,hmask⟩
    have hlt := toNat_lt_of_mask hmask
    have hpos' : 0 < (colorRgbToFltk r g b).toNat := hpos
    omega
  rw [colorFltkToRgb,if_neg hdirect]
  refine Prod.ext ?_ (Prod.ext ?_ ?_)
  all_goals
    apply UInt8.toNat_inj.mp
    change BitVec.toNat _ = _
    simp only [BitVec.toNat_setWidth,toNat_and_255,BitVec.toNat_ushiftRight,Nat.shiftRight_eq_div_pow,hcolor]
    omega

/-! ## Longer triplets -/

def numberColor (n : ℤ) : BitVec 32 :=
  let rgb : BitVec 32 := .ofInt 32 n
  colorRgbToFltk ⟨(rgb.sshiftRight 16).setWidth 8⟩ ⟨(rgb.sshiftRight 8 &&& 255).setWidth 8⟩ ⟨(rgb &&& 255).setWidth 8⟩

/-- A shift that keeps the sign brings down the same byte. -/
theorem setWidth_sshiftRight (x : BitVec 32) {n : ℕ} (h : n + 8 ≤ 32) :
    (x.sshiftRight n).setWidth 8 = (x >>> n).setWidth 8 := by
  apply BitVec.eq_of_getLsbD_eq
  intro i hi
  simp only [BitVec.getLsbD_setWidth,BitVec.getLsbD_sshiftRight,BitVec.getLsbD_ushiftRight]
  have hin : n + i < 32 := by omega
  have hnot : ¬ 32 ≤ i := by omega
  simp [hin,hnot]

theorem setWidth_and_255 (x : BitVec 32) : (x &&& 255).setWidth 8 = x.setWidth 8 := by
  apply BitVec.eq_of_toNat_eq
  rw [BitVec.toNat_setWidth,BitVec.toNat_setWidth,toNat_and_255]
  exact Nat.mod_mod x.toNat 256

theorem numberColor_eq {n : ℤ} {m : ℕ} (h : n % 16777216 = m % 16777216) :
    numberColor n = colorRgbToFltk (.ofNat (m / 65536)) (.ofNat (m / 256)) (.ofNat m) := by
  have hrgb : (BitVec.ofInt 32 n).toNat = (n % 4294967296).toNat := BitVec.toNat_ofInt n
  rw [numberColor,colorRgbToFltk_inj]
  refine ⟨?_,?_,?_⟩
  · apply UInt8.toNat_inj.mp
    change BitVec.toNat _ = _
    rw [setWidth_sshiftRight _ (by decide)]
    simp only [BitVec.toNat_setWidth,BitVec.toNat_ushiftRight,Nat.shiftRight_eq_div_pow,hrgb,UInt8.toNat_ofNat']
    omega
  · apply UInt8.toNat_inj.mp
    change BitVec.toNat _ = _
    rw [setWidth_and_255,setWidth_sshiftRight _ (by decide)]
    simp only [BitVec.toNat_setWidth,BitVec.toNat_ushiftRight,Nat.shiftRight_eq_div_pow,hrgb,UInt8.toNat_ofNat']
    omega
  · apply UInt8.toNat_inj.mp
    change BitVec.toNat _ = _
    simp only [BitVec.toNat_setWidth,toNat_and_255,hrgb,UInt8.toNat_ofNat']
    omega

theorem numberColor_zero {n : ℤ} : numberColor n = 0 ↔ n % 16777216 = 0 := by
  have heq : n % 16777216 = ((n % 16777216).toNat : ℤ) % 16777216 := by omega
  rw [numberColor_eq heq,colorRgbToFltk_zero,← UInt8.toNat_inj,← UInt8.toNat_inj,← UInt8.toNat_inj]
  simp only [UInt8.toNat_ofNat',UInt8.toNat_zero]
  omega

/-! ## Digits -/

theorem toNat_hex2int {c : UInt8} {d : ℕ} (h : digitValue c = some d) : d < 16 ∧ hex2int c = BitVec.ofNat 32 d := by
  have hc := c.toNat_lt
  rw [digitValue] at h
  rw [hex2int]
  simp only [UInt8.le_iff_toNat_le] at h ⊢
  split_ifs at h ⊢ <;>
  · cases h
    simp only [UInt8.reduceToNat] at *
    refine ⟨by omega,BitVec.eq_of_toNat_eq ?_⟩
    simp only [BitVec.toNat_add,BitVec.toNat_sub,BitVec.toNat_setWidth,BitVec.toNat_ofNat,UInt8.toNat_toBitVec,
      BitVec.reduceToNat]
    omega

/-- The digits are none of the characters that `strtol` takes for something else. -/
theorem not_special {c : UInt8} (h : (digitValue c).isSome = true) :
    isspace c = false ∧ c ≠ 45 ∧ c ≠ 43 ∧ c ≠ 120 ∧ c ≠ 88 := by
  rw [digitValue] at h
  simp only [UInt8.le_iff_toNat_le,UInt8.reduceToNat] at h
  simp only [isspace,← UInt8.toNat_inj,UInt8.reduceToNat,ne_eq,Bool.or_eq_false_iff,beq_eq_false_iff_ne]
  split_ifs at h
  · omega
  · omega
  · omega
  · cases h

theorem hex2int_of_none {c : UInt8} (h : digitValue c = none) : hex2int c = -1 := by
  rw [digitValue] at h
  rw [hex2int]
  split_ifs at h ⊢
  rfl

/-- A single digit, repeated. -/
theorem repeated_eq {c : UInt8} {d : ℕ} (h : digitValue c = some d) :
    (⟨(hex2int c * 0x11).setWidth 8⟩ : UInt8) = .ofNat (16 * d + d) := by
  obtain ⟨hd,hhex⟩ := toNat_hex2int h
  apply UInt8.toNat_inj.mp
  change BitVec.toNat _ = _
  rw [hhex]
  simp only [BitVec.toNat_setWidth,BitVec.toNat_mul,BitVec.toNat_ofNat,UInt8.toNat_ofNat',BitVec.reduceToNat]
  omega

theorem digitValue_eq_zero {c : UInt8} : digitValue c = some 0 ↔ c = 48 := by
  constructor
  · intro h
    rw [digitValue] at h
    simp only [UInt8.le_iff_toNat_le,UInt8.reduceToNat] at h
    rw [← UInt8.toNat_inj]
    change _ = 48
    split_ifs at h <;>
    · have hd := Option.some.inj h
      omega
  · rintro rfl
    rfl

/-- What is taken for a single digit is black only if it is a zero. -/
theorem repeated_zero {c : UInt8} : (⟨(hex2int c * 0x11).setWidth 8⟩ : UInt8) = 0 ↔ c = 48 := by
  cases h : digitValue c with
  | none =>
    rw [hex2int_of_none h]
    refine iff_of_false (by decide) ?_
    rintro rfl
    cases h
  | some d =>
    have hd := (toNat_hex2int h).1
    rw [repeated_eq h,← digitValue_eq_zero,h,← UInt8.toNat_inj,UInt8.toNat_ofNat',Option.some_inj]
    change _ = 0 ↔ _
    omega

theorem map_digitValue {str : List UInt8} (h : ∀ c ∈ str, (digitValue c).isSome) :
    str.map digitValue = (str.filterMap digitValue).map some := by
  induction str with
  | nil => rfl
  | cons c str ih =>
    obtain ⟨hc,hstr⟩ := List.forall_mem_cons.mp h
    obtain ⟨d,hd⟩ := Option.isSome_iff_exists.mp hc
    rw [List.map_cons,List.filterMap_cons_some hd,List.map_cons,ih hstr,hd]

theorem length_digits {str : List UInt8} (h : ∀ c ∈ str, (digitValue c).isSome) :
    (str.filterMap digitValue).length = str.length := by
  have hlength := congrArg List.length (map_digitValue h)
  rwa [List.length_map,List.length_map,eq_comm] at hlength

theorem digits_lt (str : List UInt8) : ∀ d ∈ str.filterMap digitValue, d < 16 := by
  intro d hd
  obtain ⟨c,-,hc⟩ := List.mem_filterMap.mp hd
  exact (toNat_hex2int hc).1

theorem numeral_of_digits {str : List UInt8} (h : ∀ c ∈ str, (digitValue c).isSome) :
    numeral str = (false,str.filterMap digitValue) := by
  have hall : str.takeWhile (fun c => (digitValue c).isSome) = str := List.takeWhile_eq_self_iff.mpr h
  cases str with
  | nil => rfl
  | cons c rest =>
    obtain ⟨hspace,hminus,hplus,-,-⟩ := not_special (h c List.mem_cons_self)
    have hskip : (c :: rest).dropWhile isspace = c :: rest := List.dropWhile_cons_of_neg (by rw [hspace]; exact Bool.false_ne_true)
    rw [numeral,hskip]
    simp only [List.head?_cons,Option.some_inj,hminus,hplus,decide_false,Bool.false_eq_true,or_self,if_false]
    split
    · rename_i x c' rest' heq
      obtain ⟨-,-,-,hx,hX⟩ := not_special (h x (by rw [heq]; simp))
      rw [if_neg (fun hand => hand.1.elim hx hX),hall]
    · rw [hall]

/-! ## Names -/

def digitsColor (r g b : UInt8) : BitVec 32 :=
  colorRgbToFltk ⟨(hex2int r * 0x11).setWidth 8⟩ ⟨(hex2int g * 0x11).setWidth 8⟩ ⟨(hex2int b * 0x11).setWidth 8⟩

variable {col : CString} {digits : List UInt8}

theorem colorHtmlToFltk_black (h : col.bytes.head? ≠ some 35) : colorHtmlToFltk (some col) = some 0 := if_pos h

theorem colorHtmlToFltk_sharp (h : col.bytes = 35 :: digits) :
    colorHtmlToFltk (some col) = (checked (ofSize col.strlen - 1)).map (fun len =>
      if len.tmod 3 = 0 ∧ len > 3 then numberColor (strtol digits)
      else if len = 3 then digitsColor (digits.getD 0 0) (digits.getD 1 0) (digits.getD 2 0) else 0) := by
  rw [colorHtmlToFltk,Option.elim_some,h,if_neg (by simp)]
  change (checked (ofSize col.strlen - 1)).bind _ = _
  cases checked (ofSize col.strlen - 1) with
  | none => rfl
  | some len =>
    rw [Option.map_some,Option.bind_some]
    split_ifs <;> rfl

theorem vanishes_iff (str : List UInt8) : numberColor (strtol str) = 0 ↔ Vanishes str := by
  rw [numberColor_zero,strtol,Vanishes]
  cases numeral str with
  | mk neg ds =>
    dsimp only
    cases neg
    · simp only [Bool.false_eq_true,if_false]
      omega
    · simp only [if_true]
      omega

theorem digitsColor_zero {r g b : UInt8} : digitsColor r g b = 0 ↔ r = 48 ∧ g = 48 ∧ b = 48 := by
  rw [digitsColor,colorRgbToFltk_zero,repeated_zero,repeated_zero,repeated_zero]

theorem length_of_ofSize {n : ℕ} (h : ofSize n - 1 = 3) : 4 ≤ n := by
  rw [ofSize_eq] at h
  split_ifs at h <;> omega

/-- What is no triplet gives black if it is refused. -/
theorem black_iff (h : col.bytes = 35 :: digits) : colorHtmlToFltk (some col) = some 0 ↔ Refused col := by
  have hlen : col.strlen = digits.length + 1 := congrArg List.length h
  have hint := isInt_ofSize col.strlen
  rw [isInt_iff] at hint
  rw [colorHtmlToFltk_sharp h,Refused,h,List.drop_one,List.tail_cons]
  by_cases hover : ofSize col.strlen = INT_MIN
  · have hnone : checked (ofSize col.strlen - 1) = none := by
      rw [hover]
      decide
    rw [hnone]
    exact iff_of_false (Option.some_ne_none _).symm (fun hr => hr.1 hover)
  · have hsome : checked (ofSize col.strlen - 1) = some (ofSize col.strlen - 1) := by
      rw [INT_MIN] at hover
      exact checked_eq (isInt_iff.mpr (by omega))
    rw [hsome,Option.map_some,Option.some_inj,and_iff_right hover]
    by_cases h3 : ofSize col.strlen - 1 = 3
    · have hlong := length_of_ofSize h3
      match digits, hlen with
      | a :: b :: c :: rest, _ =>
        have hzeros : (a :: b :: c :: rest).take 3 = [48,48,48] ↔ a = 48 ∧ b = 48 ∧ c = 48 := by simp
        rw [h3,if_neg (by decide),if_pos rfl,hzeros]
        change digitsColor a b c = 0 ↔ _
        rw [digitsColor_zero]
        exact ⟨fun hz => ⟨fun _ => hz,fun hlt => absurd hlt (by decide)⟩,fun hr => hr.1 rfl⟩
      | [], hlen => rw [hlen,List.length_nil] at hlong; omega
      | [a], hlen => rw [hlen,List.length_singleton] at hlong; omega
      | [a,b], hlen => rw [hlen,List.length_cons,List.length_singleton] at hlong; omega
    · by_cases hmod : (ofSize col.strlen - 1).tmod 3 = 0 ∧ ofSize col.strlen - 1 > 3
      · rw [if_pos hmod,vanishes_iff]
        rw [Int.tmod_eq_emod_of_nonneg (by omega)] at hmod
        exact ⟨fun hv => ⟨fun heq => absurd heq h3,fun _ _ => hv⟩,fun hr => hr.2 hmod.2 hmod.1⟩
      · rw [if_neg hmod,if_neg h3]
        refine iff_of_true rfl ⟨fun heq => absurd heq h3,fun hlt hzero => absurd ?_ hmod⟩
        rw [Int.tmod_eq_emod_of_nonneg (by omega)]
        exact ⟨hzero,hlt⟩

/-! ## Triplets -/

theorem strtol_of_digits (h : ∀ c ∈ digits, (digitValue c).isSome) (hlen : digits.length ≤ 9) :
    strtol digits = Numeral.value 16 (digits.filterMap digitValue) := by
  have hlt := Numeral.value_lt (digits_lt digits)
  have hpow : 16 ^ (digits.filterMap digitValue).length ≤ 16 ^ 9 :=
    Nat.pow_le_pow_right (by decide) ((length_digits h).le.trans hlen)
  rw [strtol,numeral_of_digits h]
  simp only [Bool.false_eq_true,if_false]
  omega

theorem triplet_sharp (h : col.bytes = 35 :: digits) : triplet col =
    if digits.all (fun c => (digitValue c).isSome) ∧ (digits.length = 3 ∨ digits.length = 6 ∨ digits.length = 9) then
      some (digits.filterMap digitValue) else none := by
  rw [triplet,h]
  rfl

theorem colorHtmlToFltk_triplet (h : col.bytes = 35 :: digits)
    (hform : digits.length = 3 ∨ digits.length = 6 ∨ digits.length = 9) :
    colorHtmlToFltk (some col) = some (if digits.length = 3 then
      digitsColor (digits.getD 0 0) (digits.getD 1 0) (digits.getD 2 0) else numberColor (strtol digits)) := by
  have hlen : col.strlen = digits.length + 1 := congrArg List.length h
  have hsize : ofSize col.strlen - 1 = digits.length := by
    rw [ofSize_of_le (by omega)]
    omega
  rw [colorHtmlToFltk_sharp h,hsize,checked_eq (isInt_iff.mpr (by omega)),Option.map_some]
  obtain hform | hform | hform := hform
  all_goals
    rw [hform]
    rfl

theorem documented_triplet {ds : List ℕ} (h : triplet col = some ds) : documented col =
    colorRgbToFltk (channel (ds.take (ds.length / 3))) (channel ((ds.drop (ds.length / 3)).take (ds.length / 3)))
      (channel (ds.drop (2 * (ds.length / 3)))) := by
  rw [documented,h,Option.elim_some]

theorem numberColor_value (m : ℕ) :
    numberColor m = colorRgbToFltk (.ofNat (m / 65536)) (.ofNat (m / 256)) (.ofNat m) := numberColor_eq rfl

theorem digitsColor_of_values {r g b : UInt8} {x y z : ℕ} (hr : digitValue r = some x) (hg : digitValue g = some y)
    (hb : digitValue b = some z) : digitsColor r g b = colorRgbToFltk (channel [x]) (channel [y]) (channel [z]) := by
  rw [digitsColor,repeated_eq hr,repeated_eq hg,repeated_eq hb]
  rfl

/-- The channels that a number of six digits gives. -/
theorem numberColor_six {d₁ d₂ d₃ d₄ d₅ d₆ : ℕ} (h : ∀ d ∈ [d₁,d₂,d₃,d₄,d₅,d₆], d < 16) :
    numberColor (Numeral.value 16 [d₁,d₂,d₃,d₄,d₅,d₆] : ℕ) =
      colorRgbToFltk (channel [d₁,d₂]) (channel [d₃,d₄]) (channel [d₅,d₆]) := by
  simp only [List.forall_mem_cons] at h
  rw [numberColor_value,colorRgbToFltk_inj,← UInt8.toNat_inj,← UInt8.toNat_inj,← UInt8.toNat_inj]
  simp only [channel,UInt8.toNat_ofNat',Numeral.value,List.foldl_cons,List.foldl_nil,Numeral.push]
  omega

theorem pair_eq_iff {a b c d : ℕ} (ha : a < 16) (hb : b < 16) (hc : c < 16) (hd : d < 16) :
    16 * a + b = (16 * c + d) % 256 ↔ a = c ∧ b = d := by
  omega

/-- Those that a number of nine digits gives are those of the last six. -/
theorem numberColor_nine {d₁ d₂ d₃ d₄ d₅ d₆ d₇ d₈ d₉ : ℕ} (h : ∀ d ∈ [d₁,d₂,d₃,d₄,d₅,d₆,d₇,d₈,d₉], d < 16) :
    numberColor (Numeral.value 16 [d₁,d₂,d₃,d₄,d₅,d₆,d₇,d₈,d₉] : ℕ) =
      colorRgbToFltk (channel [d₁,d₂,d₃]) (channel [d₄,d₅,d₆]) (channel [d₇,d₈,d₉]) ↔
        Even [d₁,d₂,d₃,d₄,d₅,d₆,d₇,d₈,d₉] := by
  simp only [List.forall_mem_cons] at h
  rw [numberColor_value,colorRgbToFltk_inj,← UInt8.toNat_inj,← UInt8.toNat_inj,← UInt8.toNat_inj]
  obtain ⟨m,hm⟩ : ∃ m, m = Numeral.value 16 [d₁,d₂,d₃,d₄,d₅,d₆,d₇,d₈,d₉] := ⟨_,rfl⟩
  rw [← hm]
  simp only [Numeral.value,List.foldl_cons,List.foldl_nil,Numeral.push] at hm
  have hr : m / 65536 % 256 = 16 * d₄ + d₅ := by omega
  have hg : m / 256 % 256 = 16 * d₆ + d₇ := by omega
  have hb : m % 256 = 16 * d₈ + d₉ := by omega
  simp only [channel,UInt8.toNat_ofNat',Even]
  change (m / 65536 % 256 = (16 * d₁ + d₂) % 256 ∧ m / 256 % 256 = (16 * d₄ + d₅) % 256 ∧
    m % 256 = (16 * d₇ + d₈) % 256) ↔ _
  rw [hr,hg,hb,pair_eq_iff h.2.2.2.1 h.2.2.2.2.1 h.1 h.2.1,
    pair_eq_iff h.2.2.2.2.2.1 h.2.2.2.2.2.2.1 h.2.2.2.1 h.2.2.2.2.1,
    pair_eq_iff h.2.2.2.2.2.2.2.1 h.2.2.2.2.2.2.2.2.1 h.2.2.2.2.2.2.1 h.2.2.2.2.2.2.2.1]
  clear hr hg hb hm
  omega

theorem exists_nine {α : Type} {xs : List α} (h : xs.length = 9) :
    ∃ a b c d e f g i j, xs = [a,b,c,d,e,f,g,i,j] := by
  match xs, h with
  | [a,b,c,d,e,f,g,i,j], _ => exact ⟨a,b,c,d,e,f,g,i,j,rfl⟩

theorem exists_six {α : Type} {xs : List α} (h : xs.length = 6) : ∃ a b c d e f, xs = [a,b,c,d,e,f] := by
  match xs, h with
  | [a,b,c,d,e,f], _ => exact ⟨a,b,c,d,e,f,rfl⟩

/-- A triplet gives the colour that is documented unless it is of nine digits and not even. -/
theorem triplet_iff (h : col.bytes = 35 :: digits) (hdigits : ∀ c ∈ digits, (digitValue c).isSome)
    (hform : digits.length = 3 ∨ digits.length = 6 ∨ digits.length = 9) :
    colorHtmlToFltk (some col) = some (documented col) ↔ Even (digits.filterMap digitValue) := by
  have hsome : triplet col = some (digits.filterMap digitValue) :=
    (triplet_sharp h).trans (if_pos ⟨List.all_eq_true.mpr hdigits,hform⟩)
  have hlength := length_digits hdigits
  have hlt := digits_lt digits
  have hmap := map_digitValue hdigits
  rw [colorHtmlToFltk_triplet h hform,documented_triplet hsome,Option.some_inj,strtol_of_digits hdigits (by omega)]
  generalize digits.filterMap digitValue = ds at *
  obtain hform | hform | hform := hform
  · rw [if_pos hform,hlength.trans hform]
    obtain ⟨x,y,z,rfl⟩ := List.length_eq_three.mp (hlength.trans hform)
    obtain ⟨a,b,c,rfl⟩ := List.length_eq_three.mp hform
    simp only [List.map_cons,List.cons.injEq] at hmap
    exact iff_of_true (digitsColor_of_values hmap.1 hmap.2.1 hmap.2.2.1) trivial
  · rw [if_neg (by omega),hlength.trans hform]
    obtain ⟨d₁,d₂,d₃,d₄,d₅,d₆,rfl⟩ := exists_six (hlength.trans hform)
    exact iff_of_true (numberColor_six hlt) trivial
  · rw [if_neg (by omega),hlength.trans hform]
    obtain ⟨d₁,d₂,d₃,d₄,d₅,d₆,d₇,d₈,d₉,rfl⟩ := exists_nine (hlength.trans hform)
    exact numberColor_nine hlt

/-! ## The two directions -/

theorem digitValue_hexDigit {d : ℕ} (h : d < 16) : digitValue (hexDigit d) = some d := by
  have hall : ∀ d : Fin 16, digitValue (hexDigit d) = some d.val := by decide
  exact hall ⟨d,h⟩

theorem hexDigit_ne_nul {d : ℕ} (h : d < 16) : hexDigit d ≠ 0 := by
  intro hzero
  have hvalue := digitValue_hexDigit h
  rw [hzero] at hvalue
  cases hvalue

theorem nulFree_hex02 (c : UInt8) : (0 : UInt8) ∉ hex02 c := by
  have hc := c.toNat_lt
  intro h
  obtain h | h := List.mem_pair.mp h
  · exact hexDigit_ne_nul (by omega) h.symm
  · exact hexDigit_ne_nul (by omega) h.symm

theorem colorRgbToHtml_bytes (r g b : UInt8) : (colorRgbToHtml r g b).bytes = 35 :: (hex02 r ++ hex02 g ++ hex02 b) := by
  have hfree : (0 : UInt8) ∉ 35 :: (hex02 r ++ hex02 g ++ hex02 b) := by
    rw [List.mem_cons,not_or,CString.nulFree_append,CString.nulFree_append]
    exact ⟨by decide,⟨nulFree_hex02 r,nulFree_hex02 g⟩,nulFree_hex02 b⟩
  rw [colorRgbToHtml,colorFltkToHtml,colorFltkToRgb_rgb]
  change (CString.ofBuf (35 :: (hex02 r ++ hex02 g ++ hex02 b))).bytes = _
  rw [CString.ofBuf_eq hfree]

theorem channel_hex02 (c : UInt8) : channel [c.toNat / 16,c.toNat % 16] = c := by
  apply UInt8.toNat_inj.mp
  have hc := c.toNat_lt
  simp only [channel,UInt8.toNat_ofNat']
  omega

theorem colorHtmlToRgb_rgb (r g b : UInt8) : colorHtmlToRgb (colorRgbToHtml r g b) = some (r,g,b) := by
  have hr := r.toNat_lt
  have hg := g.toNat_lt
  have hb := b.toNat_lt
  obtain ⟨ds,hds⟩ : ∃ ds, ds = [r.toNat / 16,r.toNat % 16,g.toNat / 16,g.toNat % 16,b.toNat / 16,b.toNat % 16] := ⟨_,rfl⟩
  have hlt : ∀ d ∈ ds, d < 16 := by
    rw [hds]
    simp only [List.forall_mem_cons,List.not_mem_nil,false_implies,implies_true,and_true]
    omega
  have hbytes : (colorRgbToHtml r g b).bytes = 35 :: ds.map hexDigit := by
    rw [colorRgbToHtml_bytes,hds]
    rfl
  have hdigits : ∀ c ∈ ds.map hexDigit, (digitValue c).isSome := by
    intro c hc
    obtain ⟨d,hd,rfl⟩ := List.mem_map.mp hc
    rw [digitValue_hexDigit (hlt d hd)]
    rfl
  have hvalues : (ds.map hexDigit).filterMap digitValue = ds := by
    rw [List.filterMap_map]
    exact (List.filterMap_congr (fun d hd => digitValue_hexDigit (hlt d hd))).trans List.filterMap_some
  have hlength : (ds.map hexDigit).length = 6 := by rw [hds]; rfl
  have hcolor : colorHtmlToFltk (some (colorRgbToHtml r g b)) = some (colorRgbToFltk r g b) := by
    rw [colorHtmlToFltk_triplet hbytes (.inr (.inl hlength)),if_neg (by omega),
      strtol_of_digits hdigits (by omega),hvalues,hds,numberColor_six (hds ▸ hlt),channel_hex02,channel_hex02,channel_hex02]
  rw [colorHtmlToRgb,hcolor,Option.map_some,colorFltkToRgb_rgb]

/-- Every name of a colour is parsed as documented if it meets the condition, and only then; and a colour that
is written comes back. -/
theorem colorHtmlToFltk_iff (col : CString) (r g b : UInt8) :
    colorHtmlToFltk (some col) = some (documented col) ∧ colorHtmlToRgb (colorRgbToHtml r g b) = some (r,g,b) ↔
      Meets col := by
  rw [and_iff_left (colorHtmlToRgb_rgb r g b),Meets]
  by_cases hsharp : col.bytes.head? = some 35
  · obtain ⟨digits,h⟩ : ∃ digits, col.bytes = 35 :: digits := List.head?_eq_some_iff.mp hsharp
    rw [imp_iff_right hsharp]
    by_cases hform : digits.all (fun c => (digitValue c).isSome) ∧
        (digits.length = 3 ∨ digits.length = 6 ∨ digits.length = 9)
    · rw [triplet_iff h (List.all_eq_true.mp hform.1) hform.2,triplet_sharp h,if_pos hform,Option.elim_some]
    · rw [documented,triplet_sharp h,if_neg hform,Option.elim_none,Option.elim_none,black_iff h]
  · have hnone : triplet col = none := by
      rw [triplet]
      split
      · rename_i heq
        exact absurd (congrArg List.head? heq) hsharp
      · rfl
    rw [documented,hnone,Option.elim_none,colorHtmlToFltk_black hsharp]
    exact iff_of_true rfl (fun h => absurd h hsharp)

/-- A name of nine digits. -/
theorem not_colorHtmlToFltk : ¬ ∀ (col : CString) (r g b : UInt8),
    colorHtmlToFltk (some col) = some (documented col) ∧ colorHtmlToRgb (colorRgbToHtml r g b) = some (r,g,b) := by
  intro h
  have hnine := (h (.ofBuf [35,49,48,48,50,48,48,51,48,48]) 0 0 0).1
  revert hnine
  decide +kernel

end Edelib.Color
