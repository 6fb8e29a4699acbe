import Edelib.XSettings.Wire

/-! # The layout of the property

Where the fields of a property stand, in unbounded arithmetic, and what each fetch of
the decoder does at a position. The padded length of the source is the exact one as
long as it is not too close to the end of its integer type.
-/
namespace Edelib.XSettings
open Foundation Decoder

def padded (n : ℕ) : ℕ := (n + 3) / 4 * 4

theorem le_padded (n : ℕ) : n ≤ padded n := by
  unfold padded
  omega

theorem four_sub_one {w : ℕ} (hw : 2 < w) : 4#w - 1#w = BitVec.ofNat w (2 ^ 2 - 1) := by
  have hpow : 2 ^ 3 ≤ 2 ^ w := Nat.pow_le_pow_right (by omega) hw
  have h1 : (1#w).toNat = 1 := by
    rw [BitVec.toNat_ofNat]
    exact Nat.mod_eq_of_lt (by omega)
  have h4 : (4#w).toNat = 4 := by
    rw [BitVec.toNat_ofNat]
    exact Nat.mod_eq_of_lt (by omega)
  have hsum : 2 ^ w - 1 + 4 = 3 + 2 ^ w := by omega
  have hthree : (4#w - 1#w).toNat = 3 % 2 ^ w := by
    rw [BitVec.toNat_sub,h1,h4,hsum,Nat.add_mod_right]
  exact BitVec.eq_of_toNat_eq (hthree.trans (BitVec.toNat_ofNat _ _).symm)

theorem and_not_three {w : ℕ} (hw : 2 < w) (x : BitVec w) :
    x &&& ~~~(4#w - 1#w) = (x >>> 2) <<< 2 := by
  rw [four_sub_one hw]
  apply BitVec.eq_of_getLsbD_eq
  intro i hi
  rw [BitVec.getLsbD_and,BitVec.getLsbD_not,BitVec.getLsbD_ofNat,Nat.testBit_two_pow_sub_one,
    BitVec.getLsbD_shiftLeft,BitVec.getLsbD_ushiftRight]
  rcases Nat.lt_or_ge i 2 with hi2 | hi2
  · simp [hi,hi2]
  · have hadd : 2 + (i - 2) = i := by omega
    simp [hi,Nat.not_lt.mpr hi2,hadd]

/-- The padded length of the source, where the addition does not wrap around. -/
theorem pad_toNat {w : ℕ} {n : BitVec w} (hw : 2 < w) (h : n.toNat + 3 < 2 ^ w) :
    (pad n).toNat = padded n.toNat := by
  have hpow : 2 ^ 3 ≤ 2 ^ w := Nat.pow_le_pow_right (by omega) hw
  have hsum : (n + 4#w - 1#w).toNat = n.toNat + 3 := by
    have hassoc : n + 4#w - 1#w = n + (4#w - 1#w) := by
      rw [BitVec.sub_eq_add_neg,BitVec.sub_eq_add_neg,BitVec.add_assoc]
    have hthree : (2 ^ 2 - 1) % 2 ^ w = 2 ^ 2 - 1 := Nat.mod_eq_of_lt (by omega)
    rw [hassoc,four_sub_one hw,BitVec.toNat_add,BitVec.toNat_ofNat,hthree]
    exact Nat.mod_eq_of_lt h
  simp only [pad]
  rw [and_not_three hw,BitVec.toNat_shiftLeft,BitVec.toNat_ushiftRight,hsum,Nat.shiftRight_eq_div_pow,
    Nat.shiftLeft_eq]
  exact Nat.mod_eq_of_lt (by omega)

theorem pad_toInt {n : BitVec 32} (h : n.toNat + 3 < 2 ^ 31) : (pad n).toInt = padded n.toNat := by
  have hpad := pad_toNat (by omega) (show n.toNat + 3 < 2 ^ 32 by omega)
  have hle : padded n.toNat ≤ n.toNat + 3 := Nat.div_mul_le_self _ _
  rw [BitVec.toInt_eq_toNat_of_lt (by omega),hpad]

/-- From `2 ^ 31 - 3` on, the padded length is no positive `int`. -/
theorem pad_toInt_nonpos {n : BitVec 32} (h : 2 ^ 31 ≤ n.toNat + 3) : (pad n).toInt ≤ 0 := by
  have hlt := n.isLt
  rcases Nat.lt_or_ge (n.toNat + 3) (2 ^ 32) with hwrap | hwrap
  · have hpad := pad_toNat (by omega) hwrap
    unfold padded at hpad
    rw [BitVec.toInt_eq_toNat_cond,if_neg (by omega)]
    omega
  · -- the addition wraps around
    have hcases : n.toNat = 2 ^ 32 - 3 ∨ n.toNat = 2 ^ 32 - 2 ∨ n.toNat = 2 ^ 32 - 1 := by omega
    have hval : ∀ k, n.toNat = k → n = BitVec.ofNat 32 k := by
      rintro _ rfl
      exact BitVec.eq_of_toNat_eq (by simp)
    rcases hcases with hn | hn | hn <;> rw [hval _ hn] <;> decide

theorem add_one_eq_zero {v : BitVec 32} : v + 1 = 0 ↔ v.toNat = 2 ^ 32 - 1 := by
  bv_omega

/-! ## Fields -/

section
variable (order localOrder : ByteOrder) (data : List UInt8) (pos : ℕ)

def card8At : UInt8 := ((data.drop pos).take 1).headD 0

def card16At : BitVec 16 := order.card16 ((data.drop pos).take 2)

def card32At : BitVec 32 := order.card32 ((data.drop pos).take 4)

end

variable {order localOrder : ByteOrder} {data : List UInt8} {pos n : ℕ}

theorem completes_fetchBytes (h : pos + n ≤ data.length) :
    Completes (fetchBytes n) data pos (pos + n) ((data.drop pos).take n) := by
  refine completes_bytesLeft.bind ?_
  rw [if_neg (by omega)]
  exact completes_fetch h

theorem refuses_fetchBytes (h : data.length < pos + n) : Refuses (fetchBytes n) data pos := by
  refine completes_bytesLeft.bind_refuses ?_
  rw [if_pos (by omega)]
  exact refuses_fail

theorem completes_fetchCard8 (h : pos + 1 ≤ data.length) :
    Completes fetchCard8 data pos (pos + 1) (card8At data pos) :=
  (completes_fetchBytes h).bind completes_pure

theorem length_take_drop (h : pos + n ≤ data.length) : ((data.drop pos).take n).length = n := by
  simp only [List.length_take,List.length_drop]
  omega

theorem completes_fetchCard16 (h : pos + 2 ≤ data.length) :
    Completes (fetchCard16 order localOrder) data pos (pos + 2) (card16At order data pos) := by
  rw [card16At,← ByteOrder.card16_or_swap order localOrder (length_take_drop h)]
  exact (completes_fetchBytes h).bind completes_pure

theorem completes_fetchCard32 (h : pos + 4 ≤ data.length) :
    Completes (fetchCard32 order localOrder) data pos (pos + 4) (card32At order data pos) := by
  rw [card32At,← ByteOrder.card32_or_swap order localOrder (length_take_drop h)]
  exact (completes_fetchBytes h).bind completes_pure

theorem refuses_fetchCard8 (h : data.length < pos + 1) : Refuses fetchCard8 data pos :=
  (refuses_fetchBytes h).bind

theorem refuses_fetchCard16 (h : data.length < pos + 2) :
    Refuses (fetchCard16 order localOrder) data pos :=
  (refuses_fetchBytes h).bind

theorem refuses_fetchCard32 (h : data.length < pos + 4) :
    Refuses (fetchCard32 order localOrder) data pos :=
  (refuses_fetchBytes h).bind

/-! ## Names and strings -/

theorem pad_nameLen {nameLen : BitVec 16} {k : ℕ} (hk : nameLen.toNat = k) :
    (pad (nameLen.setWidth 32)).toInt = padded k := by
  have hlt := nameLen.isLt
  have hw : (nameLen.setWidth 32).toNat = k := by
    rw [BitVec.toNat_setWidth_of_le (by omega),hk]
  rw [pad_toInt (by omega),hw]

theorem completes_decodeName {k : ℕ} (hk : (card16At order data pos).toNat = k)
    (h : pos + 2 + padded k ≤ data.length) :
    Completes (decodeName order localOrder) data pos (pos + 2 + padded k)
      (CString.ofBuf ((data.drop (pos + 2)).take k)) := by
  have hle := le_padded k
  apply (completes_fetchCard16 (by omega)).bind
  apply completes_bytesLeft.bind
  rw [pad_nameLen hk,if_neg (by omega),hk]
  apply (completes_copy (by omega)).bind
  exact completes_seek.bind completes_pure

theorem refuses_decodeName {k : ℕ} (hk : (card16At order data pos).toNat = k)
    (h : data.length < pos + 2 + padded k) : Refuses (decodeName order localOrder) data pos := by
  rcases Nat.lt_or_ge data.length (pos + 2) with hfield | hfield
  · exact (refuses_fetchCard16 hfield).bind
  · apply (completes_fetchCard16 hfield).bind_refuses
    apply completes_bytesLeft.bind_refuses
    rw [pad_nameLen hk,if_pos (by omega)]
    exact refuses_fail

/-- A string's length that passes the check, though its padded length is no `int`. -/
def Oversized (v : BitVec 32) : Prop := 2 ^ 31 ≤ v.toNat + 3 ∧ v.toNat < 2 ^ 32 - 1

theorem completes_decodeString {k : ℕ} (hk : (card32At order data pos).toNat = k)
    (hlen : data.length < 2 ^ 31) (h : pos + 4 + padded k ≤ data.length) :
    Completes (decodeString order localOrder) data pos (pos + 4 + padded k)
      (CString.ofBuf ((data.drop (pos + 4)).take k)) := by
  have hle := le_padded k
  have hone : ¬ card32At order data pos + 1 = 0 := fun hzero => by
    have := add_one_eq_zero.mp hzero
    omega
  have hpad : (pad (card32At order data pos)).toInt = padded k := by
    rw [pad_toInt (by omega),hk]
  apply (completes_fetchCard32 (by omega)).bind
  apply completes_bytesLeft.bind
  rw [hpad,if_neg (not_or.mpr ⟨hone,by omega⟩),hk]
  apply (completes_copy (by omega)).bind
  exact completes_seek.bind completes_pure

theorem refuses_decodeString {k : ℕ} (hk : (card32At order data pos).toNat = k)
    (hsize : ¬ (pos + 4 ≤ data.length ∧ Oversized (card32At order data pos)))
    (h : data.length < pos + 4 + padded k) : Refuses (decodeString order localOrder) data pos := by
  rcases Nat.lt_or_ge data.length (pos + 4) with hfield | hfield
  · exact (refuses_fetchCard32 hfield).bind
  · apply (completes_fetchCard32 hfield).bind_refuses
    apply completes_bytesLeft.bind_refuses
    have hbad : card32At order data pos + 1 = 0 ∨
        (data.length - (pos + 4 : ℕ) : ℤ) < (pad (card32At order data pos)).toInt := by
      by_cases hone : card32At order data pos + 1 = 0
      · exact Or.inl hone
      · have hlt := (card32At order data pos).isLt
        rw [add_one_eq_zero] at hone
        have hsmall : k + 3 < 2 ^ 31 := by
          by_contra hge
          exact hsize ⟨hfield,by omega,by omega⟩
        right
        rw [pad_toInt (by omega),hk]
        omega
    rw [if_pos hbad]
    exact refuses_fail

theorem faults_decodeString (hlen : data.length < 2 ^ 31) (hfield : pos + 4 ≤ data.length)
    (hsize : Oversized (card32At order data pos)) : Faults (decodeString order localOrder) data pos := by
  obtain ⟨hlow,hhigh⟩ := hsize
  have hone : ¬ card32At order data pos + 1 = 0 := fun hzero => by
    have := add_one_eq_zero.mp hzero
    omega
  have hpad := pad_toInt_nonpos hlow
  apply (completes_fetchCard32 hfield).bind_faults
  apply completes_bytesLeft.bind_faults
  rw [if_neg (not_or.mpr ⟨hone,by omega⟩)]
  exact (faults_copy (by omega)).bind

/-! ## Settings -/

theorem completes_decodeValue_int (h : pos + 4 ≤ data.length) :
    Completes (decodeValue order localOrder 0) data pos (pos + 4) (.int (card32At order data pos)) :=
  (completes_fetchCard32 h).bind completes_pure

theorem completes_decodeValue_string {k : ℕ} (hk : (card32At order data pos).toNat = k)
    (hlen : data.length < 2 ^ 31) (h : pos + 4 + padded k ≤ data.length) :
    Completes (decodeValue order localOrder 1) data pos (pos + 4 + padded k)
      (.string (CString.ofBuf ((data.drop (pos + 4)).take k))) :=
  (completes_decodeString hk hlen h).bind completes_pure

theorem completes_decodeValue_color (h : pos + 8 ≤ data.length) :
    Completes (decodeValue order localOrder 2) data pos (pos + 8)
      (.color ⟨card16At order data pos,card16At order data (pos + 2),card16At order data (pos + 4),
        card16At order data (pos + 6)⟩) := by
  apply (completes_fetchCard16 (by omega)).bind
  apply (completes_fetchCard16 (by omega)).bind
  apply (completes_fetchCard16 (by omega)).bind
  exact (completes_fetchCard16 (by omega)).bind completes_pure

theorem completes_decodeSetting {type : UInt8} {k pos' : ℕ} {value : XSettingsValue}
    (htype : card8At data pos = type) (hk : (card16At order data (pos + 2)).toNat = k)
    (h : pos + 4 + padded k + 4 ≤ data.length)
    (hvalue : Completes (decodeValue order localOrder type) data (pos + 4 + padded k + 4) pos' value) :
    Completes (decodeSetting order localOrder) data pos pos'
      ⟨CString.ofBuf ((data.drop (pos + 4)).take k),value,
        (card32At order data (pos + 4 + padded k)).setWidth 64⟩ := by
  apply (completes_fetchCard8 (by omega)).bind
  apply completes_seek.bind
  apply (completes_decodeName hk (by omega)).bind
  apply (completes_fetchCard32 (by omega)).bind
  rw [htype]
  exact hvalue.bind completes_pure

/-! ## The header -/

theorem completes_decodeHeader (h : orderOfMark (card8At data 0) = some order) (hlen : 8 ≤ data.length) :
    Completes (decodeHeader localOrder) data 0 8 (order,card32At order data 4) := by
  apply (completes_fetchCard8 (by omega)).bind
  rw [h]
  apply completes_seek.bind
  exact (completes_fetchCard32 (by omega)).bind completes_pure

theorem refuses_decodeHeader (h : orderOfMark (card8At data 0) = none ∨ data.length < 8) :
    Refuses (decodeHeader localOrder) data 0 := by
  rcases Nat.lt_or_ge data.length (0 + 1) with hmark | hmark
  · exact (refuses_fetchCard8 hmark).bind
  apply (completes_fetchCard8 hmark).bind_refuses
  cases ho : orderOfMark (card8At data 0) with
  | none => exact refuses_fail
  | some order =>
    rw [ho] at h
    apply completes_seek.bind_refuses
    exact (refuses_fetchCard32 (by simpa using h)).bind

theorem decode_of_header (localOrder : ByteOrder) (h : orderOfMark (card8At data 0) = some order)
    (hlen : 8 ≤ data.length) :
    ∃ r, r.Sound data 8 ∧ decode localOrder data =
      ⟨(decodeList order localOrder r).1,some (card32At order data 4),(decodeList order localOrder r).2.trace⟩ := by
  obtain ⟨r,hd,hr⟩ := completes_decodeHeader h hlen _ (Reader.sound_start data)
  exact ⟨r,hr,by rw [decode,hd]⟩

end Edelib.XSettings
