import Edelib.XSettings.Layout

/-! # The accesses of the decoder

On any bytes the decoder stays inside them, unless it reaches a string whose length
is oversized; the copy of such a string leaves them.
-/
namespace Edelib.XSettings
open Foundation Decoder

section
variable (order : ByteOrder) (data : List UInt8)

def valueStart (pos : ℕ) : ℕ := pos + 4 + padded (card16At order data (pos + 2)).toNat + 4

def valueEnd (type : UInt8) (pos : ℕ) : ℕ :=
  if type = 0 then pos + 4
  else if type = 1 then pos + 4 + padded (card32At order data pos).toNat
  else if type = 2 then pos + 8
  else pos

/-- Where the setting at `pos` ends; it is complete when that is inside the data. -/
def settingEnd (pos : ℕ) : ℕ := valueEnd order data (card8At data pos) (valueStart order data pos)

def settingStart (pos : ℕ) : ℕ → ℕ
  | 0 => pos
  | i + 1 => settingStart (settingEnd order data pos) i

/-- A string is stored at `pos`, complete up to its length, and that is oversized. -/
def OversizedAt (pos : ℕ) : Prop :=
  card8At data pos = 1 ∧ valueStart order data pos + 4 ≤ data.length ∧
    Oversized (card32At order data (valueStart order data pos))

instance (pos : ℕ) : Decidable (OversizedAt order data pos) := by
  unfold OversizedAt Oversized
  infer_instance

end

/-- No setting of the announced number, reached through complete ones, is an
oversized string. -/
def NoOversizedString (data : List UInt8) : Prop :=
  match orderOfMark (card8At data 0) with
  | none => True
  | some order =>
    ∀ i < (card32At order data 8).toNat, ¬ OversizedAt order data (settingStart order data 12 i)

instance (data : List UInt8) : Decidable (NoOversizedString data) := by
  unfold NoOversizedString
  cases orderOfMark (card8At data 0) with
  | none => exact isTrue trivial
  | some order => infer_instance

variable {order localOrder : ByteOrder} {data : List UInt8} {type : UInt8} {pos : ℕ}

theorem le_valueEnd (order : ByteOrder) (data : List UInt8) (type : UInt8) (pos : ℕ) :
    pos ≤ valueEnd order data type pos := by
  unfold valueEnd
  split_ifs <;> omega

theorem le_settingEnd (order : ByteOrder) (data : List UInt8) (pos : ℕ) :
    pos + 8 ≤ settingEnd order data pos := by
  have h := le_valueEnd order data (card8At data pos) (valueStart order data pos)
  unfold settingEnd
  unfold valueStart at h ⊢
  omega

theorem le_settingStart (order : ByteOrder) (data : List UInt8) (pos i : ℕ) :
    pos ≤ settingStart order data pos i := by
  induction i generalizing pos with
  | zero => exact Nat.le_refl pos
  | succ i ih =>
    have h1 := ih (settingEnd order data pos)
    have h2 := le_settingEnd order data pos
    rw [settingStart]
    omega

theorem OversizedAt.lt_length (h : OversizedAt order data pos) : pos < data.length := by
  have hstart := h.2.1
  unfold valueStart at hstart
  omega

/-! ## One setting -/

theorem completes_decodeValue (hlen : data.length < 2 ^ 31) (h : valueEnd order data type pos ≤ data.length) :
    ∃ v, Completes (decodeValue order localOrder type) data pos (valueEnd order data type pos) v := by
  unfold valueEnd at h ⊢
  split_ifs at h ⊢ with h0 h1 h2
  · exact ⟨_,h0 ▸ completes_decodeValue_int h⟩
  · exact ⟨_,h1 ▸ completes_decodeValue_string rfl hlen h⟩
  · exact ⟨_,h2 ▸ completes_decodeValue_color h⟩
  · refine ⟨.other type (two_lt_type h0 h1 h2),?_⟩
    simp only [decodeValue,h0,h1,h2,↓reduceDIte]
    exact completes_pure

theorem refuses_decodeValue (hpos : pos ≤ data.length)
    (hsize : ¬ (type = 1 ∧ pos + 4 ≤ data.length ∧ Oversized (card32At order data pos)))
    (h : data.length < valueEnd order data type pos) :
    Refuses (decodeValue order localOrder type) data pos := by
  unfold valueEnd at h
  unfold decodeValue
  split_ifs at h ⊢ with h0 h1 h2
  · exact (refuses_fetchCard32 h).bind
  · exact (refuses_decodeString rfl (fun hs => hsize ⟨h1,hs⟩) h).bind
  · rcases Nat.lt_or_ge data.length (pos + 2) with hred | hred
    · exact (refuses_fetchCard16 hred).bind
    apply (completes_fetchCard16 hred).bind_refuses
    rcases Nat.lt_or_ge data.length (pos + 2 + 2) with hgreen | hgreen
    · exact (refuses_fetchCard16 hgreen).bind
    apply (completes_fetchCard16 hgreen).bind_refuses
    rcases Nat.lt_or_ge data.length (pos + 2 + 2 + 2) with hblue | hblue
    · exact (refuses_fetchCard16 hblue).bind
    apply (completes_fetchCard16 hblue).bind_refuses
    exact (refuses_fetchCard16 (by omega)).bind
  · omega

theorem faults_decodeValue (hlen : data.length < 2 ^ 31) (hfield : pos + 4 ≤ data.length)
    (hsize : Oversized (card32At order data pos)) : Faults (decodeValue order localOrder 1) data pos :=
  (faults_decodeString hlen hfield hsize).bind

theorem refuses_decodeSetting_start (h : data.length < valueStart order data pos) :
    Refuses (decodeSetting order localOrder) data pos := by
  unfold valueStart at h
  rcases Nat.lt_or_ge data.length (pos + 1) with htype | htype
  · exact (refuses_fetchCard8 htype).bind
  apply (completes_fetchCard8 htype).bind_refuses
  apply completes_seek.bind_refuses
  rcases Nat.lt_or_ge data.length (pos + 4 + padded (card16At order data (pos + 2)).toNat) with hname | hname
  · exact (refuses_decodeName rfl hname).bind
  apply (completes_decodeName rfl hname).bind_refuses
  exact (refuses_fetchCard32 h).bind

theorem refuses_decodeSetting_value (hstart : valueStart order data pos ≤ data.length)
    (h : Refuses (decodeValue order localOrder (card8At data pos)) data (valueStart order data pos)) :
    Refuses (decodeSetting order localOrder) data pos := by
  have hname : pos + 2 + 2 + padded (card16At order data (pos + 2)).toNat ≤ data.length :=
    Nat.le_trans (Nat.le_add_right _ 4) hstart
  apply (completes_fetchCard8 (by omega)).bind_refuses
  apply completes_seek.bind_refuses
  apply (completes_decodeName rfl hname).bind_refuses
  apply (completes_fetchCard32 hstart).bind_refuses
  exact h.bind

theorem faults_decodeSetting (hlen : data.length < 2 ^ 31) (h : OversizedAt order data pos) :
    Faults (decodeSetting order localOrder) data pos := by
  obtain ⟨htype,hfield,hsize⟩ := h
  have hstart : valueStart order data pos ≤ data.length := Nat.le_trans (Nat.le_add_right _ 4) hfield
  have hname : pos + 2 + 2 + padded (card16At order data (pos + 2)).toNat ≤ data.length :=
    Nat.le_trans (Nat.le_add_right _ 4) hstart
  apply (completes_fetchCard8 (by omega)).bind_faults
  apply completes_seek.bind_faults
  apply (completes_decodeName rfl hname).bind_faults
  apply (completes_fetchCard32 hstart).bind_faults
  rw [htype]
  exact (faults_decodeValue hlen hfield hsize).bind

/-- What is no oversized string is read up to its end, or refused for want of bytes. -/
theorem decodeSetting_harmless (localOrder : ByteOrder) (hlen : data.length < 2 ^ 31)
    (h : ¬ OversizedAt order data pos) :
    (∃ s, Completes (decodeSetting order localOrder) data pos (settingEnd order data pos) s) ∨
      (data.length < settingEnd order data pos ∧ Refuses (decodeSetting order localOrder) data pos) := by
  have hend : valueStart order data pos ≤ settingEnd order data pos := le_valueEnd _ _ _ _
  rcases Nat.lt_or_ge data.length (valueStart order data pos) with hstart | hstart
  · exact Or.inr ⟨Nat.lt_of_lt_of_le hstart hend,refuses_decodeSetting_start hstart⟩
  rcases Nat.lt_or_ge data.length (settingEnd order data pos) with hvalue | hvalue
  · exact Or.inr ⟨hvalue,refuses_decodeSetting_value hstart (refuses_decodeValue hstart h hvalue)⟩
  · obtain ⟨v,hv⟩ := completes_decodeValue hlen hvalue
    exact Or.inl ⟨_,completes_decodeSetting rfl rfl hstart hv⟩

/-! ## The loop over the settings -/

theorem harmless_decodeSettings (localOrder : ByteOrder) (hlen : data.length < 2 ^ 31) (n : ℕ)
    (list : XSettingsList) (h : ∀ i < n, ¬ OversizedAt order data (settingStart order data pos i)) :
    Harmless (decodeSettings order localOrder n list) data pos := by
  induction n generalizing pos list with
  | zero => exact Or.inl ⟨pos,list,completes_pure⟩
  | succ n ih =>
    rcases decodeSetting_harmless localOrder hlen (h 0 (Nat.succ_pos n)) with ⟨s,hs⟩ | ⟨-,hs⟩
    · apply hs.bind_harmless
      exact ih _ (fun i hi => h (i + 1) (Nat.succ_lt_succ hi))
    · exact Or.inr hs.bind

theorem faults_decodeSettings (localOrder : ByteOrder) (hlen : data.length < 2 ^ 31) {n i : ℕ} (hi : i < n)
    (list : XSettingsList) (h : OversizedAt order data (settingStart order data pos i)) :
    Faults (decodeSettings order localOrder n list) data pos := by
  induction i generalizing pos n list with
  | zero =>
    obtain ⟨n,rfl⟩ : ∃ m, n = m + 1 := ⟨n - 1,by omega⟩
    exact (faults_decodeSetting hlen h).bind
  | succ i ih =>
    obtain ⟨n,rfl⟩ : ∃ m, n = m + 1 := ⟨n - 1,by omega⟩
    by_cases hfirst : OversizedAt order data pos
    · exact (faults_decodeSetting hlen hfirst).bind
    rcases decodeSetting_harmless localOrder hlen hfirst with ⟨s,hs⟩ | ⟨hend,-⟩
    · apply hs.bind_faults
      exact ih (Nat.lt_of_succ_lt_succ hi) _ h
    · -- the settings after an incomplete one start beyond the data
      have hlt := h.lt_length
      have hle := le_settingStart order data (settingEnd order data pos) i
      rw [settingStart] at hlt
      omega

/-! ## The whole property -/

theorem decode_of_refused (h : Refuses (decodeHeader localOrder) data 0) :
    ∀ a ∈ (decode localOrder data).trace, a.Safe data.length := by
  obtain ⟨r,p,hd,hr⟩ := h _ (Reader.sound_start data)
  rw [decode,hd]
  exact hr.safe

/-- The decoder's accesses to any bytes are all inside them, and its position only
moves forwards, if and only if no setting reached is an oversized string. -/
theorem decode_safe_iff (localOrder : ByteOrder) (data : List UInt8) (hlen : data.length < 2 ^ 31) :
    (∀ a ∈ (decode localOrder data).trace, a.Safe data.length) ↔ NoOversizedString data := by
  unfold NoOversizedString
  cases ho : orderOfMark (card8At data 0) with
  | none => exact iff_of_true (decode_of_refused (refuses_decodeHeader (Or.inl ho))) trivial
  | some order =>
    rcases Nat.lt_or_ge data.length 8 with hheader | hheader
    · refine iff_of_true (decode_of_refused (refuses_decodeHeader (Or.inr hheader))) (fun i _ h => ?_)
      have hlt := h.lt_length
      have hle := le_settingStart order data 12 i
      omega
    obtain ⟨r,hr,hd⟩ := decode_of_header localOrder ho hheader
    rw [hd]
    rcases Nat.lt_or_ge data.length 12 with hentries | hentries
    · have hrefuses : Refuses (decodeList order localOrder) data 8 := (refuses_fetchCard32 hentries).bind
      have hsafe : Harmless (decodeList order localOrder) data 8 := Or.inr hrefuses
      refine iff_of_true (hsafe.safe hr) (fun i _ h => ?_)
      have hlt := h.lt_length
      have hle := le_settingStart order data 12 i
      omega
    · have hentries : Completes (fetchCard32 order localOrder) data 8 12 (card32At order data 8) :=
        completes_fetchCard32 hentries
      constructor
      · intro hsafe i hi h
        exact (hentries.bind_faults (faults_decodeSettings localOrder hlen hi [] h)).not_safe hr hsafe
      · intro h
        exact (hentries.bind_harmless (harmless_decodeSettings localOrder hlen _ [] h)).safe hr

def intProperty : List UInt8 := [0,0,0,0,7,0,0,0,1,0,0,0,0,0,1,0,65,0,0,0,7,0,0,0,5,0,0,0]

theorem decode_safe_int_setting :
    intProperty.length < 2 ^ 31 ∧ ∀ a ∈ (decode .lsbFirst intProperty).trace, a.Safe intProperty.length :=
  ⟨by decide +kernel,(decode_safe_iff .lsbFirst intProperty (by decide +kernel)).mpr (by decide +kernel)⟩

/-- A property that ends with the length of a string of `2 ^ 31 - 1` bytes. -/
def oversizedProperty : List UInt8 :=
  [0,0,0,0,7,0,0,0,1,0,0,0,1,0,0,0,7,0,0,0,255,255,255,127]

theorem not_decode_safe_oversizedProperty :
    ¬ ∀ a ∈ (decode .lsbFirst oversizedProperty).trace, a.Safe oversizedProperty.length := by
  decide +kernel

end Edelib.XSettings
