import Edelib.XSettings.Layout

/-! # Publishing and decoding

The bytes the manager publishes fill its buffer exactly, and decoding them on a
machine of either byte order gives the settings and the serial back. The byte order
of the writer and that of the reader are independent.
-/
namespace Edelib.XSettings
open Foundation Decoder SortedList

/-! ## The bytes of a setting -/

def valueSize : XSettingsValue → ℕ
  | .int _ => 4
  | .color _ => 8
  | .string vString => 4 + padded vString.strlen
  | .other _ _ => 0

def settingSize (setting : XSettingsSetting) : ℕ := 8 + padded setting.name.strlen + valueSize setting.value

def paddedBytes (str : CString) : List UInt8 :=
  str.bytes ++ List.replicate (padded str.strlen - str.strlen) 0

def valueBytes (o : ByteOrder) : XSettingsValue → List UInt8
  | .int vInt => o.bytes32 vInt
  | .color vColor =>
    o.bytes16 vColor.red ++ (o.bytes16 vColor.green ++ (o.bytes16 vColor.blue ++ o.bytes16 vColor.alpha))
  | .string vString => o.bytes32 (BitVec.ofNat 32 vString.strlen) ++ paddedBytes vString
  | .other _ _ => []

def settingBytes (o : ByteOrder) (setting : XSettingsSetting) : List UInt8 :=
  [setting.value.type] ++ ([0] ++ (o.bytes16 ((BitVec.ofNat 32 setting.name.strlen).setWidth 16) ++
    (paddedBytes setting.name ++ (o.bytes32 (setting.lastChangeSerial.setWidth 32) ++
      valueBytes o setting.value))))

@[simp] theorem length_paddedBytes (str : CString) : (paddedBytes str).length = padded str.strlen := by
  have h := le_padded str.strlen
  rw [paddedBytes,List.length_append,List.length_replicate]
  exact Nat.add_sub_cancel' h

@[simp] theorem length_valueBytes (o : ByteOrder) (v : XSettingsValue) :
    (valueBytes o v).length = valueSize v := by
  cases v <;> simp [valueBytes,valueSize]

@[simp] theorem length_settingBytes (o : ByteOrder) (setting : XSettingsSetting) :
    (settingBytes o setting).length = settingSize setting := by
  simp only [settingBytes,List.length_append,List.length_singleton,ByteOrder.length_bytes16,
    ByteOrder.length_bytes32,length_paddedBytes,length_valueBytes,settingSize]
  omega

/-- The lists a manager can publish: sorted, of known types, within the format's limits. -/
structure Encodable (list : XSettingsList) : Prop where
  sorted : Sorted list
  names : ∀ s ∈ list, s.name.strlen < 2 ^ 16
  known : ∀ s ∈ list, s.value.Known
  short : 12 + (list.map settingSize).sum < 2 ^ 31

def WithinLimits (list : XSettingsList) : Prop :=
  (∀ s ∈ list, s.name.strlen < 2 ^ 16) ∧ 12 + (list.map settingSize).sum < 2 ^ 31

instance (list : XSettingsList) : Decidable (WithinLimits list) :=
  inferInstanceAs (Decidable (_ ∧ _))

/-! ## Lengths -/

theorem padded_lt {n m : ℕ} (h : padded n < m) : n < m := Nat.lt_of_le_of_lt (le_padded n) h

theorem toNat_ofNat_lt {w n : ℕ} (h : n < 2 ^ w) : (BitVec.ofNat w n).toNat = n := by
  rw [BitVec.toNat_ofNat,Nat.mod_eq_of_lt h]

theorem pad_strlen {n : ℕ} (h : padded n < 2 ^ 31) :
    ((pad (BitVec.ofNat 64 n)).setWidth 32).toNat = padded n := by
  have hn := padded_lt h
  have hval : (BitVec.ofNat 64 n).toNat = n := toNat_ofNat_lt (by omega)
  have hpad : (pad (BitVec.ofNat 64 n)).toNat = padded n := by
    rw [pad_toNat (by omega) (by omega),hval]
  rw [BitVec.toNat_setWidth,hpad,Nat.mod_eq_of_lt (by omega)]

theorem settingLen_toNat {setting : XSettingsSetting} (h : settingSize setting < 2 ^ 31) :
    (settingLen setting).toNat = settingSize setting := by
  obtain ⟨name,value,serial⟩ := setting
  simp only [settingSize] at h ⊢
  have hname : ((pad (BitVec.ofNat 64 name.strlen)).setWidth 32).toNat = padded name.strlen :=
    pad_strlen (by omega)
  have hstart : ((8 : BitVec 32) + (pad (BitVec.ofNat 64 name.strlen)).setWidth 32).toNat =
      8 + padded name.strlen := by
    bv_omega
  cases value with
  | int vInt =>
    simp only [valueSize,settingLen] at h ⊢
    bv_omega
  | color vColor =>
    simp only [valueSize,settingLen] at h ⊢
    bv_omega
  | string vString =>
    simp only [valueSize,settingLen] at h ⊢
    have hstring : ((4 + pad (BitVec.ofNat 64 vString.strlen)).setWidth 32).toNat = 4 + padded vString.strlen := by
      have hpad := pad_strlen (show padded vString.strlen < 2 ^ 31 by omega)
      rw [BitVec.setWidth_add _ _ (by omega)]
      bv_omega
    bv_omega
  | other type unknown =>
    simp only [valueSize,settingLen]
    exact hstart

theorem foldl_settingLen (list : XSettingsList) (len : BitVec 32)
    (h : len.toNat + (list.map settingSize).sum < 2 ^ 31) :
    (list.foldl (fun len setting => len + settingLen setting) len).toNat =
      len.toNat + (list.map settingSize).sum := by
  induction list generalizing len with
  | nil => rfl
  | cons setting next ih =>
    simp only [List.map_cons,List.sum_cons] at h ⊢
    have hlen : (len + settingLen setting).toNat = len.toNat + settingSize setting := by
      rw [BitVec.toNat_add,settingLen_toNat (by omega),Nat.mod_eq_of_lt (by omega)]
    rw [List.foldl_cons,ih (len + settingLen setting) (by omega),hlen]
    omega

theorem sum_settingLen {list : XSettingsList} (h : (list.map settingSize).sum < 2 ^ 31) :
    (list.map (fun setting => (settingLen setting).toNat)).sum = (list.map settingSize).sum := by
  induction list with
  | nil => rfl
  | cons setting next ih =>
    simp only [List.map_cons,List.sum_cons] at h ⊢
    rw [settingLen_toNat (by omega),ih (by omega)]

/-! ## Writing -/

theorem writes_putPadded {str : CString} (hsize : padded str.strlen < 2 ^ 31) :
    Buffer.Writes (fun b => putPadded b str (BitVec.ofNat 32 str.strlen)) (paddedBytes str) := by
  have hle := le_padded str.strlen
  have hsub : padded str.strlen ≤ str.strlen + 3 := Nat.div_mul_le_self _ _
  have hval : (BitVec.ofNat 32 str.strlen).toNat = str.strlen := toNat_ofNat_lt (by omega)
  have hpad : (pad (BitVec.ofNat 32 str.strlen)).toNat = padded str.strlen := by
    rw [pad_toNat (by omega) (by omega),hval]
  have hint : ¬ (BitVec.ofNat 32 str.strlen).toInt < 0 := by
    rw [BitVec.toInt_eq_toNat_of_lt (by omega)]
    omega
  have hzeros : (pad (BitVec.ofNat 32 str.strlen) - BitVec.ofNat 32 str.strlen).toInt.toNat =
      padded str.strlen - str.strlen := by
    have hdiff : (pad (BitVec.ofNat 32 str.strlen) - BitVec.ofNat 32 str.strlen).toNat =
        padded str.strlen - str.strlen := by
      rw [BitVec.toNat_sub_of_le (by rw [BitVec.le_def]; omega),hpad,hval]
    rw [BitVec.toInt_eq_toNat_of_lt (by omega),hdiff,Int.toNat_natCast]
  have htext : str.bytes.take str.strlen = str.bytes := List.take_length
  have heq : (fun b : Buffer => putPadded b str (BitVec.ofNat 32 str.strlen)) =
      fun b => b.put str.bytes >>= fun b => b.put (List.replicate (padded str.strlen - str.strlen) 0) := by
    funext b
    simp only [putPadded,hint,↓reduceIte,hval,htext,hzeros]
  rw [heq]
  exact (Buffer.writes_put _).bind (Buffer.writes_put _)

theorem writes_encodeValue (o : ByteOrder) {v : XSettingsValue} (hsize : valueSize v < 2 ^ 31) :
    Buffer.Writes (fun b => encodeValue o b v) (valueBytes o v) := by
  cases v with
  | int vInt => exact Buffer.writes_put _
  | color vColor =>
    apply (Buffer.writes_put _).bind
    apply (Buffer.writes_put _).bind
    exact (Buffer.writes_put _).bind (Buffer.writes_put _)
  | string vString =>
    rw [valueSize] at hsize
    exact (Buffer.writes_put _).bind (writes_putPadded (by omega))
  | other type unknown => exact Buffer.writes_some

theorem writes_encode (o : ByteOrder) {setting : XSettingsSetting} (hsize : settingSize setting < 2 ^ 31) :
    Buffer.Writes (fun b => encode o b setting) (settingBytes o setting) := by
  rw [settingSize] at hsize
  apply (Buffer.writes_put _).bind
  apply (Buffer.writes_put _).bind
  apply (Buffer.writes_put _).bind
  apply (writes_putPadded (by omega)).bind
  exact (Buffer.writes_put _).bind (writes_encodeValue o (by omega))

theorem writes_encodeList (o : ByteOrder) {list : XSettingsList} (hsize : (list.map settingSize).sum < 2 ^ 31) :
    Buffer.Writes (fun b => encodeList o b list) (list.flatMap (settingBytes o)) := by
  induction list with
  | nil => exact Buffer.writes_some
  | cons setting next ih =>
    simp only [List.map_cons,List.sum_cons] at hsize
    rw [List.flatMap_cons]
    exact (writes_encode o (by omega)).bind (ih (by omega))

/-- A published property: three bytes of the header are never written. -/
def propertyBytes (o : ByteOrder) (unwritten : List UInt8) (data : XSettingsData) : List UInt8 :=
  [orderMark o] ++ unwritten ++ (o.bytes32 (data.serial.setWidth 32) ++
    (o.bytes32 (BitVec.ofNat 32 data.settings.length) ++ data.settings.flatMap (settingBytes o)))

theorem length_flatMap_settingBytes (o : ByteOrder) (list : XSettingsList) :
    (list.flatMap (settingBytes o)).length = (list.map settingSize).sum := by
  induction list with
  | nil => rfl
  | cons setting next ih => simp [ih]

/-- The manager's writes stay in its buffer and fill it. -/
theorem managerNotify_writes (o : ByteOrder) (fresh : (n : ℕ) → Vector UInt8 n) {data : XSettingsData}
    (h : 12 + (data.settings.map settingSize).sum < 2 ^ 31) :
    ∃ b unwritten, managerNotify o fresh data = some (b,{ data with serial := data.serial + 1 }) ∧
      unwritten.length = 3 ∧ b.data = propertyBytes o unwritten data ∧ b.pos = b.data.length := by
  have hlen : (bufferLen data.settings).toNat = 12 + (data.settings.map settingSize).sum :=
    foldl_settingLen data.settings 12 h
  have hint : ¬ (bufferLen data.settings).toInt < 0 := by
    rw [BitVec.toInt_eq_toNat_of_lt (by omega)]
    omega
  obtain ⟨free,hfree,hfreelen⟩ : ∃ free, free = (fresh (bufferLen data.settings).toNat).toList ∧
      free.length = 12 + (data.settings.map settingSize).sum := ⟨_,rfl,by simp [hlen]⟩
  have hstart : (Buffer.mk free 0).Wrote [] free := ⟨rfl,rfl⟩
  obtain ⟨b₁,hput₁,hb₁⟩ := hstart.put [orderMark o] (by rw [List.length_singleton]; omega)
  have hskip := hb₁.skip 3 (by rw [List.length_drop,List.length_singleton]; omega)
  have hrest := ((Buffer.writes_put (o.bytes32 (data.serial.setWidth 32))).bind
    ((Buffer.writes_put (o.bytes32 (BitVec.ofNat 32 data.settings.length))).bind
      (writes_encodeList o (show (data.settings.map settingSize).sum < 2 ^ 31 by omega))))
  obtain ⟨b₂,hput₂,hb₂⟩ := hrest _ _ _ hskip (by
    simp only [List.length_append,ByteOrder.length_bytes32,length_flatMap_settingBytes,List.length_drop,
      List.length_singleton]
    omega)
  have hfull : b₂.data = propertyBytes o ((free.drop 1).take 3) data := by
    have hnil : ((free.drop 1).drop 3).drop (o.bytes32 (data.serial.setWidth 32) ++
        (o.bytes32 (BitVec.ofNat 32 data.settings.length) ++
          data.settings.flatMap (settingBytes o))).length = [] := by
      apply List.drop_eq_nil_of_le
      simp only [List.length_append,ByteOrder.length_bytes32,length_flatMap_settingBytes,List.length_drop]
      omega
    have hdata := hb₂.data_eq
    rw [List.length_singleton,hnil,List.append_nil,List.nil_append] at hdata
    exact hdata
  refine ⟨b₂,(free.drop 1).take 3,?_,?_,hfull,?_⟩
  · simp only [managerNotify,hint,↓reduceIte,← hfree,hput₁,Option.bind_eq_bind,Option.bind_some,
      ← Option.bind_assoc] at hput₂ ⊢
    rw [hput₂,Option.bind_some]
  · rw [List.length_take,List.length_drop]
    omega
  · have hpos := hb₂.pos_eq
    rw [hfull,hpos]
    simp only [List.nil_append,List.length_singleton,propertyBytes]

/-! ## Writing without regard to limits -/

theorem advances_putPadded (str : CString) (strLen : BitVec 32) :
    Buffer.Advances (fun b => putPadded b str strLen) := by
  intro b b' h
  simp only [putPadded] at h
  split_ifs at h
  exact (Buffer.advances_put _).bind (Buffer.advances_put _) b b' h

theorem advances_encodeValue (o : ByteOrder) (v : XSettingsValue) :
    Buffer.Advances (fun b => encodeValue o b v) := by
  cases v with
  | int vInt => exact Buffer.advances_put _
  | color vColor =>
    apply (Buffer.advances_put _).bind
    apply (Buffer.advances_put _).bind
    exact (Buffer.advances_put _).bind (Buffer.advances_put _)
  | string vString => exact (Buffer.advances_put _).bind (advances_putPadded vString _)
  | other type unknown => exact Buffer.advances_some

theorem advances_encode (o : ByteOrder) (setting : XSettingsSetting) :
    Buffer.Advances (fun b => encode o b setting) := by
  apply (Buffer.advances_put _).bind
  apply (Buffer.advances_put _).bind
  apply (Buffer.advances_put _).bind
  apply (advances_putPadded setting.name _).bind
  exact (Buffer.advances_put _).bind (advances_encodeValue o setting.value)

theorem advances_encodeList (o : ByteOrder) (list : XSettingsList) :
    Buffer.Advances (fun b => encodeList o b list) := by
  induction list with
  | nil => exact Buffer.advances_some
  | cons setting next ih => exact (advances_encode o setting).bind ih

theorem orderOfMark_orderMark (o : ByteOrder) : orderOfMark (orderMark o) = some o := by
  cases o <;> rfl

/-! ## Reading what was written -/

section
variable {o : ByteOrder} (localOrder : ByteOrder) {data rest : List UInt8} {pos : ℕ}

theorem drop_of_drop {bs : List UInt8} (h : data.drop pos = bs ++ rest) :
    data.drop (pos + bs.length) = rest := by
  rw [← List.drop_drop,h,List.drop_left]

theorem add_length_le {bs : List UInt8} (h : data.drop pos = bs ++ rest) (hpos : pos ≤ data.length) :
    pos + bs.length ≤ data.length := by
  have hlen := congrArg List.length h
  simp only [List.length_drop,List.length_append] at hlen
  omega

theorem card16At_of_drop {x : BitVec 16} (h : data.drop pos = o.bytes16 x ++ rest) :
    card16At o data pos = x := by
  rw [card16At,h,List.take_left' (ByteOrder.length_bytes16 o x),ByteOrder.card16_bytes16]

theorem card32At_of_drop {x : BitVec 32} (h : data.drop pos = o.bytes32 x ++ rest) :
    card32At o data pos = x := by
  rw [card32At,h,List.take_left' (ByteOrder.length_bytes32 o x),ByteOrder.card32_bytes32]

theorem text_of_drop {str : CString} (h : data.drop pos = paddedBytes str ++ rest) :
    CString.ofBuf ((data.drop pos).take str.strlen) = str := by
  rw [h,paddedBytes,List.append_assoc,List.take_left' (show str.bytes.length = str.strlen from rfl),
    CString.ofBuf_bytes]

theorem completes_valueBytes {v : XSettingsValue} (hv : v.Known) (hlen : data.length < 2 ^ 31)
    (hpos : pos ≤ data.length) (h : data.drop pos = valueBytes o v ++ rest) :
    Completes (decodeValue o localOrder v.type) data pos (pos + valueSize v) v := by
  have hend := add_length_le h hpos
  rw [length_valueBytes] at hend
  cases v with
  | int vInt =>
    have hint : Completes (decodeValue o localOrder 0) data pos _ _ := completes_decodeValue_int hend
    rwa [card32At_of_drop h] at hint
  | color vColor =>
    have hcolor : Completes (decodeValue o localOrder 2) data pos _ _ := completes_decodeValue_color hend
    simp only [valueBytes,List.append_assoc] at h
    have hgreen := drop_of_drop h
    rw [ByteOrder.length_bytes16] at hgreen
    have hblue := drop_of_drop hgreen
    rw [ByteOrder.length_bytes16] at hblue
    have halpha := drop_of_drop hblue
    rw [ByteOrder.length_bytes16] at halpha
    rwa [card16At_of_drop h,card16At_of_drop hgreen,card16At_of_drop hblue,card16At_of_drop halpha] at hcolor
  | string vString =>
    simp only [valueSize] at hend ⊢
    simp only [valueBytes,List.append_assoc] at h
    have htext := drop_of_drop h
    rw [ByteOrder.length_bytes32] at htext
    have hle := le_padded vString.strlen
    have hk : (card32At o data pos).toNat = vString.strlen := by
      rw [card32At_of_drop h,toNat_ofNat_lt (by omega)]
    have hstring : Completes (decodeValue o localOrder 1) data pos _ _ :=
      completes_decodeValue_string hk hlen (by omega)
    rwa [text_of_drop htext,Nat.add_assoc] at hstring
  | other type unknown => exact absurd hv id

/-- The setting as its bytes give it: the serial of its last change is cut to 32 bits. -/
def onWire (setting : XSettingsSetting) : XSettingsSetting :=
  { setting with lastChangeSerial := (setting.lastChangeSerial.setWidth 32).setWidth 64 }

theorem completes_settingBytes {setting : XSettingsSetting} (hv : setting.value.Known)
    (hname : setting.name.strlen < 2 ^ 16) (hlen : data.length < 2 ^ 31) (hpos : pos ≤ data.length)
    (h : data.drop pos = settingBytes o setting ++ rest) :
    Completes (decodeSetting o localOrder) data pos (pos + settingSize setting) (onWire setting) := by
  have hend := add_length_le h hpos
  rw [length_settingBytes] at hend
  simp only [settingSize] at hend ⊢
  simp only [settingBytes,List.append_assoc] at h
  have htype : card8At data pos = setting.value.type := by
    rw [card8At,h]
    rfl
  have hlength := drop_of_drop (drop_of_drop h)
  simp only [List.length_singleton,Nat.add_assoc,Nat.reduceAdd] at hlength
  have htext := drop_of_drop hlength
  simp only [ByteOrder.length_bytes16,Nat.add_assoc,Nat.reduceAdd] at htext
  have hserial := drop_of_drop htext
  rw [length_paddedBytes] at hserial
  have hvalue := drop_of_drop hserial
  rw [ByteOrder.length_bytes32] at hvalue
  have hk : (card16At o data (pos + 2)).toNat = setting.name.strlen := by
    have hx : (BitVec.ofNat 32 setting.name.strlen).setWidth 16 = BitVec.ofNat 16 setting.name.strlen := by
      rw [BitVec.setWidth_ofNat_of_le (by omega)]
    rw [card16At_of_drop hlength,hx,toNat_ofNat_lt hname]
  have hsetting := completes_decodeSetting htype hk (by omega)
    (completes_valueBytes localOrder hv hlen (by omega) hvalue)
  rw [text_of_drop htext,card32At_of_drop hserial] at hsetting
  have hpos' : pos + 4 + padded setting.name.strlen + 4 + valueSize setting.value =
      pos + (8 + padded setting.name.strlen + valueSize setting.value) := by omega
  rwa [hpos'] at hsetting

theorem completes_decodeSettings (hlen : data.length < 2 ^ 31) (list : XSettingsList) :
    ∀ (done : XSettingsList) (pos : ℕ), Sorted (done ++ list) → (∀ s ∈ list, s.value.Known) →
      (∀ s ∈ list, s.name.strlen < 2 ^ 16) → pos ≤ data.length →
      data.drop pos = list.flatMap (settingBytes o) ++ rest →
      ∃ pos', Completes (decodeSettings o localOrder list.length (done.map onWire)) data pos pos'
        ((done ++ list).map onWire) := by
  induction list with
  | nil =>
    intro done pos _ _ _ _ _
    refine ⟨pos,?_⟩
    rw [List.append_nil]
    exact completes_pure
  | cons setting next ih =>
    intro done pos hsorted hknown hnames hpos h
    rw [List.flatMap_cons,List.append_assoc] at h
    have hsetting := completes_settingBytes localOrder (hknown setting List.mem_cons_self)
      (hnames setting List.mem_cons_self) hlen hpos h
    have hend := add_length_le h hpos
    have hnext := drop_of_drop h
    rw [length_settingBytes] at hend hnext
    have hlast : ∀ s ∈ done.map onWire, s.name < (onWire setting).name := by
      intro s hs
      obtain ⟨s',hs',rfl⟩ := List.mem_map.mp hs
      exact (List.pairwise_append.mp hsorted).2.2 s' hs' setting List.mem_cons_self
    have hadd : (listAdd (done.map onWire) (onWire setting)).2 = (done ++ [setting]).map onWire := by
      rw [listAdd_eq_insertNew,insertNew_last hlast,List.map_append,List.map_singleton]
    obtain ⟨pos',hrest⟩ := ih (done ++ [setting]) (pos + settingSize setting) (by simpa using hsorted)
      (fun s hs => hknown s (List.mem_cons_of_mem _ hs)) (fun s hs => hnames s (List.mem_cons_of_mem _ hs))
      hend hnext
    refine ⟨pos',hsetting.bind ?_⟩
    have happend : done ++ setting :: next = done ++ [setting] ++ next := List.append_cons done setting next
    rw [hadd,happend]
    exact hrest

end

structure Headed (o : ByteOrder) (serial : BitVec 32) (bytes rest : List UInt8) : Prop where
  mark : orderOfMark (card8At bytes 0) = some o
  serial_eq : card32At o bytes 4 = serial
  rest_eq : bytes.drop 8 = rest
  length : bytes.length = 8 + rest.length

theorem headed_append (o : ByteOrder) (serial : BitVec 32) {unwritten : List UInt8} (hu : unwritten.length = 3)
    (rest : List UInt8) :
    Headed o serial ([orderMark o] ++ unwritten ++ (o.bytes32 serial ++ rest)) rest := by
  obtain ⟨bytes,hbytes⟩ : ∃ bytes, bytes = [orderMark o] ++ unwritten ++ (o.bytes32 serial ++ rest) := ⟨_,rfl⟩
  rw [← hbytes]
  have hstart : bytes.drop 0 = ([orderMark o] ++ unwritten) ++ (o.bytes32 serial ++ rest) := hbytes
  have hserial := drop_of_drop hstart
  simp only [List.length_append,List.length_singleton,hu,Nat.reduceAdd] at hserial
  have hrest := drop_of_drop hserial
  rw [ByteOrder.length_bytes32] at hrest
  refine ⟨?_,card32At_of_drop hserial,hrest,?_⟩
  · rw [card8At,hstart]
    exact orderOfMark_orderMark o
  · rw [hbytes]
    simp only [List.length_append,List.length_singleton,hu,ByteOrder.length_bytes32]
    omega

theorem Headed.decode_serial {o : ByteOrder} {serial : BitVec 32} {bytes rest : List UInt8}
    (h : Headed o serial bytes rest) (localOrder : ByteOrder) :
    (decode localOrder bytes).serial = some serial := by
  have hlen := h.length
  obtain ⟨r,-,hd⟩ := decode_of_header localOrder h.mark (by omega)
  rw [hd,h.serial_eq]

/-- Whatever the list, the header of what is published holds the manager's serial. -/
theorem headed_managerNotify {o : ByteOrder} {fresh : (n : ℕ) → Vector UInt8 n} {data data' : XSettingsData}
    {b : Buffer} (h : managerNotify o fresh data = some (b,data')) :
    data' = { data with serial := data.serial + 1 } ∧ ∃ rest, Headed o (data.serial.setWidth 32) b.data rest := by
  unfold managerNotify at h
  dsimp only at h
  split_ifs at h
  obtain ⟨b₁,hmark,h⟩ := Option.bind_eq_some_iff.mp h
  obtain ⟨b₂,hserial,h⟩ := Option.bind_eq_some_iff.mp h
  obtain ⟨b₃,hcount,h⟩ := Option.bind_eq_some_iff.mp h
  obtain ⟨b₄,hlist,h⟩ := Option.bind_eq_some_iff.mp h
  cases h
  refine ⟨rfl,b.data.drop 8,?_⟩
  obtain ⟨free,hfree⟩ : ∃ free, free = (fresh (bufferLen data.settings).toNat).toList := ⟨_,rfl⟩
  rw [← hfree] at hmark
  have hb₁ := (show (Buffer.mk free 0).Wrote [] free from ⟨rfl,rfl⟩).of_put hmark
  have hroom : 3 ≤ (free.drop [orderMark o].length).length := by
    have hfit : (b₁.skip 3).pos + 4 ≤ (b₁.skip 3).data.length := by
      unfold Buffer.put at hserial
      split_ifs at hserial with hfit
      simpa using hfit
    have hlen := congrArg List.length hb₁.data_eq
    have hpos := hb₁.pos_eq
    simp only [Buffer.skip,List.nil_append,List.length_append,List.length_singleton] at hfit hlen hpos ⊢
    omega
  obtain ⟨unwritten,hunwritten⟩ : ∃ unwritten, unwritten = (free.drop [orderMark o].length).take 3 := ⟨_,rfl⟩
  have hu : unwritten.length = 3 := by
    rw [hunwritten,List.length_take,Nat.min_eq_left hroom]
  have hb₂ := (hb₁.skip 3 hroom).of_put hserial
  -- what was written up to here stays
  have hkept := ((Buffer.advances_put _ b₂ b₃ hcount).trans (advances_encodeList o data.settings b₃ b hlist)).kept
  have height : ([orderMark o] ++ unwritten ++ o.bytes32 (data.serial.setWidth 32)).length = 8 := by
    simp [hu]
  rw [hb₂.pos_eq,hb₂.data_eq,List.take_left,← hunwritten,List.nil_append,height] at hkept
  have hdata : b.data = [orderMark o] ++ unwritten ++ (o.bytes32 (data.serial.setWidth 32) ++ b.data.drop 8) := by
    rw [← List.append_assoc,← hkept,List.take_append_drop]
  have hheaded := headed_append o (data.serial.setWidth 32) hu (b.data.drop 8)
  rwa [← hdata] at hheaded

theorem length_le_sum (list : XSettingsList) : list.length * 8 ≤ (list.map settingSize).sum := by
  induction list with
  | nil => exact Nat.le_refl 0
  | cons setting next ih =>
    simp only [List.length_cons,List.map_cons,List.sum_cons,settingSize]
    omega

theorem length_propertyBytes (o : ByteOrder) {unwritten : List UInt8} (hu : unwritten.length = 3)
    (data : XSettingsData) :
    (propertyBytes o unwritten data).length = 12 + (data.settings.map settingSize).sum := by
  simp only [propertyBytes,List.length_append,List.length_singleton,ByteOrder.length_bytes32,
    length_flatMap_settingBytes,hu]
  omega

/-- A published property decodes to the list and the serial it was made from. -/
theorem decode_propertyBytes (o localOrder : ByteOrder) {unwritten : List UInt8} (hu : unwritten.length = 3)
    {data : XSettingsData} (h : Encodable data.settings) :
    (decode localOrder (propertyBytes o unwritten data)).result = .ok (data.settings.map onWire) ∧
      (decode localOrder (propertyBytes o unwritten data)).serial = some (data.serial.setWidth 32) := by
  have hlen := length_propertyBytes o hu data
  have hshort := h.short
  have hheaded := headed_append o (data.serial.setWidth 32) hu
    (o.bytes32 (BitVec.ofNat 32 data.settings.length) ++ data.settings.flatMap (settingBytes o))
  rw [propertyBytes] at hlen ⊢
  obtain ⟨bytes,hbytes⟩ : ∃ bytes, bytes = [orderMark o] ++ unwritten ++
      (o.bytes32 (data.serial.setWidth 32) ++ (o.bytes32 (BitVec.ofNat 32 data.settings.length) ++
        data.settings.flatMap (settingBytes o))) := ⟨_,rfl⟩
  rw [← hbytes] at hheaded hlen ⊢
  have hcount := hheaded.rest_eq
  have hsettings := drop_of_drop hcount
  rw [ByteOrder.length_bytes32,← List.append_nil (data.settings.flatMap (settingBytes o))] at hsettings
  have hn : (card32At o bytes 8).toNat = data.settings.length := by
    have hsum := length_le_sum data.settings
    rw [card32At_of_drop hcount,toNat_ofNat_lt (by omega)]
  obtain ⟨pos',hloop⟩ := completes_decodeSettings localOrder (by omega) data.settings [] 12
    h.sorted h.known h.names (by omega) hsettings
  have hlist : Completes (decodeList o localOrder) bytes 8 pos' (data.settings.map onWire) := by
    apply (completes_fetchCard32 (by omega)).bind
    rw [hn]
    exact hloop
  obtain ⟨r,hr,hd⟩ := decode_of_header localOrder hheaded.mark (by omega)
  obtain ⟨r',hread,-⟩ := hlist r hr
  refine ⟨?_,hheaded.decode_serial localOrder⟩
  rw [hd,hread]

/-- What one `notify` publishes, on a machine of byte order `o`, a client of byte order
`localOrder` reads: the manager's list and serial, in 32 bits. Every write stays in the
buffer, and the last one ends where the computed length does. With the other byte order
for `o`, the mark is the opposite one and every field has its bytes swapped. -/
theorem managerNotify_decode (o localOrder : ByteOrder) (fresh : (n : ℕ) → Vector UInt8 n)
    (data : XSettingsData) (h : Encodable data.settings) :
    ∃ b, managerNotify o fresh data = some (b,{ data with serial := data.serial + 1 }) ∧
      b.pos = b.data.length ∧
      b.data.length = 12 + (data.settings.map (fun setting => (settingLen setting).toNat)).sum ∧
      (decode localOrder b.data).result = .ok (data.settings.map onWire) ∧
      (decode localOrder b.data).serial = some (data.serial.setWidth 32) := by
  obtain ⟨b,unwritten,hnotify,hu,hdata,hpos⟩ := managerNotify_writes o fresh h.short
  refine ⟨b,hnotify,hpos,?_,?_⟩
  · have hshort := h.short
    rw [hdata,length_propertyBytes o hu,sum_settingLen (by omega)]
  · rw [hdata]
    exact decode_propertyBytes o localOrder hu h

instance (list : XSettingsList) : Decidable (Encodable list) :=
  decidable_of_iff (Sorted list ∧ (∀ s ∈ list, s.name.strlen < 2 ^ 16 ∧ s.value.Known) ∧
      12 + (list.map settingSize).sum < 2 ^ 31)
    ⟨fun ⟨h1,h2,h3⟩ => ⟨h1,fun s hs => (h2 s hs).1,fun s hs => (h2 s hs).2,h3⟩,
      fun ⟨h1,h2,h3,h4⟩ => ⟨h1,fun s hs => ⟨h2 s hs,h3 s hs⟩,h4⟩⟩

/-- One setting of each type, written on a machine of one byte order and read on one of
the other. -/
def threeSettings : XSettingsList :=
  [⟨CString.ofBuf [65],.int 7,1⟩,
    ⟨CString.ofBuf [66,67,68,69],.string (CString.ofBuf [104,105]),0⟩,
    ⟨CString.ofBuf [67,68],.color ⟨1,2,3,4⟩,0x100000001⟩]

theorem managerNotify_decode_threeSettings :
    ∃ b, managerNotify .msbFirst (fun n => Vector.replicate n 170) ⟨threeSettings,3⟩ =
        some (b,⟨threeSettings,4⟩) ∧ b.pos = b.data.length ∧
      b.data.length = 12 + (threeSettings.map (fun setting => (settingLen setting).toNat)).sum ∧
      (decode .lsbFirst b.data).result = .ok (threeSettings.map onWire) ∧
      (decode .lsbFirst b.data).serial = some 3 :=
  managerNotify_decode .msbFirst .lsbFirst _ ⟨threeSettings,3⟩ (by decide +kernel)

end Edelib.XSettings
