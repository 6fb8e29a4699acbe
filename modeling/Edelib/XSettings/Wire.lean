import Edelib.Foundation.Buffer
import Edelib.Foundation.Bytes
import Edelib.XSettings.Setting

/-! # The property on the wire

A settings list is published as bytes: a header with the byte order, the serial and
the number of settings, then the settings, names and strings padded to four bytes.
Lengths are computed in the integer types of the source.
-/
namespace Edelib.XSettings
open Foundation

structure XSettingsData where
  settings : XSettingsList
  serial : BitVec 64

def pad {w : ℕ} (n : BitVec w) : BitVec w := (n + 4#w - 1#w) &&& ~~~(4#w - 1#w)

def settingLen (setting : XSettingsSetting) : BitVec 32 :=
  let len : BitVec 32 := 8
  let len := len + (pad (BitVec.ofNat 64 setting.name.strlen)).setWidth 32
  match setting.value with
  | .int _ => len + 4
  | .color _ => len + 8
  | .string vString => len + (4 + pad (BitVec.ofNat 64 vString.strlen)).setWidth 32
  | .other _ _ => len

/-! ## Writing -/

/-- `memcpy` of `strLen` bytes, then zeros up to the padded length; a negative
length becomes a huge count. -/
def putPadded (b : Buffer) (str : CString) (strLen : BitVec 32) : Option Buffer :=
  let len := pad strLen
  if strLen.toInt < 0 then none
  else do
    let b ← b.put (str.bytes.take strLen.toNat)
    b.put (List.replicate (len - strLen).toInt.toNat 0)

def encodeValue (o : ByteOrder) (b : Buffer) : XSettingsValue → Option Buffer
  | .int vInt => b.put (o.bytes32 vInt)
  | .color vColor => do
    let b ← b.put (o.bytes16 vColor.red)
    let b ← b.put (o.bytes16 vColor.green)
    let b ← b.put (o.bytes16 vColor.blue)
    b.put (o.bytes16 vColor.alpha)
  | .string vString => do
    let strLen := BitVec.ofNat 32 vString.strlen
    let b ← b.put (o.bytes32 strLen)
    putPadded b vString strLen
  | .other _ _ => some b

def encode (o : ByteOrder) (b : Buffer) (setting : XSettingsSetting) : Option Buffer := do
  let b ← b.put [setting.value.type]
  let b ← b.put [0]
  let strLen := BitVec.ofNat 32 setting.name.strlen
  let b ← b.put (o.bytes16 (strLen.setWidth 16))
  let b ← putPadded b setting.name strLen
  let b ← b.put (o.bytes32 (setting.lastChangeSerial.setWidth 32))
  encodeValue o b setting.value

def encodeList (o : ByteOrder) : Buffer → XSettingsList → Option Buffer
  | b, [] => some b
  | b, setting :: next => do
    let b ← encode o b setting
    encodeList o b next

def bufferLen (list : XSettingsList) : BitVec 32 :=
  list.foldl (fun len setting => len + settingLen setting) 12

def orderMark : ByteOrder → UInt8
  | .lsbFirst => 0
  | .msbFirst => 1

/-- The buffer handed to the server, on a machine of byte order `o`, and the data with
the serial advanced; `fresh` is what allocated memory holds. -/
def managerNotify (o : ByteOrder) (fresh : (n : ℕ) → Vector UInt8 n) (data : XSettingsData) :
    Option (Buffer × XSettingsData) :=
  let len := bufferLen data.settings
  if len.toInt < 0 then none
  else do
    let b : Buffer := ⟨(fresh len.toNat).toList,0⟩
    let b ← b.put [orderMark o]
    let b := b.skip 3
    let b ← b.put (o.bytes32 (data.serial.setWidth 32))
    let data := { data with serial := data.serial + 1 }
    let b ← b.put (o.bytes32 (BitVec.ofNat 32 data.settings.length))
    let b ← encodeList o b data.settings
    some (b,data)

/-! ## Reading -/

section Decoding
open Decoder
variable (order localOrder : ByteOrder)

def fetchBytes (n : ℕ) : Decoder (List UInt8) := do
  let left ← bytesLeft
  if left < n then fail else fetch n

def fetchCard8 : Decoder UInt8 := do
  let x ← fetchBytes 1
  pure (x.headD 0)

def fetchCard16 : Decoder (BitVec 16) := do
  let x ← fetchBytes 2
  let x := localOrder.card16 x
  pure (if order = localOrder then x else ByteOrder.swap16 x)

def fetchCard32 : Decoder (BitVec 32) := do
  let x ← fetchBytes 4
  let x := localOrder.card32 x
  pure (if order = localOrder then x else ByteOrder.swap32 x)

def orderOfMark (mark : UInt8) : Option ByteOrder :=
  if mark = orderMark .msbFirst then some .msbFirst
  else if mark = orderMark .lsbFirst then some .lsbFirst
  else none

def decodeHeader : Decoder (ByteOrder × BitVec 32) := do
  let mark ← fetchCard8
  match orderOfMark mark with
  | none => fail
  | some order => do
    seek 3
    let managerSerial ← fetchCard32 order localOrder
    pure (order,managerSerial)

def decodeName : Decoder CString := do
  let nameLen ← fetchCard16 order localOrder
  let padLen := pad (nameLen.setWidth 32)
  let left ← bytesLeft
  if left < padLen.toInt then fail
  else do
    let name ← copy nameLen.toNat
    seek padLen.toInt
    pure (CString.ofBuf name)

def decodeString : Decoder CString := do
  let vInt ← fetchCard32 order localOrder
  let padLen := pad vInt
  let left ← bytesLeft
  -- the length of 2 ^ 32 - 1 is refused; the padded length is compared as a signed one
  if vInt + 1 = 0 ∨ left < padLen.toInt then fail
  else do
    let vString ← copy vInt.toNat
    seek padLen.toInt
    pure (CString.ofBuf vString)

theorem two_lt_type {type : UInt8} (h₀ : type ≠ 0) (h₁ : type ≠ 1) (h₂ : type ≠ 2) : 2 < type := by
  have h₀ : type.toNat ≠ 0 := fun h => h₀ (UInt8.toNat_inj.mp h)
  have h₁ : type.toNat ≠ 1 := fun h => h₁ (UInt8.toNat_inj.mp h)
  have h₂ : type.toNat ≠ 2 := fun h => h₂ (UInt8.toNat_inj.mp h)
  rw [UInt8.lt_iff_toNat_lt]
  change 2 < type.toNat
  omega

def decodeValue (type : UInt8) : Decoder XSettingsValue :=
  if h₀ : type = 0 then do
    let vInt ← fetchCard32 order localOrder
    pure (.int vInt)
  else if h₁ : type = 1 then do
    let vString ← decodeString order localOrder
    pure (.string vString)
  else if h₂ : type = 2 then do
    let red ← fetchCard16 order localOrder
    let green ← fetchCard16 order localOrder
    let blue ← fetchCard16 order localOrder
    let alpha ← fetchCard16 order localOrder
    pure (.color ⟨red,green,blue,alpha⟩)
  else pure (.other type (two_lt_type h₀ h₁ h₂))

def decodeSetting : Decoder XSettingsSetting := do
  let type ← fetchCard8
  seek 1
  let name ← decodeName order localOrder
  let serial ← fetchCard32 order localOrder
  let value ← decodeValue order localOrder type
  pure ⟨name,value,serial.setWidth 64⟩

def decodeSettings : ℕ → XSettingsList → Decoder XSettingsList
  | 0, settingsList => pure settingsList
  | n + 1, settingsList => do
    let setting ← decodeSetting order localOrder
    decodeSettings n (listAdd settingsList setting).2

def decodeList : Decoder XSettingsList := do
  let nEntries ← fetchCard32 order localOrder
  decodeSettings order localOrder nEntries.toNat []

end Decoding

/-- What a call of `xsettings_decode` leaves: its list, or NULL, the serial when it
was stored, and the accesses made. -/
structure Decoded where
  result : Outcome XSettingsList
  serial : Option (BitVec 32)
  trace : List Access

def decode (localOrder : ByteOrder) (data : List UInt8) : Decoded :=
  match decodeHeader localOrder ⟨data,0,[]⟩ with
  | (.ok (order,serial),r) =>
    let (result,r) := decodeList order localOrder r
    ⟨result,some serial,r.trace⟩
  | (.fail,r) => ⟨.fail,none,r.trace⟩
  | (.fault,r) => ⟨.fault,none,r.trace⟩

end Edelib.XSettings
