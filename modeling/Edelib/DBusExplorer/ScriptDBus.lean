import Edelib.Edbus.MessageRuns
import Edelib.Foundation.CInt
import Edelib.Foundation.Reported

/-! # D-Bus calls of scripts

The typed values of a script become the arguments of a message. A failed assertion, and reading what is not there,
have no result.
-/
namespace Edelib.DBusExplorer
open Foundation Edbus

/-! ## Scheme -/

/-- A vector is given by the list of its elements. -/
inductive Value
  | nil
  | pair (car cdr : Value)
  | symbol (name : String)
  | number (n : ℤ)
  | real (v : BitVec 64)
  | string (s : CString)
  | character (c : ℤ)
  | vector (elements : Value)
  | T
  | F
deriving DecidableEq

def pairs : Value → ℕ
  | .pair _ cdr => pairs cdr + 1
  | _ => 0

/-- The pairs are counted in an `int`. -/
def listLen (args : Value) : ℤ := CInt.ofSize (pairs args)

/-- A double converted to `long`; it has to be in range. -/
def longOfDouble (v : BitVec 64) : Option ℤ :=
  let exponent := ((v >>> 52) &&& 0x7ff).toNat
  let mantissa := 2 ^ 52 + (v &&& 0xfffffffffffff).toNat
  let magnitude : ℕ := mantissa * 2 ^ exponent / 2 ^ 1075
  let l : ℤ := if v.msb then -(magnitude : ℤ) else magnitude
  if -2 ^ 63 ≤ l ∧ l < 2 ^ 63 then some l else none

/-! ## From Scheme to D-Bus -/

def intTags : List String := [":int16",":uint16",":int32",":uint32",":byte",":bool"]

def dataFromInt (sym : String) (iv : BitVec 32) : EdbusData :=
  if sym = ":byte" then .basic (.byte (UInt8.ofBitVec (iv.setWidth 8)))
  else if sym = ":bool" then .basic (.bool (iv != 0))
  else if sym = ":int16" then .basic (.int16 (iv.setWidth 16))
  else if sym = ":uint16" then .basic (.uint16 (iv.setWidth 16))
  else if sym = ":int32" then .basic (.int32 iv)
  else if sym = ":uint32" then .basic (.uint32 iv)
  else .basic .invalid

mutual
/-- `edbus_data_from_pair` -/
def dataFromPair (type val : Value) : Reported EdbusData :=
  match type with
  | .symbol sym =>
    if sym ∈ intTags then
      match val with
      | .number n => .value (dataFromInt sym (BitVec.ofInt 32 n))
      | .real v => (longOfDouble v).elim .aborted (fun l => .value (dataFromInt sym (BitVec.ofInt 32 l)))
      | _ => .refused ["Type marked as byte/bool/integer but the value is not"]
    else if sym = ":double" then
      match val with
      | .real dv => .value (.basic (.double dv))
      | _ => .refused ["Type marked as double but the value is not"]
    else if sym = ":string" then
      match val with
      | .string sv => .value (.basic (.string sv))
      | _ => .refused ["Type marked as string but the value is not"]
    else if sym = ":object-path" then
      match val with
      | .string sv =>
        if validPath sv then .value (.basic (.objectPath (objectPathAppend rootPath sv)))
        else .refused ["Wrong format of object path. The object path must be in '/foo/baz' form"]
      | _ => .refused []
    else if sym = ":array" then
      match val with
      | .pair car cdr =>
        ((containerParamsFromList (listAppend true) (.pair car cdr) []).orReport
          "Unable to fill the array; probably some argument is missing the type").map EdbusData.array
      | _ => .refused ["Type marked as array but the value is not in list form"]
    else if sym = ":list" ∨ sym = ":struct" then
      match val with
      | .pair car cdr =>
        ((containerParamsFromList (listAppend false) (.pair car cdr) []).orReport
          "Unable to fill the list; probably some argument is missing the type").map EdbusData.struct
      | _ => .refused ["Type marked as list but the value is not a list"]
    else if sym = ":variant" then
      match val with
      | .pair varType (.pair varVal rest) =>
        if listLen rest = 0 then
          ((dataFromPair varType varVal).orReport "Unble to construct variant value").map EdbusData.variant
        else .refused
          ["Type marked as variant, but the value is not a list. It must be in form: ':variant (type value)'"]
      | _ => .refused
          ["Type marked as variant, but the value is not a list. It must be in form: ':variant (type value)'"]
    else if sym = ":dict" then
      match val with
      | .pair car cdr => (dictFromList (.pair car cdr) []).map EdbusData.dict
      | _ => .refused ["Wrong format of dictionary. Dictionary must be in list form."]
    else .refused []
  | _ => .refused []
  termination_by (sizeOf val,2)
/-- `edbus_container_params_from_list`; `append` is `operator<<` of the container. -/
def containerParamsFromList (append : List EdbusData → EdbusData → List EdbusData) (args : Value)
    (msg : List EdbusData) : Reported (List EdbusData) :=
  if listLen args < 1 then .refused ["Arguments and their types are not specified."]
  else if listLen args % 2 ≠ 0 then .refused
    ["Mismatched number or arguments and their types. Somewhere you are either missing argument type or type does not have variable"]
  else containerParams append args msg
  termination_by (sizeOf args,1)
def containerParams (append : List EdbusData → EdbusData → List EdbusData) (tmp : Value) (msg : List EdbusData) :
    Reported (List EdbusData) :=
  match tmp with
  | .nil => .value msg
  | .pair t (.pair v rest) =>
    if v = .nil then .aborted
    else (dataFromPair t v).bind (fun data => containerParams append rest (append msg data))
  | _ => .aborted
  termination_by (sizeOf tmp,0)
def dictFromList (it : Value) (dict : List EdbusDictEntry) : Reported (List EdbusDictEntry) :=
  match it with
  | .nil => .value dict
  | .pair kv rest =>
    match kv with
    | .pair keyType (.pair keyVal (.pair valType (.pair valVal tail))) =>
      if listLen tail = 0 then
        ((dataFromPair keyType keyVal).orReport "Unable to construct dictionary key").bind (fun dictKey =>
          ((dataFromPair valType valVal).orReport "Unable to construct dictionary value").bind (fun dictVal =>
            (dictAppend dict dictKey dictVal).elim .aborted (fun dict => dictFromList rest dict)))
      else .refused ["Bad format of dictionary. It must be in form '((:type key :type value) ...)"]
    | _ => .refused ["Bad format of dictionary. It must be in form '((:type key :type value) ...)"]
  | _ => .aborted
  termination_by (sizeOf it,0)
end

/-- Integers of 64 bits are not built. -/
theorem dataFromPair_int64 (n : ℤ) : dataFromPair (.symbol ":int64") (.number n) = .refused [] := by
  simp [dataFromPair,intTags]

/-! ## From D-Bus to Scheme -/

mutual
/-- `edbus_data_to_scheme_object`; the entries of a dict come in reverse. -/
def dataToSchemeObject : EdbusData → Value
  | .basic .invalid => .F
  | .basic (.byte v) => .character v.toInt8.toInt
  | .basic (.bool v) => .number v.toInt
  | .basic (.int16 v) => .number v.toInt
  | .basic (.uint16 v) => .number v.toNat
  | .basic (.int32 v) => .number v.toInt
  | .basic (.uint32 v) => .number v.toNat
  | .basic (.int64 v) => .number v.toInt
  | .basic (.uint64 v) => .number v.toInt
  | .basic (.double v) => .real v
  | .basic (.string v) => .string v
  | .basic (.objectPath v) => .string v
  | .array lst => .vector (elementsToScheme lst)
  | .struct lst => elementsToScheme lst
  | .dict lst => entriesToScheme lst .nil
  | .variant value => dataToSchemeObject value
  termination_by structural x => x
def elementsToScheme : List EdbusData → Value
  | [] => .nil
  | d :: lst => .pair (dataToSchemeObject d) (elementsToScheme lst)
  termination_by structural x => x
def entriesToScheme : List EdbusDictEntry → Value → Value
  | [], ret => ret
  | ⟨key,value⟩ :: lst, ret =>
    entriesToScheme lst (.pair (.pair (dataToSchemeObject key) (.pair (dataToSchemeObject value) .nil)) ret)
  termination_by structural x => x
end

/-! ## The functions of scripts -/

inductive Header
  | signal (path interface name : CString)
  | methodCall (service path interface name : CString)
deriving DecidableEq

/-- What libdbus does: it may have no message for a header, not take a message, and have no reply to one. -/
structure LibConnection where
  connected : Bool
  makes : Header → Bool
  takes : Bool
  reply : Option (List DBusValue)

section Model
variable (lib : LibDBusCalls)

structure Sent where
  header : Header
  message : EdbusMessage lib

/-- What was sent, and what the function returned; reading a reply may have no result. -/
structure Outcome where
  sent : Option (Sent lib)
  returned : Option Value

variable {lib}

def stringArgument (error : String) : Value → Reported CString
  | .string s => .value s
  | _ => .refused [error]

def methodArguments (args : Value) : Reported (List EdbusData) :=
  match args with
  | .nil => .value []
  | .pair .nil _ => .value []
  | .pair params _ => containerParamsFromList (fun msg data => msg ++ [data]) params []
  | _ => .aborted

def message (conn : LibConnection) (header : Header) (content : List EdbusData) : EdbusMessage lib :=
  content.foldl EdbusMessage.append
    (EdbusMessage.empty.create (if conn.makes header then some (newMessage lib) else none))

variable (lib) (fuel : ℕ) (complain : lib.AppendIter → EdbusData → Option lib.AppendIter) (conn : LibConnection)

def sendMessage (header : Header) (content : List EdbusData) : Reported (Option (Sent lib)) :=
  (send lib complain (message conn header content) conn.takes).elim .aborted
    (fun msg => .value (if conn.takes then some ⟨header,msg⟩ else none))

def scriptBusSignal (args : Value) : Reported (Outcome lib) :=
  if !conn.connected then .refused ["Not connected."]
  else if ¬ (listLen args = 3 ∨ listLen args = 4) then .refused ["Expecting at least 3 and max 4 arguments"]
  else
    match args with
    | .pair path (.pair interface (.pair name _)) =>
      (stringArgument "First argument must be a string" path).bind (fun path =>
      (stringArgument "Second argument must be a string" interface).bind (fun interface =>
      (stringArgument "Third argument must be a string" name).bind (fun name =>
      (sendMessage lib complain conn (.signal path interface name) []).map (fun sent => {
        sent := sent
        returned := some (if sent.isSome then .T else .F) }))))
    | _ => .aborted

/-- What `from_dbus_message` makes of the reply, as a Scheme object. -/
def replyToScheme (values : List DBusValue) : Option Value :=
  (fromDBusMessage lib fuel .empty values false).map (fun reply => reply.content.head?.elim .T dataToSchemeObject)

def scriptBusMethodCall (args : Value) : Reported (Outcome lib) :=
  if !conn.connected then .refused ["Not connected."]
  else if listLen args < 4 then .refused ["Expecting at least 4 arguments"]
  else
    match args with
    | .pair service (.pair path (.pair interface (.pair name args))) =>
      (stringArgument "First argument must be a string" service).bind (fun service =>
      (stringArgument "Second argument must be a string" path).bind (fun path =>
      (stringArgument "Third argument must be a string" interface).bind (fun interface =>
      (stringArgument "Fourth argument must be a string" name).bind (fun name =>
      (methodArguments args).bind (fun content =>
      (sendMessage lib complain conn (.methodCall service path interface name) content).map (fun sent => {
        sent := sent
        returned := (if sent.isSome then conn.reply else none).elim (some .F) (replyToScheme lib fuel) }))))))
    | _ => .aborted

def dbusCall (service path interface name args : Value) : Reported (Outcome lib) :=
  if args = .nil then
    scriptBusMethodCall lib fuel complain conn (.pair service (.pair path (.pair interface (.pair name .nil))))
  else
    scriptBusMethodCall lib fuel complain conn
      (.pair service (.pair path (.pair interface (.pair name (.pair args .nil)))))

end Model

/-- The names that the loaded code binds, each to its own symbol. -/
def schemeTags : List String :=
  [":byte",":bool",":int16",":uint16",":int32",":uint32",":int64",":uint64",":double",":string",":object-path",
    ":array",":struct",":variant",":dict"]

end Edelib.DBusExplorer
