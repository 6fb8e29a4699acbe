import Edelib.Foundation.KeyedList
import Edelib.Text.StrUtil

/-! # Configuration sections and entries

A configuration is a list of named sections, each a list of key/value entries.
Names are compared by a hash and then by `strncmp` over the stored name, and the
last section found is remembered. A pointer into a list is its position there.
-/
namespace Edelib
open Foundation StrUtil

inductive ConfigErrors
  | success | file | bad | section | key | memory | novalue
deriving DecidableEq, Repr

/-- An entry records its key's length and hash when it is built. The value's length is kept in 32 bits; the key's
is not cut, so keys are taken to be shorter than 2^32 bytes. -/
structure ConfigEntry where
  key : CString
  value : CString
  keylen : ℕ
  valuelen : ℕ
  hash : BitVec 32
  keylen_eq : keylen = key.strlen
  valuelen_eq : valuelen = value.strlen % 2 ^ 32
  hash_eq : hash = strHash key keylen

namespace ConfigEntry

def create (key value : CString) : ConfigEntry where
  key := key
  value := value
  keylen := key.strlen
  valuelen := value.strlen % 2 ^ 32
  hash := strHash key key.strlen
  keylen_eq := rfl
  valuelen_eq := rfl
  hash_eq := rfl

def setValue (e : ConfigEntry) (value : CString) : ConfigEntry :=
  { e with value := value, valuelen := value.strlen % 2 ^ 32, valuelen_eq := rfl }

@[simp] theorem create_key (key value : CString) : (create key value).key = key := rfl
@[simp] theorem create_value (key value : CString) : (create key value).value = value := rfl
@[simp] theorem setValue_key (e : ConfigEntry) (value : CString) : (e.setValue value).key = e.key := rfl
@[simp] theorem setValue_value (e : ConfigEntry) (value : CString) : (e.setValue value).value = value := rfl

theorem setValue_self (e : ConfigEntry) : e.setValue e.value = e := by
  obtain ⟨key,value,keylen,valuelen,hash,hk,rfl,hh⟩ := e
  rfl

theorem eq_create (e : ConfigEntry) : e = create e.key e.value := by
  obtain ⟨key,value,keylen,valuelen,hash,rfl,rfl,hh⟩ := e
  simp only [create,hh]

def hasKey (e : ConfigEntry) (hh : BitVec 32) (key : CString) : Bool :=
  hh == e.hash && e.key.strncmp key e.keylen == 0

end ConfigEntry

/-- A section records its name's length and hash when it is built. -/
structure ConfigSection where
  sname : CString
  snamelen : ℕ
  shash : BitVec 32
  entryList : List ConfigEntry
  snamelen_eq : snamelen = sname.strlen
  shash_eq : shash = strHash sname snamelen

namespace ConfigSection

def new (n : CString) : ConfigSection where
  sname := n
  snamelen := n.strlen
  shash := strHash n n.strlen
  entryList := []
  snamelen_eq := rfl
  shash_eq := rfl

def isNamed (cs : ConfigSection) (hh : BitVec 32) (sect : CString) : Bool :=
  cs.shash == hh && cs.sname.strncmp sect cs.snamelen == 0

def findEntry (cs : ConfigSection) (key : CString) : Option ℕ :=
  let hh := strHash key 0
  cs.entryList.findIdx? (fun e => e.hasKey hh key)

def addEntry (cs : ConfigSection) (key value : CString) : ConfigSection :=
  match cs.findEntry key with
  | none => { cs with entryList := cs.entryList ++ [ConfigEntry.create key value] }
  | some i => { cs with entryList := cs.entryList.modify i (fun e => e.setValue value) }

end ConfigSection

structure Config where
  errcode : ConfigErrors
  linenum : BitVec 32
  sectnum : BitVec 32
  cached : Option ℕ
  sectionList : List ConfigSection

namespace Config

/-- The constructor of the source, and what `clear` leaves. -/
def empty : Config where
  errcode := .success
  linenum := 0
  sectnum := 0
  cached := none
  sectionList := []

def clear (_ : Config) : Config := empty

def cachedSection (c : Config) (sect : CString) : Option ℕ :=
  let hh := strHash sect 0
  c.cached.filter (fun i => c.sectionList[i]?.any (fun cs => cs.isNamed hh sect))

def findSection (c : Config) (sect : CString) : Option ℕ × Config :=
  let hh := strHash sect 0
  match c.cachedSection sect with
  | some i => (some i,c)
  | none =>
    match c.sectionList.findIdx? (fun cs => cs.isNamed hh sect) with
    | some i => (some i,{ c with cached := some i })
    | none => (none,c)

def addSection (c : Config) (sect : CString) : ℕ × Config :=
  match c.findSection sect with
  | (some i,c) => (i,c)
  | (none,c) =>
    (c.sectionList.length,
      { c with sectnum := c.sectnum + 1, sectionList := c.sectionList ++ [ConfigSection.new sect] })

/-- `set` with text; the other overloads format their value and do the same. -/
def set (c : Config) (sect key value : CString) : Config :=
  let (i,c) := c.addSection sect
  { c with sectionList := c.sectionList.modify i (fun cs => cs.addEntry key value) }

/-- The key under which a text is set for the locale `LANG`: only its two letters are used. -/
def localizedKey (lang : Option CString) (key : CString) : CString :=
  match lang with
  | none => key
  | some lang =>
    if lang.bytes.head? = some 67 ∨ lang.strncmp (CString.ofBuf [101,110,95,85,83]) 5 = 0 then key
    else if lang.strlen > 2 then
      CString.ofBuf ((key.bytes ++ [91] ++ lang.bytes.take 2 ++ [93]).take 127)
    else key

def setLocalized (c : Config) (lang : Option CString) (sect key value : CString) : Config :=
  c.set sect (localizedKey lang key) value

def keyExist (c : Config) (sect key : CString) : Bool × Config :=
  match c.findSection sect with
  | (none,c) => (false,c)
  | (some i,c) => ((c.sectionList[i]?.bind (fun cs => cs.findEntry key)).isSome,c)

/-- The lookup every getter starts with: the stored entry, or the error code. -/
def getEntry (c : Config) (sect key : CString) : Except ConfigErrors ConfigEntry × Config :=
  match c.findSection sect with
  | (none,c) => (.error .section,{ c with errcode := .section })
  | (some i,c) =>
    match c.sectionList[i]?.bind (fun cs => (cs.findEntry key).bind (fun j => cs.entryList[j]?)) with
    | none => (.error .key,{ c with errcode := .key })
    | some e => (.ok e,c)

/-- `get_allocated`: a fresh copy of the stored value. -/
def getAllocated (c : Config) (sect key : CString) : Option CString × Config :=
  match c.getEntry sect key with
  | (.error _,c) => (none,c)
  | (.ok e,c) => (some (CString.ofBuf (e.value.bytes.take e.valuelen)),c)

def getInt (c : Config) (sect key : CString) (deflt : ℤ) : ℤ × Config :=
  match c.getEntry sect key with
  | (.error _,c) => (deflt,c)
  | (.ok e,c) => (atoi e.value.bytes,c)

/-- What `strncpy` leaves in a buffer of the given size. -/
def strncpyInto (value : CString) (size : ℕ) : List UInt8 :=
  value.bytes.take size ++ List.replicate (size - value.strlen) 0

/-- `get` into a caller's buffer; a value longer than the buffer is cut. -/
def get (c : Config) (sect key : CString) (size : ℕ) : Option (List UInt8) × Config :=
  match c.getEntry sect key with
  | (.error _,c) => (none,c)
  | (.ok e,c) =>
    let ret := strncpyInto e.value size
    (some (if e.valuelen > size then ret.set (size - 1) 0 else ret),c)

end Config
end Edelib
