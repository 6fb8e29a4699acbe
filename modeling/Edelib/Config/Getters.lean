import Edelib.Config.Plain

/-! # Values in a caller's buffer

Both getters that fill a caller's buffer copy with `strncpy`, which leaves a text as long as
the buffer without a terminator. `get` writes the last byte only after a text whose recorded
length is greater than the buffer's, `getLocalized` always.
-/
namespace Edelib
open Foundation StrUtil

def localizedName (key : CString) (code : List UInt8) : CString :=
  CString.ofBuf ((key.bytes ++ [91] ++ code ++ [93]).take 127)

def localeCodes (lang : CString) : List (List UInt8) :=
  lang.bytes :: [46,64,95].filterMap (fun delim =>
    if delim ∈ lang.bytes then some (lang.bytes.takeWhile (fun c => decide (c ≠ delim))) else none)

/-- For these locales the key itself is read. -/
def DefaultLocale (lang : CString) : Prop :=
  lang.bytes.head? = some 67 ∨ lang.strncmp (CString.ofBuf [101,110,95,85,83]) 5 = 0

instance (lang : CString) : Decidable (DefaultLocale lang) :=
  inferInstanceAs (Decidable (lang.bytes.head? = some 67 ∨ lang.strncmp (CString.ofBuf [101,110,95,85,83]) 5 = 0))

namespace ConfigSection

def entryOf (cs : ConfigSection) (key : CString) : Option ConfigEntry :=
  (cs.findEntry key).bind (fun i => cs.entryList[i]?)

def findLocalized (cs : ConfigSection) (lang key : CString) : Option ConfigEntry :=
  (localeCodes lang).findSome? (fun code => cs.entryOf (localizedName key code))

end ConfigSection

namespace Config
variable {c : Config} {lang : Option CString} {sect key : CString} {size : ℕ}

/-- `get_localized` for the locale `LANG`. -/
def getLocalized (c : Config) (lang : Option CString) (sect key : CString) (size : ℕ) :
    Option (List UInt8) × Config :=
  match lang with
  | none => c.get sect key size
  | some lang =>
    if DefaultLocale lang then c.get sect key size
    else
      match c.findSection sect with
      | (none,c) => (none,{ c with errcode := .section })
      | (some i,c) =>
        match c.sectionList[i]?.bind (fun cs => cs.findLocalized lang key) with
        | some e => (some ((strncpyInto e.value size).set (size - 1) 0),c)
        | none => (none,{ c with errcode := .key })

def localizedEntry (c : Config) (lang : Option CString) (sect key : CString) : Option ConfigEntry :=
  match lang with
  | none => (c.getEntry sect key).1.toOption
  | some lang =>
    if DefaultLocale lang then (c.getEntry sect key).1.toOption
    else (c.findSection sect).1.bind (fun i => c.sectionList[i]?.bind (fun cs => cs.findLocalized lang key))

/-- The buffer has a terminator, and before it as much of the value as there is room for. -/
structure TerminatedPrefix (v : CString) (size : ℕ) (ret : List UInt8) : Prop where
  terminated : ∃ i, i < size ∧ ret[i]? = some 0
  text : (CString.ofBuf ret).bytes = v.bytes.take (min v.strlen (size - 1))

/-- What the two getters promise for these names and a buffer of this size. -/
structure BufferGetters (c : Config) (lang : Option CString) (sect key : CString) (size : ℕ) : Prop where
  get : ∀ ret, (c.get sect key size).1 = some ret →
    ∃ e, (c.getEntry sect key).1.toOption = some e ∧ TerminatedPrefix e.value size ret
  localized : ∀ ret, (c.getLocalized lang sect key size).1 = some ret →
    ∃ e, c.localizedEntry lang sect key = some e ∧ TerminatedPrefix e.value size ret
  same : ∀ key' e, (c.getEntry sect key').1.toOption = some e → c.localizedEntry lang sect key = some e →
    (c.get sect key' size).1 = (c.getLocalized lang sect key size).1

/-- Each value that the two getters read for these names is shorter than the buffer, or recorded as longer. -/
def TerminatorWritten (c : Config) (lang : Option CString) (sect key : CString) (size : ℕ) : Prop :=
  (∀ e, (c.getEntry sect key).1.toOption = some e → e.value.strlen < size ∨ size < e.valuelen) ∧
    ∀ e, c.localizedEntry lang sect key = some e → e.value.strlen < size ∨ size < e.valuelen

instance (c : Config) (lang : Option CString) (sect key : CString) (size : ℕ) :
    Decidable (TerminatorWritten c lang sect key size) :=
  inferInstanceAs (Decidable ((∀ e ∈ (c.getEntry sect key).1.toOption, e.value.strlen < size ∨ size < e.valuelen) ∧
    ∀ e ∈ c.localizedEntry lang sect key, e.value.strlen < size ∨ size < e.valuelen))

/-! ## The two ways to cut a value -/

/-- The last byte is always the terminator. -/
def cutOf (v : CString) (size : ℕ) : List UInt8 := (strncpyInto v size).set (size - 1) 0

theorem cutOf_fits {v : CString} (h : v.strlen < size) :
    cutOf v size = v.bytes ++ List.replicate (size - v.strlen) 0 := by
  obtain ⟨k,hk⟩ : ∃ k, size - v.strlen = k + 1 := ⟨size - v.strlen - 1,by omega⟩
  have hlast : size - 1 - v.bytes.length = k := by
    have hlen : v.bytes.length = v.strlen := rfl
    omega
  have hset : (List.replicate (k + 1) (0 : UInt8)).set k 0 = List.replicate (k + 1) 0 := by
    rw [List.replicate_succ',List.set_append_right _ _ (by simp)]
    simp
  rw [cutOf,strncpyInto,List.take_of_length_le h.le,hk,
    List.set_append_right _ _ (by simp [CString.strlen] at h ⊢; omega),hlast,hset]

theorem cutOf_cut {v : CString} {n : ℕ} (h : n < v.strlen) : cutOf v (n + 1) = v.bytes.take n ++ [0] := by
  have hlt : n < v.bytes.length := h
  have hcopy : strncpyInto v (n + 1) = v.bytes.take n ++ [v.bytes[n]] := by
    rw [strncpyInto,Nat.sub_eq_zero_of_le h,List.take_add_one,List.getElem?_eq_getElem hlt]
    simp
  have hlen : (v.bytes.take n).length = n := List.length_take_of_le hlt.le
  rw [cutOf,hcopy,Nat.add_sub_cancel,List.set_append_right _ _ hlen.le,hlen,Nat.sub_self]
  rfl

/-- Neither way of cutting leaves a text without a terminator, unless `get` takes it for one that fits. -/
theorem bufferOf_eq_cutOf_iff {v : CString} (hsize : 1 ≤ size) :
    bufferOf v size = cutOf v size ↔ v.strlen < size ∨ size < v.strlen % 2 ^ 32 := by
  obtain ⟨n,rfl⟩ : ∃ n, size = n + 1 := ⟨size - 1,by omega⟩
  constructor
  · intro h
    by_contra! hno
    rw [bufferOf_full hno.1 hno.2,cutOf_cut hno.1] at h
    have hmem : (0 : UInt8) ∈ v.bytes.take (n + 1) := by simp [h]
    exact v.nulFree (List.mem_of_mem_take hmem)
  · rintro (hlt | hgt)
    · rw [bufferOf_fits hlt.le,cutOf_fits hlt]
    · have hlong : n + 1 < v.strlen := hgt.trans_le (Nat.mod_le _ _)
      rw [bufferOf_cut hgt,cutOf_cut (by omega)]

theorem terminatedPrefix_cutOf {v : CString} (hsize : 1 ≤ size) : TerminatedPrefix v size (cutOf v size) := by
  obtain ⟨n,rfl⟩ : ∃ n, size = n + 1 := ⟨size - 1,by omega⟩
  rcases Nat.lt_or_ge v.strlen (n + 1) with hlt | hge
  · rw [cutOf_fits hlt]
    obtain ⟨k,hk⟩ : ∃ k, n + 1 - v.strlen = k + 1 := ⟨n - v.strlen,by omega⟩
    have hmin : min v.strlen (n + 1 - 1) = v.bytes.length := Nat.min_eq_left (by omega)
    refine ⟨⟨v.strlen,hlt,?_⟩,?_⟩
    · rw [hk,List.replicate_succ]
      simp [CString.strlen]
    · rw [hk,List.replicate_succ,CString.ofBuf_bytes_append_nul,hmin,List.take_length]
  · have hnul : (0 : UInt8) ∉ v.bytes.take n := fun hmem => v.nulFree (List.mem_of_mem_take hmem)
    have hlen : (v.bytes.take n).length = n := List.length_take_of_le (by exact (Nat.le_succ n).trans hge)
    have hmin : min v.strlen (n + 1 - 1) = n := Nat.min_eq_right (by omega)
    rw [cutOf_cut hge]
    refine ⟨⟨n,Nat.lt_succ_self n,?_⟩,?_⟩
    · simp [hlen]
    · rw [CString.ofBuf_append_nul,CString.ofBuf_eq hnul,hmin]

/-- What `get` leaves is terminated unless the value is as long as the buffer or longer, and not recorded so. -/
theorem terminatedPrefix_bufferOf_iff {v : CString} (hsize : 1 ≤ size) :
    TerminatedPrefix v size (bufferOf v size) ↔ v.strlen < size ∨ size < v.strlen % 2 ^ 32 := by
  constructor
  · rintro ⟨⟨i,-,hnul⟩,-⟩
    by_contra! hno
    rw [bufferOf_full hno.1 hno.2] at hnul
    exact v.nulFree (List.mem_of_mem_take (List.mem_of_getElem? hnul))
  · intro hfit
    rw [(bufferOf_eq_cutOf_iff hsize).mpr hfit]
    exact terminatedPrefix_cutOf hsize

/-! ## The getters -/

theorem get_eq_entry (c : Config) (sect key : CString) (size : ℕ) :
    (c.get sect key size).1 = (c.getEntry sect key).1.toOption.map (fun e => bufferOf e.value size) := by
  unfold get
  cases c.getEntry sect key with
  | mk r c' =>
    cases r with
    | error e => rfl
    | ok e => simp [Except.toOption,bufferOf,e.valuelen_eq]

/-- Both getters read an entry, and `getLocalized` cuts unless it hands over to `get`. -/
theorem getLocalized_cases (c : Config) (lang : Option CString) (sect key : CString) (size : ℕ) :
    c.localizedEntry lang sect key = (c.getEntry sect key).1.toOption ∧
        (c.getLocalized lang sect key size).1 = (c.get sect key size).1 ∨
      (∀ e, c.localizedEntry lang sect key = some e → ∃ key', (c.getEntry sect key').1.toOption = some e) ∧
        (c.getLocalized lang sect key size).1 =
          (c.localizedEntry lang sect key).map (fun e => cutOf e.value size) := by
  cases lang with
  | none => exact Or.inl ⟨rfl,rfl⟩
  | some lang =>
    by_cases hd : DefaultLocale lang
    · exact Or.inl (by simp [localizedEntry,getLocalized,hd])
    · right
      obtain ⟨p,hp,-⟩ := c.findSection_state sect
      simp only [localizedEntry,getLocalized,if_neg hd]
      cases hf : c.findSection sect with
      | mk found c' =>
        simp only [hf] at hp
        subst hp
        cases found with
        | none => simp
        | some i =>
          simp only [Option.bind_some]
          cases hcs : c.sectionList[i]? with
          | none => simp
          | some cs =>
            simp only [Option.bind_some]
            refine ⟨fun e he => ?_,?_⟩
            · obtain ⟨code,-,hcode⟩ := List.exists_of_findSome?_eq_some he
              refine ⟨localizedName key code,?_⟩
              have hentry : (cs.findEntry (localizedName key code)).bind (fun j => cs.entryList[j]?) = some e := hcode
              simp only [getEntry,hf,hcs,Option.bind_some,hentry]
              rfl
            · cases cs.findLocalized lang key <;> rfl

/-- The getters fill a buffer as they promise if and only if each reads a value that is
shorter than the buffer or recorded as longer. -/
theorem bufferGetters_iff (hsize : 1 ≤ size) :
    BufferGetters c lang sect key size ↔ TerminatorWritten c lang sect key size := by
  have hcase := getLocalized_cases c lang sect key size
  constructor
  · intro h
    have hget : ∀ e, (c.getEntry sect key).1.toOption = some e → e.value.strlen < size ∨ size < e.valuelen := by
      intro e he
      obtain ⟨e',he',hcut⟩ := h.get (bufferOf e.value size) (by rw [get_eq_entry,he]; rfl)
      rw [he] at he'
      cases he'
      rw [e.valuelen_eq]
      exact (terminatedPrefix_bufferOf_iff hsize).mp hcut
    refine ⟨hget,fun e he => ?_⟩
    rcases hcase with ⟨hsame,-⟩ | ⟨hkey,hcut⟩
    · exact hget e (hsame ▸ he)
    · obtain ⟨key',hkey'⟩ := hkey e he
      have heq := h.same key' e hkey' he
      rw [get_eq_entry,hkey',hcut,he] at heq
      rw [e.valuelen_eq]
      exact (bufferOf_eq_cutOf_iff hsize).mp (Option.some.inj heq)
  · rintro ⟨hget,hlocal⟩
    have hplain : ∀ ret, (c.get sect key size).1 = some ret →
        ∃ e, (c.getEntry sect key).1.toOption = some e ∧ TerminatedPrefix e.value size ret := by
      intro ret hret
      rw [get_eq_entry] at hret
      obtain ⟨e,he,rfl⟩ := Option.map_eq_some_iff.mp hret
      have hfit := hget e he
      rw [e.valuelen_eq] at hfit
      exact ⟨e,he,(terminatedPrefix_bufferOf_iff hsize).mpr hfit⟩
    refine ⟨hplain,fun ret hret => ?_,fun key' e hkey' he => ?_⟩
    · rcases hcase with ⟨hsame,hsub⟩ | ⟨-,hcut⟩
      · rw [hsub] at hret
        rw [hsame]
        exact hplain ret hret
      · rw [hcut] at hret
        obtain ⟨e,he,rfl⟩ := Option.map_eq_some_iff.mp hret
        exact ⟨e,he,terminatedPrefix_cutOf hsize⟩
    · have hfit := hlocal e he
      rw [e.valuelen_eq] at hfit
      rw [get_eq_entry,hkey',Option.map_some]
      rcases hcase with ⟨hsame,hsub⟩ | ⟨-,hcut⟩
      · rw [hsub,get_eq_entry,← hsame,he,Option.map_some]
      · rw [hcut,he,Option.map_some,(bufferOf_eq_cutOf_iff hsize).mpr hfit]

/-- A value cut by `get`, and its translation, which is shorter than the buffer. -/
theorem bufferGetters_translated :
    BufferGetters
      (run [⟨CString.ofBuf [83],CString.ofBuf [75],CString.ofBuf [97,98,99,100]⟩,
        ⟨CString.ofBuf [83],CString.ofBuf [75,91,100,101,93],CString.ofBuf [97]⟩])
      (some (CString.ofBuf [100,101,95,68,69])) (CString.ofBuf [83]) (CString.ofBuf [75]) 3 :=
  (bufferGetters_iff (by decide)).mpr (by decide +kernel)

/-- The value `ab` in a buffer of two bytes: `get` leaves no terminator. -/
theorem not_bufferGetters_exact_fit :
    ¬ BufferGetters (run [⟨CString.ofBuf [83],CString.ofBuf [75],CString.ofBuf [97,98]⟩]) none
      (CString.ofBuf [83]) (CString.ofBuf [75]) 2 := by
  intro h
  obtain ⟨e,-,⟨i,hi,hnul⟩,-⟩ := h.get [97,98] (by decide +kernel)
  have hmem := List.mem_of_getElem? hnul
  simp at hmem

end Config
end Edelib
