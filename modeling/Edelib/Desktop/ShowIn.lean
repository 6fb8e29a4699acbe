import Edelib.Desktop.TypeKey

/-! # The lists of environments of a desktop file

A file says in which environments it is shown, or in which it is not. Of the two lists the
setters leave one at most; what is read back is the list that was set, as long as its text
fits into the buffer of the reader.
-/
namespace Edelib.DesktopFile
open Foundation

theorem plainName_onlyShowInKey : PlainName onlyShowInKey := plainName_of_inits (by decide +kernel)

theorem plainName_notShowInKey : PlainName notShowInKey := plainName_of_inits (by decide +kernel)

/-! ## The setters -/

/-- A call of a setter; `lang` is the value of `LANG` at the call. -/
inductive Setter
  | setType (t : DesktopFileType)
  | setName (lang : Option CString) (val : CString)
  | setGenericName (lang : Option CString) (val : CString)
  | setComment (lang : Option CString) (val : CString)
  | setIcon (lang : Option CString) (val : CString)
  | setExec (val : CString)
  | setTryExec (val : CString)
  | setPath (val : CString)
  | setUrl (val : CString)
  | setMimeType (val : CString)
  | setNoDisplay (val : Bool)
  | setHidden (val : Bool)
  | setTerminal (val : Bool)
  | setStartupNotify (val : Bool)
  | setOnlyShowIn (lst : List CString)
  | setNotShowIn (lst : List CString)

def Setter.step (d : DesktopFile) : Setter → Option DesktopFile
  | setType t => d.setType t
  | setName lang val => some (d.setName lang val)
  | setGenericName lang val => some (d.setGenericName lang val)
  | setComment lang val => some (d.setComment lang val)
  | setIcon lang val => some (d.setIcon lang val)
  | setExec val => some (d.setExec val)
  | setTryExec val => some (d.setTryExec val)
  | setPath val => some (d.setPath val)
  | setUrl val => some (d.setUrl val)
  | setMimeType val => some (d.setMimeType val)
  | setNoDisplay val => some (d.setNoDisplay val)
  | setHidden val => some (d.setHidden val)
  | setTerminal val => some (d.setTerminal val)
  | setStartupNotify val => some (d.setStartupNotify val)
  | setOnlyShowIn lst => d.setOnlyShowIn lst
  | setNotShowIn lst => d.setNotShowIn lst

def keyValue (d : DesktopFile) (key : CString) : Option CString := d.config.value entrySect key

def Exclusive (d : DesktopFile) : Prop := d.keyValue onlyShowInKey = none ∨ d.keyValue notShowInKey = none

/-- The list is read back as it was set, whatever the buffer held before. -/
def RoundTrips (set : DesktopFile → List CString → Option DesktopFile)
    (get : DesktopFile → List CString → UInt8 → Option (Bool × List CString × DesktopFile)) (d : DesktopFile)
    (lst : List CString) : Prop :=
  ∀ junk, ∃ d₁ d₂, set d lst = some d₁ ∧ get d₁ [] junk = some (true,lst,d₂)

def totalLength (lst : List CString) : ℕ := (lst.map (fun name => name.strlen + 1)).sum

def ProperNames (lst : List CString) : Prop := ∀ name ∈ lst, name.bytes ≠ [] ∧ 59 ∉ name.bytes

/-! ## Other keys -/

theorem accepted_of_not_begins {name key : CString} (h : ¬ name.bytes <+: key.bytes) : accepted name key = false := by
  by_contra hacc
  exact h (accepted_iff.mp (by simpa using hacc)).2

/-- The suffix of a localized key does not matter where the keys differ before it. -/
theorem accepted_localizedKey {name key : CString} (h : ¬ name.bytes <+: key.bytes) (h' : ¬ key.bytes <+: name.bytes)
    (lang : Option CString) : accepted name (Config.localizedKey lang key) = false := by
  refine accepted_of_not_begins (fun hpre => ?_)
  obtain ⟨suffix,hsuffix⟩ : ∃ suffix, (Config.localizedKey lang key).bytes <+: key.bytes ++ suffix := by
    cases lang with
    | none => exact ⟨[],by rw [List.append_nil]; exact List.prefix_refl _⟩
    | some lang =>
      rw [Config.localizedKey]
      split_ifs
      · exact ⟨[],by rw [List.append_nil]⟩
      · refine ⟨[91] ++ lang.bytes.take 2 ++ [93],(List.takeWhile_prefix _).trans ((List.take_prefix _ _).trans ?_)⟩
        rw [← List.append_assoc,← List.append_assoc]
      · exact ⟨[],by rw [List.append_nil]⟩
  rcases List.prefix_or_prefix_of_prefix (hpre.trans hsuffix) (List.prefix_append key.bytes suffix) with hle | hle
  · exact h hle
  · exact h' hle

structure Ready (d : DesktopFile) : Prop where
  valid : d.config.Valid
  errcode : d.errcode = .success
  exclusive : d.Exclusive

theorem Ready.settable {d : DesktopFile} (hd : d.Ready) : d.settable = true := decide_eq_true (Or.inl hd.errcode)

theorem Ready.set {d : DesktopFile} (hd : d.Ready) {key : CString} (honly : accepted onlyShowInKey key = false)
    (hnot : accepted notShowInKey key = false) (val : CString) :
    Ready { d with config := d.config.set entrySect key val } := by
  refine ⟨Config.valid_set hd.valid _ _ _,hd.errcode,?_⟩
  rw [Exclusive,keyValue,keyValue,Config.value_set_other hd.valid plainName_entrySect honly,
    Config.value_set_other hd.valid plainName_entrySect hnot]
  exact hd.exclusive

theorem Ready.setKey {d : DesktopFile} (hd : d.Ready) {key : CString} (honly : ¬ onlyShowInKey.bytes <+: key.bytes)
    (hnot : ¬ notShowInKey.bytes <+: key.bytes) (val : CString) : (d.setKey key val).Ready := by
  rw [DesktopFile.setKey,if_pos hd.settable]
  exact hd.set (accepted_of_not_begins honly) (accepted_of_not_begins hnot) val

theorem Ready.setLocalized {d : DesktopFile} (hd : d.Ready) {key : CString}
    (honly : ¬ onlyShowInKey.bytes <+: key.bytes ∧ ¬ key.bytes <+: onlyShowInKey.bytes)
    (hnot : ¬ notShowInKey.bytes <+: key.bytes ∧ ¬ key.bytes <+: notShowInKey.bytes) (lang : Option CString)
    (val : CString) : (d.setLocalized lang key val).Ready := by
  rw [DesktopFile.setLocalized,if_pos hd.settable,Config.setLocalized]
  exact hd.set (accepted_localizedKey honly.1 honly.2 lang) (accepted_localizedKey hnot.1 hnot.2 lang) val

/-! ## The two lists -/

/-- One of the lists is set where there is not the other. -/
theorem setShowIn_eq {d : DesktopFile} (hd : d.Ready) (key : CString) {other : CString} (hother : PlainName other)
    (lst : List CString) : d.setShowIn key other lst =
      if (d.keyValue other).isSome ∨ lst = [] then
        some { d with config := (d.config.keyExist entrySect other).2 }
      else (joinNames [] 256 lst).map (fun all =>
        { d with config := (d.config.keyExist entrySect other).2.set entrySect key (CString.ofBuf all) }) := by
  have hfound := Config.keyExist_eq hd.valid plainName_entrySect hother
  rw [setShowIn]
  cases hkey : d.config.keyExist entrySect other with
  | mk found config =>
    rw [hkey] at hfound
    rw [keyValue,← hfound]
    dsimp only
    cases found with
    | true => rw [if_pos rfl,if_pos (Or.inl rfl)]
    | false =>
      rw [if_neg Bool.false_ne_true]
      cases lst with
      | nil => rw [if_pos (Or.inr rfl)]; rfl
      | cons it lst =>
        have hcode : ¬ (d.errcode ≠ .success ∧ d.errcode ≠ .empty) := fun h => h.1 hd.errcode
        rw [if_neg (by simp),if_neg hcode,if_neg (by simp)]
        cases joinNames [] 256 (it :: lst) <;> rfl

theorem setShowIn_state {d d' : DesktopFile} (hd : d.Ready) {key other : CString} (hother : PlainName other)
    (hkey : accepted other key = false) {lst : List CString} (h : d.setShowIn key other lst = some d') :
    d'.config.Valid ∧ d'.errcode = .success ∧
      (d'.keyValue other = none ∨ ∀ k, d'.keyValue k = d.keyValue k) := by
  have hsame := Config.sameSections_keyExist d.config entrySect other
  rw [setShowIn_eq hd key hother] at h
  split_ifs at h with hskip
  · cases h
    exact ⟨hsame.valid hd.valid,hd.errcode,Or.inr (fun k => hsame.value entrySect k)⟩
  · obtain ⟨all,-,rfl⟩ := Option.map_eq_some_iff.mp h
    have hvalid := hsame.valid hd.valid
    refine ⟨Config.valid_set hvalid _ _ _,hd.errcode,Or.inl ?_⟩
    rw [keyValue,Config.value_set_other hvalid plainName_entrySect hkey,hsame.value]
    exact Option.not_isSome_iff_eq_none.mp (fun hsome => hskip (Or.inl hsome))

theorem Ready.step {d d' : DesktopFile} (hd : d.Ready) {a : Setter} (h : a.step d = some d') : d'.Ready := by
  cases a with
  | setType t =>
    cases t with
    | unknown =>
      rw [Setter.step,DesktopFile.setType,if_pos hd.settable] at h
      cases h
    | application =>
      rw [Setter.step,setType_eq rfl,if_pos hd.settable] at h
      cases h
      exact hd.set (accepted_of_not_begins (by decide)) (accepted_of_not_begins (by decide)) _
    | link =>
      rw [Setter.step,setType_eq rfl,if_pos hd.settable] at h
      cases h
      exact hd.set (accepted_of_not_begins (by decide)) (accepted_of_not_begins (by decide)) _
    | directory =>
      rw [Setter.step,setType_eq rfl,if_pos hd.settable] at h
      cases h
      exact hd.set (accepted_of_not_begins (by decide)) (accepted_of_not_begins (by decide)) _
  | setName lang val => exact Option.some.inj h ▸ hd.setLocalized (by decide) (by decide) lang val
  | setGenericName lang val => exact Option.some.inj h ▸ hd.setLocalized (by decide) (by decide) lang val
  | setComment lang val => exact Option.some.inj h ▸ hd.setLocalized (by decide) (by decide) lang val
  | setIcon lang val => exact Option.some.inj h ▸ hd.setLocalized (by decide) (by decide) lang val
  | setExec val => exact Option.some.inj h ▸ hd.setKey (by decide) (by decide) val
  | setTryExec val => exact Option.some.inj h ▸ hd.setKey (by decide) (by decide) val
  | setPath val => exact Option.some.inj h ▸ hd.setKey (by decide) (by decide) val
  | setUrl val => exact Option.some.inj h ▸ hd.setKey (by decide) (by decide) val
  | setMimeType val => exact Option.some.inj h ▸ hd.setKey (by decide) (by decide) val
  | setNoDisplay val => exact Option.some.inj h ▸ hd.setKey (by decide) (by decide) _
  | setHidden val => exact Option.some.inj h ▸ hd.setKey (by decide) (by decide) _
  | setTerminal val => exact Option.some.inj h ▸ hd.setKey (by decide) (by decide) _
  | setStartupNotify val => exact Option.some.inj h ▸ hd.setKey (by decide) (by decide) _
  | setOnlyShowIn lst =>
    obtain ⟨hvalid,hcode,hvalue⟩ := setShowIn_state hd plainName_notShowInKey (accepted_of_not_begins (by decide)) h
    refine ⟨hvalid,hcode,hvalue.elim Or.inr (fun hsame => ?_)⟩
    rw [Exclusive,hsame,hsame]
    exact hd.exclusive
  | setNotShowIn lst =>
    obtain ⟨hvalid,hcode,hvalue⟩ := setShowIn_state hd plainName_onlyShowInKey (accepted_of_not_begins (by decide)) h
    refine ⟨hvalid,hcode,hvalue.elim Or.inl (fun hsame => ?_)⟩
    rw [Exclusive,hsame,hsame]
    exact hd.exclusive

theorem ready_createNew {d d' : DesktopFile} {t : DesktopFileType} (h : d.createNew t = some d') : d'.Ready := by
  have hset : ∀ val dtype, Ready { config := Config.empty.set entrySect typeKey val, errcode := .success, dtype } := by
    intro val dtype
    refine @Ready.set ⟨.empty,.success,dtype⟩ ⟨Config.valid_empty,rfl,Or.inl rfl⟩ _ ?_ ?_ val
    · exact accepted_of_not_begins (by decide)
    · exact accepted_of_not_begins (by decide)
  cases t <;> cases h <;> exact hset _ _

theorem ready_exec {d d' : DesktopFile} (hd : d.Ready) {acts : List Setter}
    (h : Transition.exec Setter.step d acts = some d') : d'.Ready :=
  Transition.exec_invariant (C := fun _ _ => True) (I := fun _ d => d.Ready) hd
    (fun _ _ _ _ _ hs _ hstep => hs.step hstep) (fun _ _ _ _ _ _ => trivial) h

/-! ## The text of a list -/

theorem length_trailing (lst : List CString) :
    (Separated.trailing 59 (lst.map CString.bytes)).length = totalLength lst := by
  induction lst with
  | nil => rfl
  | cons it lst ih =>
    rw [List.map_cons,Separated.trailing_cons,List.length_append,List.length_cons,ih]
    simp only [totalLength,List.map_cons,List.sum_cons,CString.strlen]
    omega

theorem addTo_eq {all more : List UInt8} {cap : ℕ} {r : List UInt8 × ℕ} (h : addTo all cap more = some r) :
    r.1 = all ++ more := by
  unfold addTo at h
  dsimp only at h
  split_ifs at h <;> cases h <;> rfl

theorem joinNames_eq {all r : List UInt8} {cap : ℕ} {lst : List CString} (h : joinNames all cap lst = some r) :
    r = all ++ Separated.trailing 59 (lst.map CString.bytes) := by
  induction lst generalizing all cap with
  | nil =>
    obtain rfl : all = r := Option.some.inj h
    exact (List.append_nil all).symm
  | cons it lst ih =>
    obtain ⟨⟨all₁,cap₁⟩,h₁,h⟩ := Option.bind_eq_some_iff.mp h
    obtain ⟨⟨all₂,cap₂⟩,h₂,h⟩ := Option.bind_eq_some_iff.mp h
    have hall₁ : all₁ = all ++ it.bytes := addTo_eq h₁
    have hall₂ : all₂ = all₁ ++ [59] := addTo_eq h₂
    rw [ih h,hall₂,hall₁,List.map_cons,Separated.trailing_cons]
    simp only [List.append_assoc,List.singleton_append]

theorem totalLength_map_ofBuf (toks : List (List UInt8)) :
    totalLength (toks.map CString.ofBuf) ≤ (toks.map (fun tok => tok.length + 1)).sum := by
  induction toks with
  | nil => exact Nat.le_refl _
  | cons tok toks ih =>
    have hle := (CString.ofBuf_begins tok).length_le
    exact Nat.add_le_add (Nat.succ_le_succ hle) ih

theorem joinNames_fits {all : List UInt8} {cap : ℕ} {lst : List CString} (h : all.length + totalLength lst ≤ cap) :
    joinNames all cap lst = some (all ++ Separated.trailing 59 (lst.map CString.bytes)) := by
  induction lst generalizing all with
  | nil =>
    rw [joinNames]
    exact congrArg some (List.append_nil all).symm
  | cons it lst ih =>
    have hlen : totalLength (it :: lst) = it.bytes.length + 1 + totalLength lst := rfl
    have h₁ : addTo all cap it.bytes = some (all ++ it.bytes,cap) := if_pos (by omega)
    have h₂ : addTo (all ++ it.bytes) cap [59] = some (all ++ it.bytes ++ [59],cap) :=
      if_pos (by rw [List.length_append,List.length_singleton]; omega)
    have hrest := @ih (all ++ it.bytes ++ [59]) (by
      rw [List.length_append,List.length_append,List.length_singleton]
      omega)
    rw [joinNames,h₁]
    change (addTo (all ++ it.bytes) cap [59]).bind _ = _
    rw [h₂,Option.bind_some]
    dsimp only
    rw [hrest,List.map_cons,Separated.trailing_cons]
    simp only [List.append_assoc,List.singleton_append]

/-! ## Reading the list back -/

theorem showIn_eq {d : DesktopFile} (hvalid : d.config.Valid) (hcode : d.errcode = .success) {key v : CString}
    (hkey : PlainName key) (hv : d.keyValue key = some v) (lst : List CString) (junk : UInt8) :
    d.showIn key lst junk =
      if 0 ∈ Config.bufferOf v 255 ++ [junk] then
        some (true,lst ++ (StrUtil.stringtok (CString.ofBuf (Config.bufferOf v 255 ++ [junk])).bytes [59]).map
          CString.ofBuf,{ d with config := (d.config.get entrySect key 255).2 })
      else none := by
  have hfound := Config.get_eq_bufferOf hvalid plainName_entrySect hkey 255
  rw [← keyValue,hv] at hfound
  rw [showIn,if_pos hcode,bufSize]
  cases hget : d.config.get entrySect key 255 with
  | mk found config =>
    rw [hget] at hfound
    obtain rfl : found = some (Config.bufferOf v 255) := hfound
    rfl

theorem map_ofBuf_bytes (lst : List CString) : (lst.map CString.bytes).map CString.ofBuf = lst := by
  rw [List.map_map]
  exact (List.map_congr_left (fun name _ => CString.ofBuf_bytes name)).trans (List.map_id lst)

/-- The list is found in the buffer if and only if there is room for the text and a terminator. -/
theorem showIn_trailing_iff {d : DesktopFile} (hvalid : d.config.Valid) (hcode : d.errcode = .success)
    {key v : CString} (hkey : PlainName key) (hv : d.keyValue key = some v) {lst : List CString}
    (hproper : ProperNames lst) (htext : v.bytes = Separated.trailing 59 (lst.map CString.bytes)) :
    (∀ junk, ∃ d', d.showIn key [] junk = some (true,lst,d')) ↔ totalLength lst ≤ 254 := by
  have hlen : v.strlen = totalLength lst := by rw [CString.strlen,htext,length_trailing]
  constructor
  · intro h
    by_contra hlong
    obtain ⟨d',hd'⟩ := h 1
    rw [showIn_eq hvalid hcode hkey hv] at hd'
    split_ifs at hd' with hnul
    by_cases hfull : v.strlen % 2 ^ 32 ≤ 255
    · -- no terminator is written
      rw [Config.bufferOf_full (by omega) hfull] at hnul
      have hmem : (0 : UInt8) ∈ v.bytes.take 255 := by simpa using hnul
      exact v.nulFree (List.mem_of_mem_take hmem)
    · -- fewer bytes are found than the names have
      have hnames := congrArg (fun r => r.2.1) (Option.some.inj hd')
      have hcut : Config.bufferOf v 255 = v.bytes.take 254 ++ [0] := Config.bufferOf_cut (by omega)
      have htake : (CString.ofBuf (Config.bufferOf v 255 ++ [1])).bytes = v.bytes.take 254 := by
        have hnul : (0 : UInt8) ∉ v.bytes.take 254 := fun hmem => v.nulFree (List.mem_of_mem_take hmem)
        rw [hcut,List.append_assoc,List.singleton_append,CString.ofBuf_append_nul,CString.ofBuf_eq hnul]
      rw [List.nil_append,htake] at hnames
      dsimp only at hnames
      have hbound := StrUtil.stringtok_length_le (v.bytes.take 254) [59]
      have htotal := totalLength_map_ofBuf (StrUtil.stringtok (v.bytes.take 254) [59])
      have hle : (v.bytes.take 254).length ≤ 254 := List.length_take_le _ _
      rw [hnames] at htotal
      omega
  · intro hshort junk
    have hbuf : Config.bufferOf v 255 ++ [junk] =
        v.bytes ++ 0 :: (List.replicate (254 - v.strlen) 0 ++ [junk]) := by
      have hsucc : 255 - v.strlen = 254 - v.strlen + 1 := by omega
      rw [Config.bufferOf_fits (by omega),hsucc,List.replicate_succ,List.append_assoc,List.cons_append]
    have hparts : Separated.Proper 59 (lst.map CString.bytes) := by
      intro part hpart
      obtain ⟨name,hname,rfl⟩ := List.mem_map.mp hpart
      exact hproper name hname
    refine ⟨{ d with config := (d.config.get entrySect key 255).2 },?_⟩
    rw [showIn_eq hvalid hcode hkey hv,hbuf,if_pos (by simp),CString.ofBuf_bytes_append_nul,htext,
      StrUtil.stringtok_trailing hparts,map_ofBuf_bytes,List.nil_append]

/-- Where there is not the other list, a list is read back if and only if its text is short. -/
theorem roundTrips_iff_fits {d : DesktopFile} (hd : d.Ready) {key other : CString} (hkey : PlainName key)
    (hother : PlainName other) (habsent : d.keyValue other = none) {lst : List CString} (hne : lst ≠ [])
    (hproper : ProperNames lst) :
    RoundTrips (fun d lst => d.setShowIn key other lst) (fun d lst junk => d.showIn key lst junk) d lst ↔
      totalLength lst ≤ 254 := by
  have hset := setShowIn_eq hd key hother lst
  have hskip : ¬ ((d.keyValue other).isSome ∨ lst = []) := by
    rw [habsent]
    exact fun h => h.elim Bool.false_ne_true hne
  rw [if_neg hskip] at hset
  have hnul : (0 : UInt8) ∉ Separated.trailing 59 (lst.map CString.bytes) := by
    intro hmem
    obtain ⟨part,hpart,hmem⟩ := List.mem_flatMap.mp hmem
    obtain ⟨name,-,rfl⟩ := List.mem_map.mp hpart
    have hor : 0 ∈ name.bytes ∨ (0 : UInt8) = 59 := by simpa using hmem
    exact hor.elim name.nulFree (by decide)
  -- the file after the list is set
  have hafter : ∀ d₁, d.setShowIn key other lst = some d₁ →
      ((∀ junk, ∃ d₂, d₁.showIn key [] junk = some (true,lst,d₂)) ↔ totalLength lst ≤ 254) := by
    intro d₁ hd₁
    rw [hset] at hd₁
    obtain ⟨all,hall,rfl⟩ := Option.map_eq_some_iff.mp hd₁
    obtain rfl : all = Separated.trailing 59 (lst.map CString.bytes) := joinNames_eq hall
    have hvalid := (Config.sameSections_keyExist d.config entrySect other).valid hd.valid
    let config := (d.config.keyExist entrySect other).2.set entrySect key
      (CString.ofBuf (Separated.trailing 59 (lst.map CString.bytes)))
    have hvalid₁ : config.Valid := Config.valid_set hvalid _ _ _
    have hvalue : config.value entrySect key =
        some (CString.ofBuf (Separated.trailing 59 (lst.map CString.bytes))) := by
      rw [Config.value_set hvalid (Config.lookupClear plainName_entrySect hkey),if_pos ⟨rfl,rfl⟩]
    exact @showIn_trailing_iff { d with config } hvalid₁ hd.errcode key _ hkey hvalue lst hproper
      (congrArg CString.bytes (CString.ofBuf_eq hnul))
  constructor
  · intro h
    obtain ⟨d₁,-,hd₁,-⟩ := h 0
    refine (hafter d₁ hd₁).mp (fun junk => ?_)
    obtain ⟨d₁',d₂,hd₁',hd₂⟩ := h junk
    obtain rfl : d₁ = d₁' := Option.some.inj (hd₁.symm.trans hd₁')
    exact ⟨d₂,hd₂⟩
  · intro hshort junk
    have hall := @joinNames_fits [] 256 lst (by rw [List.length_nil]; omega)
    rw [hall] at hset
    obtain ⟨d₂,hd₂⟩ := (hafter _ hset).mpr hshort junk
    exact ⟨_,d₂,hset,hd₂⟩

/-- From `create_new` on there is one of the lists at most, and each list that is set where there
is not the other is read back if and only if its text with the semicolons has at most 254 bytes. -/
theorem run_showIn (d₀ : DesktopFile) (t : DesktopFileType) (d₁ : DesktopFile) (hnew : d₀.createNew t = some d₁)
    (acts : List Setter) (d : DesktopFile) (hrun : Transition.exec Setter.step d₁ acts = some d) :
    d.Exclusive ∧ ∀ lst, lst ≠ [] → ProperNames lst →
      (d.keyValue notShowInKey = none → (RoundTrips setOnlyShowIn onlyShowIn d lst ↔ totalLength lst ≤ 254)) ∧
      (d.keyValue onlyShowInKey = none → (RoundTrips setNotShowIn notShowIn d lst ↔ totalLength lst ≤ 254)) := by
  have hd := ready_exec (ready_createNew hnew) hrun
  refine ⟨hd.exclusive,fun lst hne hproper => ⟨fun habsent => ?_,fun habsent => ?_⟩⟩
  · exact roundTrips_iff_fits hd plainName_onlyShowInKey plainName_notShowInKey habsent hne hproper
  · exact roundTrips_iff_fits hd plainName_notShowInKey plainName_onlyShowInKey habsent hne hproper

/-- The setters of a file with a name in German, which is shown in two environments. -/
def germanSetters : List Setter :=
  [.setName (some (CString.ofBuf [100,101,95,68,69])) (CString.ofBuf [69]),
    .setOnlyShowIn [CString.ofBuf [69,68,69],CString.ofBuf [75,68,69]],.setNotShowIn [CString.ofBuf [71]]]

theorem run_showIn_two_environments : ∃ d₁ d, new.createNew .application = some d₁ ∧
    Transition.exec Setter.step d₁ germanSetters = some d ∧
    d.Exclusive ∧ ∀ lst, lst ≠ [] → ProperNames lst →
      (d.keyValue notShowInKey = none → (RoundTrips setOnlyShowIn onlyShowIn d lst ↔ totalLength lst ≤ 254)) ∧
      (d.keyValue onlyShowInKey = none → (RoundTrips setNotShowIn notShowIn d lst ↔ totalLength lst ≤ 254)) := by
  have hsome : ((new.createNew .application).bind (fun d => Transition.exec Setter.step d germanSetters)).isSome := by
    decide +kernel
  obtain ⟨d,hd⟩ := Option.isSome_iff_exists.mp hsome
  obtain ⟨d₁,hnew,hrun⟩ := Option.bind_eq_some_iff.mp hd
  exact ⟨d₁,d,hnew,hrun,run_showIn new .application d₁ hnew germanSetters d hrun⟩

def letters (n : ℕ) : CString := ⟨List.replicate n 97,fun h => absurd (List.eq_of_mem_replicate h) (by decide)⟩

/-- One name of three hundred letters is not read back. -/
theorem not_run_roundTrips : ¬ ∀ (d₀ : DesktopFile) (t : DesktopFileType) (d₁ : DesktopFile),
    d₀.createNew t = some d₁ → ∀ (acts : List Setter) (d : DesktopFile),
    Transition.exec Setter.step d₁ acts = some d → ∀ lst, lst ≠ [] → ProperNames lst →
    d.keyValue notShowInKey = none → RoundTrips setOnlyShowIn onlyShowIn d lst := by
  intro h
  obtain ⟨d,hnew⟩ : ∃ d, new.createNew .link = some d := ⟨_,rfl⟩
  have hready := ready_createNew hnew
  have hne : [letters 300] ≠ [] := List.cons_ne_nil _ _
  have hproper : ProperNames [letters 300] := by
    intro name hmem
    rw [List.mem_singleton.mp hmem]
    exact ⟨List.ne_nil_of_length_pos (by rw [letters,List.length_replicate]; decide),
      fun h => absurd (List.eq_of_mem_replicate h) (by decide)⟩
  have habsent : d.keyValue notShowInKey = none := by
    cases hnew
    decide +kernel
  have hiff := roundTrips_iff_fits hready plainName_onlyShowInKey plainName_notShowInKey habsent hne hproper
  have hshort := hiff.mp (h new .link d hnew [] d rfl _ hne hproper habsent)
  have htotal : totalLength [letters 300] = 301 := by
    rw [totalLength,List.map_singleton,List.sum_singleton,CString.strlen,letters,List.length_replicate]
  omega

end Edelib.DesktopFile
