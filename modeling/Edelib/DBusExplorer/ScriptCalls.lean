import Edelib.DBusExplorer.ScriptValues

/-! # Calls of scripts

A typed value is converted up to its first obstacle, whatever its parts are.
-/
namespace Edelib.DBusExplorer
open Foundation Edbus
open Foundation.Reported (Obstacle Settles)

/-! ## Conversions -/

theorem setWidth_ofInt {w w' : ℕ} (h : w ≤ w') (i : ℤ) : (BitVec.ofInt w' i).setWidth w = BitVec.ofInt w i := by
  apply BitVec.eq_of_toNat_eq
  have hdvd : ((2 ^ w : ℕ) : ℤ) ∣ ((2 ^ w' : ℕ) : ℤ) := Int.natCast_dvd_natCast.mpr (Nat.pow_dvd_pow 2 h)
  have hpos : ((2 ^ w' : ℕ) : ℤ) ≠ 0 := Int.natCast_ne_zero.mpr (Nat.two_pow_pos w').ne'
  have hrest : 0 ≤ i % ((2 ^ w' : ℕ) : ℤ) := Int.emod_nonneg i hpos
  rw [BitVec.toNat_setWidth,BitVec.toNat_ofInt,BitVec.toNat_ofInt,← Int.emod_emod_of_dvd i hdvd,
    Int.toNat_emod hrest (Int.natCast_nonneg _),Int.toNat_natCast]

/-- A value that is written right is carried. -/
theorem carries_self {v : EdbusBasic} (h : v.type ≠ .objectPath) : Carries (.basic v) (.basic v) :=
  ⟨rfl,iff_of_true rfl (bne_iff_ne.mpr h)⟩

theorem settles_int {v : EdbusBasic} {n : ℤ} (hsym : tag v.type ∈ intTags) (hpath : v.type ≠ .objectPath)
    (hdata : dataFromInt (tag v.type) (BitVec.ofInt 32 n) = .basic v) :
    Settles (Carries (.basic v)) none (dataFromPair (.symbol (tag v.type)) (.number n)) := by
  rw [dataFromPair,if_pos hsym,hdata]
  exact carries_self hpath

theorem dataFromPair_uint64 (n : ℤ) : dataFromPair (.symbol ":uint64") (.number n) = .refused [] := by
  simp [dataFromPair,intTags]

theorem dataFromPair_double (v : BitVec 64) :
    dataFromPair (.symbol ":double") (.real v) = .value (.basic (.double v)) := by
  simp [dataFromPair,intTags]

theorem dataFromPair_string (v : CString) :
    dataFromPair (.symbol ":string") (.string v) = .value (.basic (.string v)) := by
  simp [dataFromPair,intTags]

theorem dataFromPair_objectPath (v : CString) : dataFromPair (.symbol ":object-path") (.string v) =
    if validPath v then .value (.basic (.objectPath (objectPathAppend rootPath v)))
    else .refused ["Wrong format of object path. The object path must be in '/foo/baz' form"] := by
  simp [dataFromPair,intTags]

theorem rootPath_append {sv : CString} (h : validPath sv = true) : objectPathAppend rootPath sv = rootPath := by
  have hslash : sv.bytes.head? = some 47 := by
    by_contra hne
    rw [validPath] at h
    split_ifs at h with h0 h1
    exact h1 (Or.inl hne)
  have helement : validElement sv.bytes = false := by
    obtain ⟨rest,hrest⟩ := List.head?_eq_some_iff.mp hslash
    rw [hrest]
    rfl
  rw [objectPathAppend,helement]
  rfl

/-- Only the integers of 64 bits and the paths are not written right. -/
theorem settles_basic {v : EdbusBasic} (hv : v ≠ .invalid) :
    Settles (Carries (.basic v)) (basicObstacle v) (dataFromPair (.symbol (tag v.type)) (writeBasic v)) := by
  cases v with
  | invalid => exact absurd rfl hv
  | byte v =>
    have hdata : dataFromInt ":byte" (BitVec.ofInt 32 v.toNat) = .basic (.byte v) := by
      rw [dataFromInt,if_pos rfl,setWidth_ofInt (by decide),BitVec.ofInt_natCast]
      simp
    exact @settles_int (.byte v) _ (show ":byte" ∈ intTags by decide) EdbusDataType.noConfusion hdata
  | bool v =>
    have hdata : dataFromInt ":bool" (BitVec.ofInt 32 v.toInt) = .basic (.bool v) := by cases v <;> rfl
    exact @settles_int (.bool v) _ (show ":bool" ∈ intTags by decide) EdbusDataType.noConfusion hdata
  | int16 v =>
    have hdata : dataFromInt ":int16" (BitVec.ofInt 32 v.toInt) = .basic (.int16 v) := by
      simp [dataFromInt,setWidth_ofInt]
    exact @settles_int (.int16 v) _ (show ":int16" ∈ intTags by decide) EdbusDataType.noConfusion hdata
  | uint16 v =>
    have hdata : dataFromInt ":uint16" (BitVec.ofInt 32 v.toNat) = .basic (.uint16 v) := by
      simp [dataFromInt]
    exact @settles_int (.uint16 v) _ (show ":uint16" ∈ intTags by decide) EdbusDataType.noConfusion hdata
  | int32 v =>
    have hdata : dataFromInt ":int32" (BitVec.ofInt 32 v.toInt) = .basic (.int32 v) := by simp [dataFromInt]
    exact @settles_int (.int32 v) _ (show ":int32" ∈ intTags by decide) EdbusDataType.noConfusion hdata
  | uint32 v =>
    have hdata : dataFromInt ":uint32" (BitVec.ofInt 32 v.toNat) = .basic (.uint32 v) := by simp [dataFromInt]
    exact @settles_int (.uint32 v) _ (show ":uint32" ∈ intTags by decide) EdbusDataType.noConfusion hdata
  | int64 v => exact dataFromPair_int64 v.toInt ▸ rfl
  | uint64 v => exact dataFromPair_uint64 v.toNat ▸ rfl
  | double v => exact dataFromPair_double v ▸ carries_self EdbusDataType.noConfusion
  | string v => exact dataFromPair_string v ▸ carries_self EdbusDataType.noConfusion
  | objectPath v =>
    rw [EdbusBasic.type,tag,writeBasic,dataFromPair_objectPath,basicObstacle]
    by_cases hvalid : validPath v = true
    · have hroot : v ≠ rootPath := by
        rintro rfl
        exact absurd hvalid (by decide)
      rw [if_pos hvalid,if_pos hvalid,rootPath_append hvalid]
      refine ⟨rfl,iff_of_false (fun heq => ?_) Bool.false_ne_true⟩
      exact hroot (EdbusBasic.objectPath.inj (EdbusData.basic.inj heq)).symm
    · rw [if_neg hvalid,if_neg hvalid]
      exact List.cons_ne_nil _ []

/-! ## Lists -/

theorem listLen_nil : listLen .nil = 0 := rfl

theorem pairs_writeParams (lst : List EdbusData) : pairs (writeParams lst) = 2 * lst.length := by
  induction lst with
  | nil => rfl
  | cons d lst ih => rw [writeParams,pairs,pairs,ih,List.length_cons,Nat.mul_add]

/-- Lists of few pairs are counted as they are. -/
theorem listLen_of_le {args : Value} (h : pairs args ≤ 2147483647) : listLen args = pairs args :=
  CInt.ofSize_of_le h

theorem listLen_writeParams {lst : List EdbusData} (h : lst.length < 2 ^ 29) :
    listLen (writeParams lst) = 2 * lst.length := by
  have hpairs := pairs_writeParams lst
  rw [listLen_of_le (by omega),hpairs,Nat.cast_mul,Nat.cast_ofNat]

def Converts (d : EdbusData) : Prop :=
  Settles (Carries d) (obstacle d) (dataFromPair (.symbol (tag d.type)) (writeValue d))

theorem Converts.of_eq {d : EdbusData} {r : Reported EdbusData}
    (hr : dataFromPair (.symbol (tag d.type)) (writeValue d) = r) (h : Settles (Carries d) (obstacle d) r) :
    Converts d := by
  rw [Converts,hr]
  exact h

theorem settles_containerParams {append : List EdbusData → EdbusData → List EdbusData} {lst : List EdbusData}
    (h : ∀ d ∈ lst, Converts d) (msg : List EdbusData) :
    Settles (fun msg' => ∃ ds, List.Forall₂ Carries lst ds ∧ msg' = ds.foldl append msg) (obstacleIn lst)
      (containerParams append (writeParams lst) msg) := by
  induction lst generalizing msg with
  | nil =>
    rw [obstacleIn,writeParams,containerParams]
    exact ⟨[],List.Forall₂.nil,rfl⟩
  | cons d lst ih =>
    obtain ⟨hd,hlst⟩ := List.forall_mem_cons.mp h
    rw [obstacleIn,writeParams,containerParams]
    by_cases hnil : writeValue d = .nil
    · rw [if_pos hnil,if_pos hnil]
      trivial
    · rw [if_neg hnil,if_neg hnil]
      refine Settles.bind hd (fun d' hd' => (ih hlst (append msg d')).imp ?_)
      rintro msg' ⟨ds,hds,hmsg⟩
      exact ⟨d' :: ds,List.Forall₂.cons hd' hds,hmsg⟩

theorem settles_containerParamsFromList (append : List EdbusData → EdbusData → List EdbusData)
    {lst : List EdbusData} (hne : lst ≠ []) (hcount : lst.length < 2 ^ 29) (h : ∀ d ∈ lst, Converts d) :
    Settles (fun msg => ∃ ds, List.Forall₂ Carries lst ds ∧ msg = ds.foldl append []) (obstacleIn lst)
      (containerParamsFromList append (writeParams lst) []) := by
  have hpos : 0 < lst.length := List.length_pos_iff.mpr hne
  have hlen := listLen_writeParams hcount
  rw [containerParamsFromList,if_neg (by omega),if_neg (by omega)]
  exact settles_containerParams h []

theorem basicType_eq (d : EdbusData) :
    d.basicType = decide (d.type ∉ [EdbusDataType.array,.struct,.dict,.variant]) := by
  cases d with
  | basic v => cases v <;> rfl
  | _ => rfl

theorem settles_dictFromList {lst : List EdbusDictEntry} (h : ∀ e ∈ lst, Converts e.key ∧ Converts e.value)
    {dict : List EdbusDictEntry} (hlen : dict.length + lst.length < 2 ^ 32) (hkeys : DistinctKeys dict) :
    Settles (fun dict' => ∃ es, List.Forall₂ CarriesEntry lst es ∧ dictOf dict es = some dict')
      (obstacleInEntries lst (types dict)) (dictFromList (writeEntries lst) dict) := by
  induction lst generalizing dict with
  | nil =>
    rw [obstacleInEntries,writeEntries,dictFromList]
    exact ⟨[],List.Forall₂.nil,rfl⟩
  | cons e lst ih =>
    obtain ⟨key,value⟩ := e
    obtain ⟨⟨hkey,hvalue⟩,hlst⟩ := List.forall_mem_cons.mp h
    rw [obstacleInEntries,writeEntries,dictFromList,if_pos listLen_nil]
    refine Settles.bind (Settles.orReport hkey _) (fun key' hkey' => ?_)
    refine Settles.bind (Settles.orReport hvalue _) (fun value' hvalue' => ?_)
    have hktype : key'.type = key.type := hkey'.1
    have hvtype : value'.type = value.type := hvalue'.1
    rw [List.length_cons] at hlen
    have happend := @settles_dictAppend dict key' value' (by omega) hkeys
    rw [clash,firstTypes,basicType_eq,hktype,hvtype,← basicType_eq] at happend
    rw [Reported.elim_aborted]
    refine Settles.bind happend ?_
    rintro dict₁ ⟨hdict₁,htypes₁⟩
    have hlength := dictAppend_length_le hdict₁
    have hrest := ih hlst (by omega) (hkeys.dictAppend hdict₁)
    rw [htypes₁] at hrest
    refine hrest.imp ?_
    rintro dict' ⟨es,hes,hdict'⟩
    refine ⟨⟨key',value'⟩ :: es,List.Forall₂.cons ⟨hkey',hvalue'⟩ hes,?_⟩
    rw [dictOf_cons,EdbusDictEntry.key_mk,EdbusDictEntry.value_mk,hdict₁]
    exact hdict'

/-! ## Values -/

theorem dataFromPair_array (car cdr : Value) : dataFromPair (.symbol ":array") (.pair car cdr) =
    ((containerParamsFromList (listAppend true) (.pair car cdr) []).orReport
      "Unable to fill the array; probably some argument is missing the type").map EdbusData.array := by
  simp [dataFromPair,intTags]

theorem dataFromPair_struct (car cdr : Value) : dataFromPair (.symbol ":struct") (.pair car cdr) =
    ((containerParamsFromList (listAppend false) (.pair car cdr) []).orReport
      "Unable to fill the list; probably some argument is missing the type").map EdbusData.struct := by
  simp [dataFromPair,intTags]

theorem dataFromPair_dict (car cdr : Value) : dataFromPair (.symbol ":dict") (.pair car cdr) =
    (dictFromList (.pair car cdr) []).map EdbusData.dict := by
  simp [dataFromPair,intTags]

theorem dataFromPair_variant (varType varVal : Value) :
    dataFromPair (.symbol ":variant") (.pair varType (.pair varVal .nil)) =
      ((dataFromPair varType varVal).orReport "Unble to construct variant value").map EdbusData.variant := by
  simp [dataFromPair,intTags,listLen_nil]

/-- A list that is not given is reported. -/
theorem dataFromPair_nil {sym : String} (h : sym ∈ [":array",":struct",":dict"]) :
    ∃ error, dataFromPair (.symbol sym) .nil = .refused [error] := by
  rcases List.mem_cons.mp h with rfl | h
  · exact ⟨_,by simp [dataFromPair,intTags]; rfl⟩
  · rcases List.mem_cons.mp h with rfl | h
    · exact ⟨_,by simp [dataFromPair,intTags]; rfl⟩
    · rw [List.mem_singleton.mp h]
      exact ⟨_,by simp [dataFromPair,intTags]; rfl⟩

theorem settles_empty {d : EdbusData} {sym : String} (h : sym ∈ [":array",":struct",":dict"]) :
    Settles (Carries d) (some .reported) (dataFromPair (.symbol sym) .nil) := by
  obtain ⟨error,herror⟩ := dataFromPair_nil h
  rw [herror]
  exact List.cons_ne_nil error []

/-- A list of typed values in a container of the kind `make`. -/
theorem settles_list {append : List EdbusData → EdbusData → List EdbusData} {make : List EdbusData → EdbusData}
    {lst : List EdbusData} (error : String) (hne : lst ≠ []) (hcount : lst.length < 2 ^ 29)
    (h : ∀ d ∈ lst, Converts d) (hmake : ∀ ds, List.Forall₂ Carries lst ds → Carries (make lst) (make (ds.foldl append []))) :
    Settles (Carries (make lst)) ((obstacleIn lst).map Obstacle.within)
      (((containerParamsFromList append (writeParams lst) []).orReport error).map make) := by
  refine Settles.map (Settles.orReport (settles_containerParamsFromList append hne hcount h) error) ?_
  rintro _ ⟨ds,hds,rfl⟩
  exact hmake ds hds

theorem settles_array {lst : List EdbusData} (hcount : lst.length < 2 ^ 29) (h : ∀ d ∈ lst, Converts d) : Converts (.array lst) := by
  cases lst with
  | nil => exact settles_empty (by decide)
  | cons d lst =>
    have harray := dataFromPair_array (.symbol (tag d.type)) (.pair (writeValue d) (writeParams lst))
    rw [← writeParams] at harray
    exact Converts.of_eq harray (settles_list _ (List.cons_ne_nil d lst) hcount h (fun _ hds => carries_array (by omega) hds))

theorem settles_struct {lst : List EdbusData} (hcount : lst.length < 2 ^ 29) (h : ∀ d ∈ lst, Converts d) : Converts (.struct lst) := by
  cases lst with
  | nil => exact settles_empty (by decide)
  | cons d lst =>
    have hstruct := dataFromPair_struct (.symbol (tag d.type)) (.pair (writeValue d) (writeParams lst))
    rw [← writeParams] at hstruct
    exact Converts.of_eq hstruct (settles_list _ (List.cons_ne_nil d lst) hcount h (fun _ hds => carries_struct hds))

theorem settles_dict {lst : List EdbusDictEntry} (hcount : lst.length < 2 ^ 29) (h : ∀ e ∈ lst, Converts e.key ∧ Converts e.value) :
    Converts (.dict lst) := by
  cases lst with
  | nil => exact settles_empty (by decide)
  | cons e lst =>
    have hdistinct : DistinctKeys [] := ⟨fun e he => absurd he List.not_mem_nil,List.Pairwise.nil⟩
    have hlen : ([] : List EdbusDictEntry).length + (e :: lst).length < 2 ^ 32 := by
      rw [List.length_nil]
      omega
    have hentries : Settles (Carries (.dict (e :: lst))) (obstacleInEntries (e :: lst) none)
        ((dictFromList (writeEntries (e :: lst)) []).map EdbusData.dict) := by
      refine Settles.map (settles_dictFromList h hlen hdistinct) ?_
      rintro dict ⟨es,hes,hdict⟩
      exact carries_dict (by omega) hes hdict
    have hdict : dataFromPair (.symbol ":dict") (writeEntries (e :: lst)) =
        (dictFromList (writeEntries (e :: lst)) []).map EdbusData.dict := by
      obtain ⟨key,value⟩ := e
      exact dataFromPair_dict _ _
    exact Converts.of_eq hdict hentries

theorem settles_variant {value : EdbusData} (h : Converts value) : Converts (.variant value) :=
  Converts.of_eq (dataFromPair_variant (.symbol (tag value.type)) (writeValue value))
    (Settles.map (Settles.orReport h _) (fun _ hvalue => carries_variant hvalue))

theorem writable_iff {d : EdbusData} : writable d = true ↔ d.type ≠ .invalid ∧ partCount d < 2 ^ 29 := by
  rw [writable,Bool.and_eq_true,bne_iff_ne,decide_eq_true_iff]

/-- What a typed value becomes, up to its first obstacle. -/
theorem converts (d : EdbusData) (h : everywhere writable d = true) : Converts d := by
  induction d using EdbusData.induct with
  | basic v =>
    refine settles_basic ?_
    rintro rfl
    cases h
  | array lst ih =>
    obtain ⟨hwritable,hlst⟩ := everywhere_array.mp h
    exact settles_array (writable_iff.mp hwritable).2 (fun d hd => ih d hd (hlst d hd))
  | struct lst ih =>
    obtain ⟨hwritable,hlst⟩ := everywhere_struct.mp h
    exact settles_struct (writable_iff.mp hwritable).2 (fun d hd => ih d hd (hlst d hd))
  | dict lst ih =>
    obtain ⟨hwritable,hlst⟩ := everywhere_dict.mp h
    exact settles_dict (writable_iff.mp hwritable).2
      (fun e he => ⟨(ih e he).1 (hlst e he).1,(ih e he).2 (hlst e he).2⟩)
  | variant value ih => exact settles_variant (ih (everywhere_variant.mp h).2)



end Edelib.DBusExplorer
