import Edelib.Config.Plain
import Edelib.Desktop.DesktopFile
import Edelib.Foundation.Transition

/-! # The type of a desktop file

The type is kept in a field and is named by an entry of the file. A step of a run obeys the law
if it leaves both in agreement; it does so if and only if none of three slips is met.
-/
namespace Edelib.DesktopFile
open Foundation

theorem plainName_entrySect : PlainName entrySect := plainName_of_inits (by decide +kernel)

theorem plainName_typeKey : PlainName typeKey := plainName_of_inits (by decide +kernel)

/-! ## The law and its condition -/

def typeValue (d : DesktopFile) : Option CString := d.config.value entrySect typeKey

def typeName : DesktopFileType → Option CString
  | .application => some applicationName
  | .link => some linkName
  | .directory => some directoryName
  | .unknown => none

def namedType (v : CString) : Option DesktopFileType :=
  if v = applicationName then some .application
  else if v = linkName then some .link
  else if v = directoryName then some .directory
  else none

def Agrees (d : DesktopFile) : Prop := ∃ v, d.typeValue = some v ∧ namedType v = some d.type

inductive TypeAction
  | load (file : Option (List UInt8))
  | createNew (t : DesktopFileType)
  | setType (t : DesktopFileType)

/-- A type is given to the file: it is valid, so it is then reported, and named by the file. -/
def Typed (t : DesktopFileType) (result : Option DesktopFile) : Prop :=
  t ≠ .unknown → ∃ d, result = some d ∧ d.errcode = .success ∧ d.typeValue = typeName t ∧ d.Agrees

namespace TypeAction

def step (d : DesktopFile) : TypeAction → Option DesktopFile
  | load file => (d.load file).map Prod.snd
  | createNew t => d.createNew t
  | setType t => d.setType t

def Lawful (d : DesktopFile) : TypeAction → Prop
  | load file => ∃ ok d', d.load file = some (ok,d') ∧ (ok = true → d'.Agrees) ∧
      ∀ v, d'.typeValue = some v → namedType v = none → ok = false
  | createNew t => Typed t (d.createNew t)
  | setType t => Typed t (d.setType t)

def BeginsWithName (v : CString) : Prop :=
  applicationName.bytes <+: v.bytes ∨ linkName.bytes <+: v.bytes ∨ directoryName.bytes <+: v.bytes

/-- The reader stays in its buffers, and the value it finds is a name or begins with none; the
type is no directory; the file is valid and of the type already. -/
def Meets (d : DesktopFile) : TypeAction → Prop
  | load none => True
  | load (some f) => ∃ status config, d.config.load f = some (status,config) ∧ (status = true →
      ∀ v, config.value entrySect typeKey = some v → (namedType v).isSome ∨ ¬ BeginsWithName v)
  | createNew t => t ≠ .directory
  | setType t => t = .unknown ∨ d.errcode = .success ∧ t = d.dtype

end TypeAction

/-! ## Names -/

theorem namedType_eq_some {v : CString} {t : DesktopFileType} (h : namedType v = some t) : typeName t = some v := by
  unfold namedType at h
  split_ifs at h with h₁ h₂ h₃
  all_goals
    cases h
    subst v
    rfl

theorem namedType_typeName {t : DesktopFileType} {v : CString} (h : typeName t = some v) : namedType v = some t := by
  cases t <;> cases h <;> decide

/-- The comparisons find the name that the text begins with. -/
theorem typeOfBuf_eq (buf : CString) : typeOfBuf buf =
    if applicationName.bytes <+: buf.bytes then some .application
    else if linkName.bytes <+: buf.bytes then some .link
    else if directoryName.bytes <+: buf.bytes then some .directory
    else none := by
  have happ : buf.strncmp applicationName 11 = 0 ↔ applicationName.bytes <+: buf.bytes := CString.strncmp_prefix_eq_zero
  have hlink : buf.strncmp linkName 4 = 0 ↔ linkName.bytes <+: buf.bytes := CString.strncmp_prefix_eq_zero
  have hdir : buf.strncmp directoryName 9 = 0 ↔ directoryName.bytes <+: buf.bytes := CString.strncmp_prefix_eq_zero
  simp only [typeOfBuf,happ,hlink,hdir]

theorem typeOfBuf_bufferOf (v : CString) : typeOfBuf (CString.ofBuf (Config.bufferOf v bufSize)) = typeOfBuf v := by
  have hpre : ∀ name : CString, name.strlen ≤ 255 →
      (name.bytes <+: (CString.ofBuf (Config.bufferOf v bufSize)).bytes ↔ name.bytes <+: v.bytes) := by
    intro name hname
    rw [bufSize,Config.ofBuf_bufferOf,List.prefix_take_iff]
    refine and_iff_left (hname.trans ?_)
    split_ifs <;> omega
  rw [typeOfBuf_eq,typeOfBuf_eq]
  simp only [hpre applicationName (by decide),hpre linkName (by decide),hpre directoryName (by decide)]

theorem typeOfBuf_eq_none {v : CString} : typeOfBuf v = none ↔ ¬ TypeAction.BeginsWithName v := by
  rw [typeOfBuf_eq,TypeAction.BeginsWithName]
  split_ifs with h₁ h₂ h₃ <;> simp [*]

theorem typeOfBuf_of_named {v : CString} {t : DesktopFileType} (h : namedType v = some t) : typeOfBuf v = some t := by
  have hname := namedType_eq_some h
  cases t <;> cases hname <;> decide

/-! ## The steps -/

structure Sound (d : DesktopFile) : Prop where
  valid : d.config.Valid
  agrees : d.errcode = .success → d.Agrees

/-- After a type is set in a valid configuration the file names it. -/
theorem value_setType {c : Config} (hc : c.Valid) (val : CString) :
    (c.set entrySect typeKey val).value entrySect typeKey = some val := by
  rw [Config.value_set hc (Config.lookupClear plainName_entrySect plainName_typeKey),if_pos ⟨rfl,rfl⟩]

theorem typeName_eq_some {t : DesktopFileType} (ht : t ≠ .unknown) : ∃ val, typeName t = some val := by
  cases t with
  | unknown => exact absurd rfl ht
  | application => exact ⟨_,rfl⟩
  | link => exact ⟨_,rfl⟩
  | directory => exact ⟨_,rfl⟩

/-- A file whose type is set is typed if and only if the field has the type as well. -/
theorem typed_set_iff {c : Config} (hc : c.Valid) {t dtype : DesktopFileType} {val : CString}
    (hval : typeName t = some val) (ht : t ≠ .unknown) :
    Typed t (some { config := c.set entrySect typeKey val, errcode := .success, dtype }) ↔ t = dtype := by
  have hvalue := value_setType hc val
  constructor
  · intro h
    obtain ⟨d,hd,-,-,v,hv,hnamed⟩ := h ht
    cases hd
    rw [typeValue,hvalue] at hv
    cases hv
    exact Option.some.inj ((namedType_typeName hval).symm.trans hnamed)
  · rintro rfl _
    exact ⟨_,rfl,rfl,hvalue.trans hval.symm,val,hvalue,namedType_typeName hval⟩

theorem createNew_iff (d : DesktopFile) (t : DesktopFileType) : Typed t (d.createNew t) ↔ t ≠ .directory := by
  cases t with
  | unknown => exact iff_of_true (fun ht => absurd rfl ht) (by decide)
  | application =>
    exact ((typed_set_iff Config.valid_empty rfl (by decide)).trans (iff_of_true rfl (by decide)))
  | link => exact ((typed_set_iff Config.valid_empty rfl (by decide)).trans (iff_of_true rfl (by decide)))
  | directory =>
    refine iff_of_false (fun h => ?_) (fun h => h rfl)
    obtain ⟨d',hd',-⟩ := h (by decide)
    cases hd'

theorem setType_eq {d : DesktopFile} {t : DesktopFileType} {val : CString} (hval : typeName t = some val) :
    d.setType t = some (if d.settable then { d with config := d.config.set entrySect typeKey val } else d) := by
  rw [setType]
  split_ifs with hset
  · cases t <;> cases hval <;> rfl
  · rfl

theorem setType_iff {d : DesktopFile} (hd : d.Sound) (t : DesktopFileType) :
    Typed t (d.setType t) ↔ t = .unknown ∨ d.errcode = .success ∧ t = d.dtype := by
  by_cases ht : t = .unknown
  · exact iff_of_true (fun hne => absurd ht hne) (Or.inl ht)
  · rw [or_iff_right ht]
    obtain ⟨val,hval⟩ := typeName_eq_some ht
    by_cases hcode : d.errcode = .success
    · have hset : d.settable = true := decide_eq_true (Or.inl hcode)
      rw [setType_eq hval,if_pos hset,and_iff_right hcode,← typed_set_iff hd.valid hval ht,hcode]
    · refine iff_of_false (fun h => ?_) (fun h => hcode h.1)
      obtain ⟨d',hd',hcode',-⟩ := h ht
      rw [setType_eq hval] at hd'
      cases hd'
      split_ifs at hcode' <;> exact hcode hcode'

/-- The types agree and other values are rejected, where the value is a name or begins with none. -/
theorem loadType_iff {c : Config} (hc : c.Valid) (d : DesktopFile) (status : Bool) :
    (((d.loadType status c).1 = true → (d.loadType status c).2.Agrees) ∧
      ∀ v, (d.loadType status c).2.typeValue = some v → namedType v = none → (d.loadType status c).1 = false) ↔
    (status = true → ∀ v, c.value entrySect typeKey = some v →
      (namedType v).isSome ∨ ¬ TypeAction.BeginsWithName v) := by
  cases status with
  | false =>
    have hno : false ≠ true := Bool.false_ne_true
    exact iff_of_true ⟨fun h => absurd h hno,fun _ _ _ => rfl⟩ (fun h => absurd h hno)
  | true =>
    have hsame := Config.sameSections_getEntry c entrySect typeKey
    have hfound := Config.get_eq_bufferOf hc plainName_entrySect plainName_typeKey bufSize
    rw [← Config.get_state c entrySect typeKey bufSize] at hsame
    rw [loadType,if_neg (by decide)]
    cases hget : c.get entrySect typeKey bufSize with
    | mk found config =>
      rw [hget] at hsame hfound
      cases hv : c.value entrySect typeKey with
      | none =>
        rw [hv] at hfound
        obtain rfl : found = none := hfound
        exact iff_of_true ⟨fun h => (Bool.false_ne_true h).elim,fun _ _ _ => rfl⟩ (fun _ v h => by cases h)
      | some v =>
        rw [hv] at hfound
        obtain rfl : found = some (Config.bufferOf v bufSize) := hfound
        dsimp only
        rw [typeOfBuf_bufferOf]
        cases ht : typeOfBuf v with
        | none =>
          refine iff_of_true ⟨fun h => (Bool.false_ne_true h).elim,fun _ _ _ => rfl⟩ (fun _ w hw => ?_)
          cases hw
          exact Or.inr (typeOfBuf_eq_none.mp ht)
        | some t =>
          have hvalue : config.value entrySect typeKey = some v := (hsame.value _ _).trans hv
          constructor
          · rintro ⟨hagrees,-⟩ - w hw
            cases hw
            obtain ⟨w,hw,hnamed⟩ := hagrees rfl
            obtain rfl : v = w := Option.some.inj (hvalue.symm.trans hw)
            exact Or.inl (hnamed ▸ rfl)
          · intro h
            have hsome : (namedType v).isSome := by
              refine (h rfl v rfl).resolve_right (fun hnot => ?_)
              rw [typeOfBuf_eq_none.mpr hnot] at ht
              cases ht
            obtain ⟨t',ht'⟩ := Option.isSome_iff_exists.mp hsome
            obtain rfl : t' = t := Option.some.inj ((typeOfBuf_of_named ht').symm.trans ht)
            refine ⟨fun _ => ⟨v,hvalue,ht'⟩,fun w hw hnone => ?_⟩
            obtain rfl : v = w := Option.some.inj (hvalue.symm.trans hw)
            rw [hnone] at ht'
            cases ht'

theorem loadType_state {c : Config} (hc : c.Valid) (d : DesktopFile) (status : Bool) :
    (d.loadType status c).2.config.Valid ∧
      ((d.loadType status c).2.errcode = .success → (d.loadType status c).1 = true) := by
  cases status with
  | false => exact ⟨hc,fun h => by cases h⟩
  | true =>
    have hsame := Config.sameSections_getEntry c entrySect typeKey
    rw [← Config.get_state c entrySect typeKey bufSize] at hsame
    have hvalid := hsame.valid hc
    rw [loadType,if_neg (by decide)]
    cases hget : c.get entrySect typeKey bufSize with
    | mk found config =>
      rw [hget] at hvalid
      cases found with
      | none => exact ⟨hvalid,fun h => by cases h⟩
      | some buf =>
        dsimp only
        cases typeOfBuf (CString.ofBuf buf) with
        | none => exact ⟨hvalid,fun h => by cases h⟩
        | some t => exact ⟨hvalid,fun _ => rfl⟩

theorem valid_unopened (d : DesktopFile) : { d.config.clear with errcode := ConfigErrors.file }.Valid :=
  ⟨Config.valid_empty.names,Config.valid_empty.keys,Config.valid_empty.cached_lt⟩

namespace TypeAction

theorem lawful_iff {d : DesktopFile} (hd : d.Sound) (a : TypeAction) : Lawful d a ↔ Meets d a := by
  cases a with
  | load file =>
    cases file with
    | none =>
      refine iff_of_true ⟨_,_,rfl,?_⟩ trivial
      exact (loadType_iff (valid_unopened d) d false).mpr (fun h => (Bool.false_ne_true h).elim)
    | some f =>
      constructor
      · rintro ⟨ok,d',hload,hlaw⟩
        obtain ⟨⟨status,c⟩,hc,hr⟩ := Option.map_eq_some_iff.mp hload
        have hiff := loadType_iff (Config.valid_load hc) d status
        dsimp only at hr
        rw [hr] at hiff
        exact ⟨status,c,hc,hiff.mp hlaw⟩
      · rintro ⟨status,c,hc,hmeets⟩
        refine ⟨_,_,?_,(loadType_iff (Config.valid_load hc) d status).mpr hmeets⟩
        rw [DesktopFile.load,hc]
        rfl
  | createNew t => exact createNew_iff d t
  | setType t => exact setType_iff hd t

theorem sound_step {d d' : DesktopFile} {a : TypeAction} (hd : d.Sound) (ha : Lawful d a) (hstep : step d a = some d') :
    d'.Sound := by
  cases a with
  | load file =>
    obtain ⟨ok,d₁,hload,hagrees,-⟩ := ha
    rw [step,hload] at hstep
    cases hstep
    have hstate : d₁.config.Valid ∧ (d₁.errcode = .success → ok = true) := by
      cases file with
      | none =>
        cases hload
        exact loadType_state (valid_unopened d) d false
      | some f =>
        obtain ⟨⟨status,c⟩,hc,hr⟩ := Option.map_eq_some_iff.mp hload
        have hloaded := loadType_state (Config.valid_load hc) d status
        dsimp only at hr
        rwa [hr] at hloaded
    exact ⟨hstate.1,fun hcode => hagrees (hstate.2 hcode)⟩
  | createNew t =>
    have hvalid : d'.config.Valid := by
      cases t <;> cases hstep <;> exact Config.valid_set Config.valid_empty _ _ _
    refine ⟨hvalid,fun _ => ?_⟩
    have ht : t ≠ .unknown := by
      rintro rfl
      cases hstep
    obtain ⟨d₁,hd₁,-,-,hagrees⟩ := ha ht
    cases hstep.symm.trans hd₁
    exact hagrees
  | setType t =>
    by_cases ht : t = .unknown
    · subst ht
      rw [step,DesktopFile.setType] at hstep
      split_ifs at hstep
      · cases hstep
      · cases hstep
        exact hd
    · obtain ⟨d₁,hd₁,-,-,hagrees⟩ := ha ht
      cases hstep.symm.trans hd₁
      refine ⟨?_,fun _ => hagrees⟩
      obtain ⟨val,hval⟩ := typeName_eq_some ht
      rw [step,setType_eq hval] at hstep
      cases hstep
      split_ifs
      · exact Config.valid_set hd.valid _ _ _
      · exact hd.valid

theorem sound_new : new.Sound := ⟨Config.valid_empty,fun h => by cases h⟩

/-- A run obeys the law if and only if each of its steps meets the condition. -/
theorem run_agrees_iff (acts : List TypeAction) :
    Transition.Along step Lawful new acts ↔ Transition.Along step Meets new acts :=
  Transition.along_iff (fun _ a hd => lawful_iff hd a) (fun _ _ _ hd ha hstep => sound_step hd ha hstep) sound_new

/-- A directory cannot be created. -/
theorem not_run_agrees : ¬ Transition.Along step Lawful new [createNew .directory] := by
  intro h
  have hlaw := (Transition.along_cons.mp h).1
  obtain ⟨d,hd,-⟩ := hlaw (by decide)
  cases hd

end TypeAction
end Edelib.DesktopFile
