import Edelib.Edbus.LibDBus

/-! # A library that checks elements

Messages are lists of values. An element whose signature is not the announced one makes
the iterator useless, and with it every iterator closed over it.
-/
namespace Edelib.Edbus
open Foundation

/-- An open container, or the message itself as one of the invalid type. -/
structure Pending where
  type : DBusType
  elementSig : List Char
  done : List DBusValue

def push : Option Pending → DBusValue → Option Pending
  | none,_ => none
  | some p,v =>
    if p.type = .array ∧ v.signature ≠ p.elementSig then none
    else some { p with done := p.done ++ [v] }

def Pending.value (p : Pending) : Option DBusValue :=
  match p.type,p.done with
  | .array,elements => some (.array p.elementSig elements)
  | .struct,fields => some (.struct fields)
  | .dictEntry,[key,value] => some (.dictEntry key value)
  | .variant,[value] => some (.variant value)
  | _,_ => none

abbrev checkedCalls : LibDBusCalls where
  AppendIter := Option Pending
  ReadIter := List DBusValue
  initAppend := some ⟨.invalid,[],[]⟩
  appendBasic := fun it v => push it (.basic v)
  openContainer := fun it type sig => it.map (fun _ => ⟨type,sig.getD [],[]⟩)
  closeContainer := fun it sub => (sub.bind Pending.value).bind (push it)
  initRead := fun it => (it.map Pending.done).getD []
  getArgType := fun
    | [] => .invalid
    | v :: _ => v.type
  getElementType := fun
    | .array _ (v :: _) :: _ => v.type
    | _ => .invalid
  getBasic := fun
    | .basic v :: _ => v
    | _ => .byte 0
  recurse := fun
    | [] => []
    | v :: _ => v.children
  next := List.tail

theorem foldl_push_none (values : List DBusValue) : values.foldl push none = none := by
  induction values with
  | nil => rfl
  | cons v values ih => exact ih

theorem foldl_push {p : Pending} {values : List DBusValue}
    (h : p.type = .array → ∀ v ∈ values, v.signature = p.elementSig) :
    values.foldl push (some p) = some { p with done := p.done ++ values } := by
  induction values generalizing p with
  | nil => simp
  | cons v values ih =>
    have hpush : push (some p) v = some { p with done := p.done ++ [v] } := by
      refine if_neg (fun ⟨htype,hsig⟩ => hsig (h htype v List.mem_cons_self))
    have hrest := @ih { p with done := p.done ++ [v] } (fun htype w hw => h htype w (List.mem_cons_of_mem v hw))
    rw [List.foldl_cons,hpush,hrest]
    simp

/-- One element of another signature makes the iterator useless. -/
theorem foldl_push_other {p : Pending} {values : List DBusValue} (htype : p.type = .array)
    (hother : ∃ v ∈ values, v.signature ≠ p.elementSig) : values.foldl push (some p) = none := by
  induction values generalizing p with
  | nil =>
    obtain ⟨v,hv,-⟩ := hother
    cases hv
  | cons v values ih =>
    rw [List.foldl_cons]
    by_cases hsig : v.signature = p.elementSig
    · have hpush : push (some p) v = some { p with done := p.done ++ [v] } := if_neg (fun h => h.2 hsig)
      obtain ⟨w,hw,hwsig⟩ := hother
      rcases List.mem_cons.mp hw with rfl | hw
      · exact absurd hsig hwsig
      · rw [hpush]
        exact @ih { p with done := p.done ++ [v] } htype ⟨w,hw,hwsig⟩
    · have hpush : push (some p) v = none := if_pos ⟨htype,hsig⟩
      rw [hpush]
      exact foldl_push_none values

theorem appendValues_checked {it : Option Pending} {values : List DBusValue}
    (h : ∀ v ∈ values, ∀ it, checkedCalls.appendValue it v = push it v) :
    checkedCalls.appendValues it values = values.foldl push it := by
  induction values generalizing it with
  | nil => rfl
  | cons v values ih =>
    obtain ⟨hv,hvalues⟩ := List.forall_mem_cons.mp h
    rw [LibDBusCalls.appendValues,hv,List.foldl_cons]
    exact ih hvalues

theorem appendValue_checked {v : DBusValue} (h : v.WellTyped) (it : Option Pending) :
    checkedCalls.appendValue it v = push it v := by
  induction h generalizing it with
  | basic v => rfl
  | @array elementSig elements nonempty sig typed ih =>
    rw [LibDBusCalls.appendValue,appendValues_checked ih]
    cases it with
    | none =>
      change (Option.bind ((elements.foldl push none).bind Pending.value) (push none)) = none
      rw [foldl_push_none]
      rfl
    | some p =>
      change (Option.bind ((elements.foldl push (some ⟨.array,elementSig,[]⟩)).bind Pending.value) (push (some p))) = _
      rw [foldl_push (fun _ => sig)]
      rfl
  | @struct fields nonempty complete typed ih =>
    rw [LibDBusCalls.appendValue,appendValues_checked ih]
    cases it with
    | none =>
      change (Option.bind ((fields.foldl push none).bind Pending.value) (push none)) = none
      rw [foldl_push_none]
      rfl
    | some p =>
      change (Option.bind ((fields.foldl push (some ⟨.struct,[],[]⟩)).bind Pending.value) (push (some p))) = _
      rw [@foldl_push ⟨.struct,[],[]⟩ fields nofun]
      rfl
  | @dictEntry key value complete typed ih =>
    rw [LibDBusCalls.appendValue]
    dsimp only
    rw [ih]
    cases it <;> rfl
  | @variant value complete typed ih =>
    rw [LibDBusCalls.appendValue,ih]
    cases it <;> rfl

theorem checked_stores (values : List DBusValue) (h : ∀ v ∈ values, v.Argument) :
    checkedCalls.initRead (checkedCalls.appendValues checkedCalls.initAppend values) = values := by
  rw [appendValues_checked (fun v hv it => appendValue_checked (h v hv).2 it)]
  change ((values.foldl push (some ⟨.invalid,[],[]⟩)).map Pending.done).getD [] = values
  rw [@foldl_push ⟨.invalid,[],[]⟩ values nofun]
  rfl

def checked : LibDBus where
  toLibDBusCalls := checkedCalls
  Reading := fun it values => it = values
  stores := checked_stores
  reading_nil := fun _ h => h ▸ rfl
  reading_type := fun _ _ _ h => h ▸ rfl
  reading_next := fun _ _ _ h => h ▸ rfl
  reading_basic := fun _ _ _ h => h ▸ rfl
  reading_element := fun _ _ _ _ _ h => h ▸ rfl
  reading_recurse := fun _ _ _ h _ => h ▸ rfl

end Edelib.Edbus
