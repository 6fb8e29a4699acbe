import Edelib.Edbus.Equality

/-! # Appending to lists and dicts -/
namespace Edelib.Edbus

def listAppend (arrayMode : Bool) (lst : List EdbusData) (val : EdbusData) : List EdbusData :=
  match arrayMode,lst with
  | true,it :: _ => if listSize lst ≠ 0 ∧ it.type ≠ val.type then lst else lst ++ [val]
  | _,_ => lst ++ [val]

/-- Replace the value of the first entry with an equal key, or add an entry. The key is
another object than the stored ones. -/
def replaceOrPush (key value : EdbusData) : List EdbusDictEntry → Option (List EdbusDictEntry)
  | [] => some [⟨key,value⟩]
  | it :: lst => do
    if ← dataEq (fun _ => false) it.key key then some (⟨it.key,value⟩ :: lst)
    else
      let lst ← replaceOrPush key value lst
      some (it :: lst)

/-- `EdbusDict::append`. -/
def dictAppend (lst : List EdbusDictEntry) (key value : EdbusData) : Option (List EdbusDictEntry) :=
  if !key.basicType then some lst
  else
    match lst with
    | first :: _ =>
      if dictSize lst ≠ 0 ∧ (key.type ≠ first.key.type ∨ value.type ≠ first.value.type) then some lst
      else replaceOrPush key value lst
    | [] => replaceOrPush key value lst

structure DistinctKeys (lst : List EdbusDictEntry) : Prop where
  basic : ∀ e ∈ lst, e.key.basicType = true
  distinct : lst.Pairwise (fun e1 e2 => dataEq (fun _ => false) e1.key e2.key = some false)

instance (lst : List EdbusDictEntry) : Decidable (DistinctKeys lst) :=
  decidable_of_iff ((∀ e ∈ lst, e.key.basicType = true) ∧
      lst.Pairwise (fun e1 e2 => dataEq (fun _ => false) e1.key e2.key = some false))
    ⟨fun ⟨hbasic,hdistinct⟩ => ⟨hbasic,hdistinct⟩,fun ⟨hbasic,hdistinct⟩ => ⟨hbasic,hdistinct⟩⟩

/-- Up to the limit of the counter an entry has to have the types of the first one. -/
theorem dictAppend_cons {first : EdbusDictEntry} {rest : List EdbusDictEntry} {key value : EdbusData}
    (hkey : key.basicType = true) (hlen : (first :: rest).length < 2 ^ 32) :
    dictAppend (first :: rest) key value =
      if key.type ≠ first.key.type ∨ value.type ≠ first.value.type then some (first :: rest)
      else replaceOrPush key value (first :: rest) := by
  have hsize := dictSize_ne_zero (List.cons_ne_nil first rest) hlen
  rw [dictAppend,hkey]
  simp only [Bool.not_true,Bool.false_eq_true,if_false,hsize,ne_eq,not_false_eq_true,true_and]

/-- The pair is ignored, or it replaces a value or is added. -/
theorem dictAppend_cases {lst lst' : List EdbusDictEntry} {key value : EdbusData}
    (h : dictAppend lst key value = some lst') :
    lst' = lst ∨ key.basicType = true ∧ replaceOrPush key value lst = some lst' := by
  unfold dictAppend at h
  split_ifs at h with hkey
  · exact Or.inl (Option.some.inj h).symm
  · have hkey : key.basicType = true := by simpa using hkey
    cases lst with
    | nil => exact Or.inr ⟨hkey,h⟩
    | cons first lst =>
      dsimp only at h
      split_ifs at h
      · exact Or.inl (Option.some.inj h).symm
      · exact Or.inr ⟨hkey,h⟩

theorem replaceOrPush_cases {key value : EdbusData} {lst lst' : List EdbusDictEntry}
    (h : replaceOrPush key value lst = some lst') :
    lst'.map EdbusDictEntry.key = lst.map EdbusDictEntry.key ∨
      lst' = lst ++ [⟨key,value⟩] ∧ ∀ e ∈ lst, dataEq (fun _ => false) e.key key = some false := by
  induction lst generalizing lst' with
  | nil =>
    cases h
    exact Or.inr ⟨rfl,nofun⟩
  | cons e lst ih =>
    obtain ⟨equal,hequal,h⟩ := Option.bind_eq_some_iff.mp h
    cases equal with
    | true =>
      cases h
      exact Or.inl rfl
    | false =>
      obtain ⟨rest,hrest,h⟩ := Option.bind_eq_some_iff.mp h
      cases h
      rcases ih hrest with hkeys | ⟨rfl,hnew⟩
      · exact Or.inl (by rw [List.map_cons,List.map_cons,hkeys])
      · exact Or.inr ⟨rfl,List.forall_mem_cons.mpr ⟨hequal,hnew⟩⟩

theorem DistinctKeys.dictAppend {lst lst' : List EdbusDictEntry} {key value : EdbusData} (h : DistinctKeys lst)
    (happend : dictAppend lst key value = some lst') : DistinctKeys lst' := by
  rcases dictAppend_cases happend with rfl | ⟨hkey,hreplace⟩
  · exact h
  · rcases replaceOrPush_cases hreplace with hkeys | ⟨rfl,hnew⟩
    · constructor
      · have hbasic : ∀ k ∈ lst'.map EdbusDictEntry.key, k.basicType = true := by
          rw [hkeys]
          exact List.forall_mem_map.mpr h.basic
        exact List.forall_mem_map.mp hbasic
      · have hpairs : (lst.map EdbusDictEntry.key).Pairwise
            (fun k1 k2 => dataEq (fun _ => false) k1 k2 = some false) := List.pairwise_map.mpr h.distinct
        rw [← hkeys] at hpairs
        exact List.pairwise_map.mp hpairs
    · constructor
      · intro e he
        rcases List.mem_append.mp he with he | he
        · exact h.basic e he
        · rw [List.mem_singleton.mp he]
          exact hkey
      · refine List.pairwise_append.mpr ⟨h.distinct,List.pairwise_singleton _ _,fun e he e' he' => ?_⟩
        rw [List.mem_singleton.mp he']
        exact hnew e he

theorem replaceOrPush_new {key value : EdbusData} {lst : List EdbusDictEntry}
    (h : ∀ e ∈ lst, dataEq (fun _ => false) e.key key = some false) :
    replaceOrPush key value lst = some (lst ++ [⟨key,value⟩]) := by
  induction lst with
  | nil => rfl
  | cons e lst ih =>
    obtain ⟨he,hlst⟩ := List.forall_mem_cons.mp h
    simp [replaceOrPush,he,ih hlst]

theorem dictAppend_new {lst : List EdbusDictEntry} {key value : EdbusData} (hkey : key.basicType = true)
    (hnew : ∀ e ∈ lst, dataEq (fun _ => false) e.key key = some false)
    (htypes : ∀ e ∈ lst, key.type = e.key.type ∧ value.type = e.value.type) :
    dictAppend lst key value = some (lst ++ [⟨key,value⟩]) := by
  have hpush := @replaceOrPush_new key value lst hnew
  cases lst with
  | nil => simp [dictAppend,hkey,hpush]
  | cons e lst =>
    obtain ⟨hk,hv⟩ := htypes e List.mem_cons_self
    simp [dictAppend,hkey,hk,hv,hpush]

/-- Up to the limit of the counter an element has to have the type of the first one. -/
theorem listAppend_cons {d val : EdbusData} {lst : List EdbusData} (hlen : (d :: lst).length < 2 ^ 32) :
    listAppend true (d :: lst) val = if d.type ≠ val.type then d :: lst else d :: lst ++ [val] := by
  have hsize := listSize_ne_zero (List.cons_ne_nil d lst) hlen
  simp only [listAppend,hsize,ne_eq,not_false_eq_true,true_and]

theorem listAppend_same {arrayMode : Bool} {lst : List EdbusData} {val : EdbusData}
    (htype : arrayMode = true → ∀ d ∈ lst, d.type = val.type) : listAppend arrayMode lst val = lst ++ [val] := by
  cases arrayMode with
  | false => rfl
  | true =>
    cases lst with
    | nil => rfl
    | cons d lst =>
      have hd := htype rfl d List.mem_cons_self
      simp [listAppend,hd]

end Edelib.Edbus
