import Edelib.DBusExplorer.ScriptDBus
import Edelib.Edbus.Announced
import Edelib.Edbus.StructuralEquality
import Mathlib.Data.List.Forall2

/-! # Typed values of scripts

A typed value is written with the tags of its parts. The first part that cannot be converted decides what a call
does; a call that converts all of them still loses what its containers do not take.
-/
namespace Edelib.DBusExplorer
open Foundation Edbus
open Foundation.Reported (Obstacle Settles)

/-! ## Writing values -/

def partCount : EdbusData → ℕ
  | .array lst => lst.length
  | .struct lst => lst.length
  | .dict lst => lst.length
  | _ => 0

/-- A documented type, and no list that an `int` does not count. -/
def writable (d : EdbusData) : Bool := d.type != .invalid && decide (partCount d < 2 ^ 29)

/-- The values that a script is called with. The interpreter has cells for far shorter lists only. -/
structure TypedValues where
  data : List EdbusData
  typed : ∀ d ∈ data, everywhere writable d = true
  counted : data.length < 2 ^ 29

def tag : EdbusDataType → String
  | .invalid => ""
  | .byte => ":byte"
  | .bool => ":bool"
  | .int16 => ":int16"
  | .uint16 => ":uint16"
  | .int32 => ":int32"
  | .uint32 => ":uint32"
  | .int64 => ":int64"
  | .uint64 => ":uint64"
  | .double => ":double"
  | .string => ":string"
  | .objectPath => ":object-path"
  | .array => ":array"
  | .struct => ":struct"
  | .dict => ":dict"
  | .variant => ":variant"

/-- In a script the tags stand for themselves. -/
theorem tag_mem_schemeTags {type : EdbusDataType} (h : type ≠ .invalid) : tag type ∈ schemeTags := by
  cases type with
  | invalid => exact absurd rfl h
  | _ => decide

def writeBasic : EdbusBasic → Value
  | .invalid => .nil
  | .byte v => .number v.toNat
  | .bool v => .number v.toInt
  | .int16 v => .number v.toInt
  | .uint16 v => .number v.toNat
  | .int32 v => .number v.toInt
  | .uint32 v => .number v.toNat
  | .int64 v => .number v.toInt
  | .uint64 v => .number v.toNat
  | .double v => .real v
  | .string v => .string v
  | .objectPath v => .string v

mutual
def writeValue : EdbusData → Value
  | .basic v => writeBasic v
  | .array lst => writeParams lst
  | .struct lst => writeParams lst
  | .dict lst => writeEntries lst
  | .variant value => .pair (.symbol (tag value.type)) (.pair (writeValue value) .nil)
  termination_by structural x => x
/-- `:type value :type value …` -/
def writeParams : List EdbusData → Value
  | [] => .nil
  | d :: lst => .pair (.symbol (tag d.type)) (.pair (writeValue d) (writeParams lst))
  termination_by structural x => x
/-- `(:type key :type value) …` -/
def writeEntries : List EdbusDictEntry → Value
  | [] => .nil
  | ⟨key,value⟩ :: lst =>
    .pair (.pair (.symbol (tag key.type)) (.pair (writeValue key)
      (.pair (.symbol (tag value.type)) (.pair (writeValue value) .nil)))) (writeEntries lst)
  termination_by structural x => x
end

/-! ## What stands in the way -/

/-- There is no case for the integers of 64 bits. -/
def basicObstacle : EdbusBasic → Option Obstacle
  | .int64 _ => some .silent
  | .uint64 _ => some .silent
  | .objectPath v => if validPath v then none else some .reported
  | _ => none

/-- The types of the first entry of a dict, which the others have to share. -/
def firstTypes (first : Option (EdbusDataType × EdbusDataType)) (key value : EdbusData) :
    Option (EdbusDataType × EdbusDataType) :=
  first.or (if key.basicType then some (key.type,value.type) else none)

/-- A path that is a key is compared with the keys before it. -/
def clash (first : Option (EdbusDataType × EdbusDataType)) (key value : EdbusData) : Option Obstacle :=
  if key.type = .objectPath ∧ first = some (.objectPath,value.type) then some .fatal else none

mutual
/-- The first obstacle in a value. An empty container is none of the lists that the tags ask for. -/
def obstacle : EdbusData → Option Obstacle
  | .basic v => basicObstacle v
  | .array lst => if lst.isEmpty then some .reported else (obstacleIn lst).map Obstacle.within
  | .struct lst => if lst.isEmpty then some .reported else (obstacleIn lst).map Obstacle.within
  | .dict lst => if lst.isEmpty then some .reported else obstacleInEntries lst none
  | .variant value => (obstacle value).map Obstacle.within
  termination_by structural x => x
/-- In a list of typed values, a value that is written as the empty list fails an assertion. -/
def obstacleIn : List EdbusData → Option Obstacle
  | [] => none
  | d :: lst => (if writeValue d = .nil then some .fatal else obstacle d).or (obstacleIn lst)
  termination_by structural x => x
def obstacleInEntries : List EdbusDictEntry → Option (EdbusDataType × EdbusDataType) → Option Obstacle
  | [], _ => none
  | ⟨key,value⟩ :: lst, first =>
    ((obstacle key).map Obstacle.within).or (((obstacle value).map Obstacle.within).or
      ((clash first key value).or (obstacleInEntries lst (firstTypes first key value))))
  termination_by structural x => x
end

/-! ## What arrives -/

def OneType (lst : List EdbusDictEntry) : Prop :=
  ∀ e1 ∈ lst, ∀ e2 ∈ lst, e1.key.type = e2.key.type ∧ e1.value.type = e2.value.type

instance (lst : List EdbusDictEntry) : Decidable (OneType lst) :=
  inferInstanceAs (Decidable (∀ e1 ∈ lst, ∀ e2 ∈ lst, e1.key.type = e2.key.type ∧ e1.value.type = e2.value.type))

/-- No path, no array of different types, and a dict that takes all its entries. -/
def arrives : EdbusData → Bool
  | .basic v => v.type != .objectPath
  | .array (first :: rest) => rest.all (fun d => d.type == first.type)
  | .dict lst => decide (DistinctKeys lst) && decide (OneType lst)
  | _ => true

/-- The converted value has the type, and it is the value where all parts arrive. -/
def Carries (d d' : EdbusData) : Prop := d'.type = d.type ∧ (d' = d ↔ everywhere arrives d = true)

def CarriesEntry (e e' : EdbusDictEntry) : Prop := Carries e.key e'.key ∧ Carries e.value e'.value

/-! ## Appending -/

theorem foldl_push {append : List EdbusData → EdbusData → List EdbusData} (h : ∀ msg d, append msg d = msg ++ [d])
    (ds acc : List EdbusData) : ds.foldl append acc = acc ++ ds := by
  induction ds generalizing acc with
  | nil => exact (List.append_nil acc).symm
  | cons d ds ih => rw [List.foldl_cons,h,ih,List.append_assoc,List.singleton_append]

theorem listAppend_false (msg : List EdbusData) (d : EdbusData) : listAppend false msg d = msg ++ [d] :=
  listAppend_same (fun h => absurd h Bool.false_ne_true)

/-- An array keeps the elements of its first one's type. -/
theorem foldl_listAppend_true {ds acc : List EdbusData} (d : EdbusData) (hlen : acc.length + ds.length < 2 ^ 32) :
    ds.foldl (listAppend true) (d :: acc) = d :: acc ++ ds.filter (fun d' => d'.type == d.type) := by
  induction ds generalizing acc with
  | nil => exact (List.append_nil _).symm
  | cons d' ds ih =>
    rw [List.length_cons] at hlen
    have hcons : (d :: acc).length < 2 ^ 32 := by
      rw [List.length_cons]
      omega
    rw [List.foldl_cons,listAppend_cons hcons,List.filter_cons]
    by_cases htype : d.type = d'.type
    · have hnext : (acc ++ [d']).length + ds.length < 2 ^ 32 := by
        rw [List.length_append,List.length_singleton]
        omega
      rw [if_neg (not_not_intro htype),if_pos (beq_iff_eq.mpr htype.symm),List.cons_append,ih hnext,← List.cons_append,
        List.append_assoc,List.singleton_append]
    · have hne : ¬ (d'.type == d.type) = true := fun h => htype (beq_iff_eq.mp h).symm
      rw [if_pos htype,if_neg hne,ih (by omega)]

theorem foldl_array_cons {ds : List EdbusData} {d : EdbusData} (hlen : (d :: ds).length < 2 ^ 32) :
    (d :: ds).foldl (listAppend true) [] = d :: ds.filter (fun d' => d'.type == d.type) := by
  rw [List.length_cons] at hlen
  exact foldl_listAppend_true d (by rw [List.length_nil]; omega)

theorem foldl_array_eq_iff {ds : List EdbusData} (hlen : ds.length < 2 ^ 32) :
    ds.foldl (listAppend true) [] = ds ↔ arrives (.array ds) = true := by
  cases ds with
  | nil => exact iff_of_true rfl rfl
  | cons d ds =>
    rw [foldl_array_cons hlen,List.cons_inj_right,List.filter_eq_self,arrives,List.all_eq_true]

theorem foldl_array_of_length {ds : List EdbusData} (hlen : ds.length < 2 ^ 32)
    (h : (ds.foldl (listAppend true) []).length = ds.length) :
    ds.foldl (listAppend true) [] = ds := by
  cases ds with
  | nil => rfl
  | cons d ds =>
    have hfold := foldl_array_cons hlen
    rw [hfold,List.length_cons,List.length_cons,Nat.add_right_cancel_iff] at h
    rw [hfold,List.filter_eq_self.mpr (List.length_filter_eq_length_iff.mp h)]

def dictOf (dict es : List EdbusDictEntry) : Option (List EdbusDictEntry) :=
  es.foldlM (fun dict e => dictAppend dict e.key e.value) dict

theorem OneType.of_types {lst : List EdbusDictEntry} {key value : EdbusData}
    (h : ∀ e ∈ lst, e.key.type = key.type ∧ e.value.type = value.type) : OneType lst :=
  fun e1 he1 e2 he2 => ⟨(h e1 he1).1.trans (h e2 he2).1.symm,(h e1 he1).2.trans (h e2 he2).2.symm⟩

/-- An entry is dropped, or it has the types of the entries before it. -/
theorem dictAppend_types {lst lst' : List EdbusDictEntry} {key value : EdbusData} (hlen : lst.length < 2 ^ 32)
    (h : dictAppend lst key value = some lst') :
    lst' = lst ∨ ∀ first ∈ lst.head?, key.type = first.key.type ∧ value.type = first.value.type := by
  cases lst with
  | nil => exact Or.inr (fun first hfirst => absurd hfirst (Option.not_mem_none first))
  | cons first rest =>
    rcases dictAppend_cases h with rfl | ⟨hkey,-⟩
    · exact Or.inl rfl
    · rw [dictAppend_cons hkey hlen] at h
      split_ifs at h with htypes
      · exact Or.inl (Option.some.inj h).symm
      · rw [not_or,not_not,not_not] at htypes
        refine Or.inr (fun first' hfirst' => ?_)
        rw [← Option.mem_some_iff.mp hfirst']
        exact htypes

theorem OneType.dictAppend {lst lst' : List EdbusDictEntry} {key value : EdbusData} (h : OneType lst)
    (hlen : lst.length < 2 ^ 32) (happend : dictAppend lst key value = some lst') : OneType lst' := by
  rcases dictAppend_types hlen happend with rfl | htypes
  · exact h
  · have hlst : ∀ e ∈ lst, e.key.type = key.type ∧ e.value.type = value.type := by
      intro e he
      cases lst with
      | nil => exact absurd he List.not_mem_nil
      | cons first rest =>
        obtain ⟨hkey,hvalue⟩ := htypes first rfl
        obtain ⟨hk,hv⟩ := h e he first List.mem_cons_self
        exact ⟨hk.trans hkey.symm,hv.trans hvalue.symm⟩
    rcases mem_dictAppend happend with rfl | ⟨-,hmem⟩
    · exact h
    · have hlst' : ∀ e ∈ lst', e.key.type = key.type ∧ e.value.type = value.type := by
        intro e he
        obtain ⟨hk,hv⟩ := hmem e he
        constructor
        · rcases hk with hk | ⟨e₀,he₀,hk⟩
          · rw [hk]
          · rw [hk,(hlst e₀ he₀).1]
        · rcases hv with hv | ⟨e₀,he₀,hv⟩
          · rw [hv]
          · rw [hv,(hlst e₀ he₀).2]
      exact OneType.of_types hlst'

def types (lst : List EdbusDictEntry) : Option (EdbusDataType × EdbusDataType) :=
  lst.head?.map (fun e => (e.key.type,e.value.type))

theorem types_replaceOrPush {key value : EdbusData} {first : EdbusDictEntry} {rest lst' : List EdbusDictEntry}
    (hvalue : value.type = first.value.type) (h : replaceOrPush key value (first :: rest) = some lst') :
    types lst' = types (first :: rest) := by
  obtain ⟨equal,-,h⟩ := Option.bind_eq_some_iff.mp h
  cases equal with
  | true =>
    cases h
    exact congrArg (fun type => some (first.key.type,type)) hvalue
  | false =>
    obtain ⟨rest',-,h⟩ := Option.bind_eq_some_iff.mp h
    cases h
    rfl

/-- Only two paths are not compared. -/
theorem dataEq_basic {key1 key2 : EdbusData} (h1 : key1.basicType = true) (h2 : key2.basicType = true) :
    (dataEq (fun _ => false) key1 key2).isSome = !(key1.type == .objectPath && key2.type == .objectPath) := by
  cases key1 with
  | basic v1 =>
    cases key2 with
    | basic v2 =>
      have hbasic := basicEq_eq v1 v2
      have hdata : dataEq (fun _ => false) (.basic v1) (.basic v2) =
          if v1.type ≠ v2.type then some false else basicEq v1 v2 := by
        rw [dataEq.eq_def,if_neg Bool.false_ne_true]
        rfl
      rw [hdata,hbasic]
      cases v1 <;> cases v2 <;> rfl
    | array => cases h2
    | struct => cases h2
    | dict => cases h2
    | variant => cases h2
  | array => cases h1
  | struct => cases h1
  | dict => cases h1
  | variant => cases h1

theorem replaceOrPush_isSome {key value : EdbusData} {lst : List EdbusDictEntry}
    (h : ∀ e ∈ lst, (dataEq (fun _ => false) e.key key).isSome = true) : ∃ lst', replaceOrPush key value lst = some lst' := by
  induction lst with
  | nil => exact ⟨[⟨key,value⟩],rfl⟩
  | cons e lst ih =>
    obtain ⟨he,hlst⟩ := List.forall_mem_cons.mp h
    obtain ⟨equal,hequal⟩ := Option.isSome_iff_exists.mp he
    obtain ⟨lst',hlst'⟩ := ih hlst
    cases equal with
    | true => exact ⟨⟨e.key,value⟩ :: lst,by simp [replaceOrPush,hequal]⟩
    | false => exact ⟨e :: lst',by simp [replaceOrPush,hequal,hlst']⟩

theorem basicType_of_path {d : EdbusData} (h : d.type = .objectPath) : d.basicType = true := by
  cases d with
  | basic v => rfl
  | _ => cases h

/-- A dict takes, drops or replaces, unless two paths are compared. -/
theorem settles_dictAppend {lst : List EdbusDictEntry} {key value : EdbusData} (hlen : lst.length < 2 ^ 32)
    (hkeys : DistinctKeys lst) :
    Settles (fun lst' => dictAppend lst key value = some lst' ∧ types lst' = firstTypes (types lst) key value)
      (clash (types lst) key value) ((dictAppend lst key value).elim .aborted .value) := by
  cases hkey : key.basicType with
  | false =>
    have hpath : ¬ key.type = .objectPath := fun h => Bool.false_ne_true (hkey.symm.trans (basicType_of_path h))
    have happend : dictAppend lst key value = some lst := by
      rw [dictAppend.eq_def,hkey]
      rfl
    have hfirst : firstTypes (types lst) key value = types lst := by
      rw [firstTypes,hkey,if_neg Bool.false_ne_true,Option.or_none]
    rw [happend,clash,if_neg (fun h => hpath h.1)]
    exact ⟨rfl,hfirst.symm⟩
  | true =>
    cases lst with
    | nil =>
      have happend : dictAppend [] key value = some [⟨key,value⟩] := by
        rw [dictAppend,hkey]
        rfl
      have hfirst : firstTypes (types []) key value = some (key.type,value.type) := by
        rw [firstTypes,hkey]
        rfl
      rw [happend,hfirst,clash,if_neg (fun h => Option.some_ne_none _ h.2.symm)]
      exact ⟨rfl,rfl⟩
    | cons first rest =>
      have hfirst : firstTypes (types (first :: rest)) key value = types (first :: rest) := rfl
      rw [dictAppend_cons hkey hlen,hfirst,clash]
      by_cases hother : key.type ≠ first.key.type ∨ value.type ≠ first.value.type
      · have hclash : ¬ (key.type = .objectPath ∧ types (first :: rest) = some (.objectPath,value.type)) := by
          rintro ⟨hpath,hsame⟩
          obtain ⟨hk,hv⟩ := Prod.mk.inj (Option.some.inj hsame)
          exact hother.elim (fun h => h (hpath.trans hk.symm)) (fun h => h hv.symm)
        rw [if_pos hother,if_neg hclash]
        exact ⟨rfl,rfl⟩
      · rw [if_neg hother]
        rw [not_or,not_not,not_not] at hother
        obtain ⟨hk,hv⟩ := hother
        by_cases hpath : key.type = .objectPath
        · have hnone : dataEq (fun _ => false) first.key key = none := by
            have hbasic := dataEq_basic (hkeys.basic first List.mem_cons_self) hkey
            rw [← hk,hpath] at hbasic
            exact Option.isNone_iff_eq_none.mp (Option.isSome_eq_false_iff.mp hbasic)
          have hclash : key.type = .objectPath ∧ types (first :: rest) = some (.objectPath,value.type) :=
            ⟨hpath,by rw [types,List.head?_cons,Option.map_some,← hk,← hv,hpath]⟩
          have hreplace : replaceOrPush key value (first :: rest) = none := by simp [replaceOrPush,hnone]
          rw [hreplace,if_pos hclash]
          trivial
        · have hsome : ∀ e ∈ first :: rest, (dataEq (fun _ => false) e.key key).isSome = true := by
            intro e he
            rw [dataEq_basic (hkeys.basic e he) hkey,beq_eq_false_iff_ne.mpr hpath,Bool.and_false]
            rfl
          obtain ⟨lst',hlst'⟩ := @replaceOrPush_isSome key value _ hsome
          rw [hlst',if_neg (fun h => hpath h.1)]
          exact ⟨rfl,types_replaceOrPush hv hlst'⟩

/-- An append adds the entry, or no entry. -/
theorem dictAppend_length {lst lst' : List EdbusDictEntry} {key value : EdbusData}
    (h : dictAppend lst key value = some lst') : lst'.length = lst.length ∨ lst' = lst ++ [⟨key,value⟩] := by
  rcases dictAppend_cases h with rfl | ⟨-,hreplace⟩
  · exact Or.inl rfl
  · rcases replaceOrPush_cases hreplace with hkeys | ⟨happend,-⟩
    · have hlength := congrArg List.length hkeys
      rw [List.length_map,List.length_map] at hlength
      exact Or.inl hlength
    · exact Or.inr happend

theorem dictAppend_length_le {lst lst' : List EdbusDictEntry} {key value : EdbusData}
    (h : dictAppend lst key value = some lst') : lst'.length ≤ lst.length + 1 := by
  rcases dictAppend_length h with hlength | rfl
  · omega
  · rw [List.length_append,List.length_singleton]

theorem dictOf_cons {dict es : List EdbusDictEntry} {e : EdbusDictEntry} :
    dictOf dict (e :: es) = (dictAppend dict e.key e.value).bind (fun dict => dictOf dict es) := rfl

/-- The dict that is built is never larger than the entries, and as large only where it took them all. -/
theorem dictOf_length {dict es dict' : List EdbusDictEntry} (h : dictOf dict es = some dict') :
    dict'.length ≤ dict.length + es.length ∧
      (dict'.length = dict.length + es.length → dict' = dict ++ es) := by
  induction es generalizing dict with
  | nil =>
    cases h
    exact ⟨Nat.le_refl _,fun _ => (List.append_nil _).symm⟩
  | cons e es ih =>
    obtain ⟨key,value⟩ := e
    rw [dictOf_cons] at h
    obtain ⟨dict₁,happend,h⟩ := Option.bind_eq_some_iff.mp h
    obtain ⟨hle,heq⟩ := ih h
    rw [List.length_cons]
    rcases dictAppend_length happend with hsame | rfl
    · constructor
      · omega
      · omega
    · rw [List.length_append,List.length_singleton] at hle heq
      constructor
      · omega
      · intro hlength
        rw [heq (by omega),List.append_assoc,List.singleton_append]
        rfl

theorem dictOf_new {dict es : List EdbusDictEntry} (hkeys : DistinctKeys (dict ++ es)) (htypes : OneType (dict ++ es)) :
    dictOf dict es = some (dict ++ es) := by
  induction es generalizing dict with
  | nil => exact congrArg some (List.append_nil dict).symm
  | cons e es ih =>
    obtain ⟨key,value⟩ := e
    have hmem : ⟨key,value⟩ ∈ dict ++ ⟨key,value⟩ :: es := List.mem_append_right dict List.mem_cons_self
    have hnew : ∀ e₀ ∈ dict, dataEq (fun _ => false) e₀.key key = some false :=
      fun e₀ he₀ => (List.pairwise_append.mp hkeys.distinct).2.2 e₀ he₀ _ List.mem_cons_self
    have hsame : ∀ e₀ ∈ dict, key.type = e₀.key.type ∧ value.type = e₀.value.type :=
      fun e₀ he₀ => htypes _ hmem e₀ (List.mem_append_left _ he₀)
    have happend : dictAppend dict key value = some (dict ++ [⟨key,value⟩]) :=
      dictAppend_new (hkeys.basic _ hmem) hnew hsame
    have hmove : dict ++ ⟨key,value⟩ :: es = dict ++ [⟨key,value⟩] ++ es :=
      (List.append_assoc dict [⟨key,value⟩] es).symm
    rw [hmove] at hkeys htypes
    rw [dictOf_cons,EdbusDictEntry.key_mk,EdbusDictEntry.value_mk,happend,hmove]
    exact ih hkeys htypes

theorem dictOf_built {dict es dict' : List EdbusDictEntry} (h : dictOf dict es = some dict')
    (hlen : dict.length + es.length < 2 ^ 32) (hkeys : DistinctKeys dict) (htypes : OneType dict) :
    DistinctKeys dict' ∧ OneType dict' := by
  induction es generalizing dict with
  | nil =>
    cases h
    exact ⟨hkeys,htypes⟩
  | cons e es ih =>
    rw [dictOf_cons] at h
    obtain ⟨dict₁,happend,h⟩ := Option.bind_eq_some_iff.mp h
    have hlength := dictAppend_length_le happend
    rw [List.length_cons] at hlen
    exact ih h (by omega) (hkeys.dictAppend happend) (htypes.dictAppend (by omega) happend)

/-! ## Converted lists -/

theorem forall₂_eq_iff {α : Type*} {R : α → α → Prop} {p : α → Prop} (hR : ∀ a a', R a a' → (a' = a ↔ p a))
    {l l' : List α} (h : List.Forall₂ R l l') : l' = l ↔ ∀ a ∈ l, p a := by
  induction h with
  | nil => simp
  | cons ha _ ih => rw [List.cons.injEq,hR _ _ ha,ih,List.forall_mem_cons]

theorem CarriesEntry.eq_iff {e e' : EdbusDictEntry} (h : CarriesEntry e e') :
    e' = e ↔ everywhere arrives e.key = true ∧ everywhere arrives e.value = true := by
  cases e
  cases e'
  rw [EdbusDictEntry.mk.injEq]
  exact and_congr h.1.2 h.2.2

theorem carries_array {lst ds : List EdbusData} (hlen : lst.length < 2 ^ 32) (h : List.Forall₂ Carries lst ds) :
    Carries (.array lst) (.array (ds.foldl (listAppend true) [])) := by
  have hparts : ds = lst ↔ ∀ d ∈ lst, everywhere arrives d = true := forall₂_eq_iff (fun _ _ hd => hd.2) h
  have hbound : ds.length < 2 ^ 32 := h.length_eq ▸ hlen
  refine ⟨rfl,?_⟩
  rw [EdbusData.array.injEq,everywhere_array]
  constructor
  · intro heq
    have hfold : ds.foldl (listAppend true) [] = ds :=
      foldl_array_of_length hbound ((congrArg List.length heq).trans h.length_eq)
    have hds : ds = lst := hfold.symm.trans heq
    exact ⟨hds ▸ (foldl_array_eq_iff hbound).mp hfold,hparts.mp hds⟩
  · rintro ⟨hlst,hall⟩
    rw [hparts.mpr hall]
    exact (foldl_array_eq_iff hlen).mpr hlst

theorem carries_struct {lst ds : List EdbusData} (h : List.Forall₂ Carries lst ds) :
    Carries (.struct lst) (.struct (ds.foldl (listAppend false) [])) := by
  have hparts : ds = lst ↔ ∀ d ∈ lst, everywhere arrives d = true := forall₂_eq_iff (fun _ _ hd => hd.2) h
  refine ⟨rfl,?_⟩
  rw [EdbusData.struct.injEq,everywhere_struct,foldl_push listAppend_false,List.nil_append,hparts]
  exact (and_iff_right rfl).symm

theorem carries_dict {lst es dict : List EdbusDictEntry} (hlen : lst.length < 2 ^ 32)
    (h : List.Forall₂ CarriesEntry lst es) (hdict : dictOf [] es = some dict) : Carries (.dict lst) (.dict dict) := by
  have hparts : es = lst ↔ ∀ e ∈ lst, everywhere arrives e.key = true ∧ everywhere arrives e.value = true :=
    forall₂_eq_iff (fun _ _ he => he.eq_iff) h
  have hdistinct : DistinctKeys [] := ⟨fun e he => absurd he List.not_mem_nil,List.Pairwise.nil⟩
  have htypes : OneType [] := fun e he => absurd he List.not_mem_nil
  have hbound : ([] : List EdbusDictEntry).length + es.length < 2 ^ 32 := by
    rw [List.length_nil,Nat.zero_add,← h.length_eq]
    exact hlen
  obtain ⟨hkeys',htypes'⟩ := dictOf_built hdict hbound hdistinct htypes
  refine ⟨rfl,?_⟩
  rw [EdbusData.dict.injEq,everywhere_dict,arrives,Bool.and_eq_true,decide_eq_true_iff,decide_eq_true_iff]
  constructor
  · rintro rfl
    have hlength : dict.length = es.length := h.length_eq
    have hes : es = dict := ((dictOf_length hdict).2 (by simpa using hlength)).symm
    exact ⟨⟨hkeys',htypes'⟩,hparts.mp hes⟩
  · rintro ⟨⟨hkeys,htypes⟩,hall⟩
    obtain rfl : es = lst := hparts.mpr hall
    exact Option.some.inj (hdict.symm.trans (dictOf_new hkeys htypes))

theorem carries_variant {value value' : EdbusData} (h : Carries value value') :
    Carries (.variant value) (.variant value') := by
  refine ⟨rfl,?_⟩
  rw [EdbusData.variant.injEq,everywhere_variant,h.2]
  exact (and_iff_right rfl).symm

end Edelib.DBusExplorer
