import Edelib.Edbus.Containers
import Edelib.Edbus.StructuralEquality
import Edelib.Foundation.ClassMap
import Edelib.Foundation.Transition

/-! # A dict as a typed finite map

The map sends a key to the value of the last accepted append for an equal key. A run of
appends, removals and clears keeps the dict's entries in step with it, whatever the keys
are, as long as their comparison is an equivalence and the entries can be counted.
-/
namespace Edelib.Edbus
open Foundation ClassMap

def dictRemove (key : EdbusData) : List EdbusDictEntry → Option (List EdbusDictEntry)
  | [] => some []
  | it :: lst => do
    if ← dataEq (fun _ => false) it.key key then some lst
    else
      let lst ← dictRemove key lst
      some (it :: lst)

/-- `EdbusDict::find`; data without a value stand for a key that is not there. -/
def dictFind (key : EdbusData) : List EdbusDictEntry → Option EdbusData
  | [] => some (.basic .invalid)
  | it :: lst => do
    if ← dataEq (fun _ => false) it.key key then some it.value
    else dictFind key lst

inductive DictAction
  | append (key value : EdbusData)
  | remove (key : EdbusData)
  | clear

namespace DictAction

def step (lst : List EdbusDictEntry) : DictAction → Option (List EdbusDictEntry)
  | append key value => dictAppend lst key value
  | remove key => dictRemove key lst
  | clear => some []

def key? : DictAction → Option EdbusData
  | append key _ => some key
  | remove key => some key
  | clear => none

end DictAction

/-- No state of the run has 2^32 entries. -/
def Counted (acts : List DictAction) : Prop :=
  ∀ before lst, before <+: acts → Transition.exec DictAction.step [] before = some lst → lst.length < 2 ^ 32

/-! ## The map -/

abbrev TypedMap := EdbusData → Option EdbusData

section Spec
variable (keys : Set EdbusData) (equal : EdbusData → EdbusData → Bool)

def TypedMap.Accepts (m : TypedMap) (key value : EdbusData) : Prop :=
  key.basicType = true ∧ ∀ k ∈ keys, ∀ v, m k = some v → key.type = k.type ∧ value.type = v.type

open Classical in
noncomputable def TypedMap.step (m : TypedMap) : DictAction → TypedMap
  | .append key value => if m.Accepts keys key value then fun k => if equal key k then some value else m k else m
  | .remove key => fun k => if equal key k then none else m k
  | .clear => fun _ => none

noncomputable def TypedMap.run (acts : List DictAction) : TypedMap :=
  acts.foldl (TypedMap.step keys equal) (fun _ => none)

/-- `==` is decided by an equivalence on the keys. -/
structure KeyEquality : Prop extends EquivOn keys equal where
  decides : ∀ k₁ ∈ keys, ∀ k₂ ∈ keys, dataEq (fun _ => false) k₁ k₂ = some (equal k₁ k₂)

/-- The dict is the map: distinct basic keys of one type with values of one type, found
under every equal key, as many as there are classes of keys with a value; and what the map
does not accept leaves the dict as it is. -/
structure Represents (lst : List EdbusDictEntry) (m : TypedMap) : Prop where
  keys_mem : ∀ e ∈ lst, e.key ∈ keys
  distinct : lst.Pairwise (fun e₁ e₂ => equal e₁.key e₂.key = false)
  basic : ∀ e ∈ lst, e.key.basicType = true
  keyTypes : ∀ e₁ ∈ lst, ∀ e₂ ∈ lst, e₁.key.type = e₂.key.type
  valueTypes : ∀ e₁ ∈ lst, ∀ e₂ ∈ lst, e₁.value.type = e₂.value.type
  find : ∀ key ∈ keys, dictFind key lst = some ((m key).getD (.basic .invalid))
  size : (dictSize lst).toNat =
    ((fun k => {k' ∈ keys | equal k k' = true}) '' {k ∈ keys | (m k).isSome = true}).ncard
  rejected : ∀ key ∈ keys, ∀ value, ¬ m.Accepts keys key value → dictAppend lst key value = some lst

end Spec

/-! ## The entries as pairs -/

def pairs (lst : List EdbusDictEntry) : List (EdbusData × EdbusData) := lst.map (fun e => (e.key,e.value))

theorem pairs_cons (e : EdbusDictEntry) (lst : List EdbusDictEntry) :
    pairs (e :: lst) = (e.key,e.value) :: pairs lst := rfl

theorem mem_pairs {lst : List EdbusDictEntry} {p : EdbusData × EdbusData} :
    p ∈ pairs lst ↔ ⟨p.1,p.2⟩ ∈ lst := by
  constructor
  · intro h
    obtain ⟨⟨key,value⟩,he,rfl⟩ := List.mem_map.mp h
    exact he
  · exact fun h => List.mem_map.mpr ⟨_,h,rfl⟩

theorem entry_mem_pairs {lst : List EdbusDictEntry} {e : EdbusDictEntry} :
    (e.key,e.value) ∈ pairs lst ↔ e ∈ lst := by
  obtain ⟨key,value⟩ := e
  exact mem_pairs

section Operations
variable {keys : Set EdbusData} {equal : EdbusData → EdbusData → Bool} (h : KeyEquality keys equal)
include h

theorem dictFind_eq {key : EdbusData} (hkey : key ∈ keys) {lst : List EdbusDictEntry}
    (hlst : ∀ e ∈ lst, e.key ∈ keys) :
    dictFind key lst = some ((lookup equal key (pairs lst)).getD (.basic .invalid)) := by
  induction lst with
  | nil => rfl
  | cons e lst ih =>
    obtain ⟨he,hlst⟩ := List.forall_mem_cons.mp hlst
    rw [dictFind,h.decides _ he _ hkey,Option.bind_eq_bind,Option.bind_some,ih hlst,pairs_cons,lookup_cons]
    split_ifs <;> rfl

theorem replaceOrPush_eq {key : EdbusData} (hkey : key ∈ keys) (value : EdbusData) {lst : List EdbusDictEntry}
    (hlst : ∀ e ∈ lst, e.key ∈ keys) :
    ∃ lst', replaceOrPush key value lst = some lst' ∧ pairs lst' = put equal key value (pairs lst) := by
  induction lst with
  | nil => exact ⟨_,rfl,rfl⟩
  | cons e lst ih =>
    obtain ⟨he,hlst⟩ := List.forall_mem_cons.mp hlst
    obtain ⟨lst',hpush,hpairs⟩ := ih hlst
    rw [replaceOrPush,h.decides _ he _ hkey,Option.bind_eq_bind,Option.bind_some,hpush]
    rw [pairs_cons,put]
    split_ifs
    · exact ⟨_,rfl,rfl⟩
    · exact ⟨_,rfl,congrArg _ hpairs⟩

theorem dictRemove_eq {key : EdbusData} (hkey : key ∈ keys) {lst : List EdbusDictEntry}
    (hlst : ∀ e ∈ lst, e.key ∈ keys) :
    ∃ lst', dictRemove key lst = some lst' ∧ pairs lst' = erase equal key (pairs lst) := by
  induction lst with
  | nil => exact ⟨_,rfl,rfl⟩
  | cons e lst ih =>
    obtain ⟨he,hlst⟩ := List.forall_mem_cons.mp hlst
    obtain ⟨lst',hremove,hpairs⟩ := ih hlst
    rw [dictRemove,h.decides _ he _ hkey,Option.bind_eq_bind,Option.bind_some,hremove]
    rw [pairs_cons,erase_cons]
    split_ifs
    · exact ⟨_,rfl,rfl⟩
    · exact ⟨_,rfl,congrArg _ hpairs⟩

end Operations

theorem type_eq_of_dataEq {d₁ d₂ : EdbusData} (h : dataEq (fun _ => false) d₁ d₂ = some true) :
    d₁.type = d₂.type := by
  rw [dataEq.eq_def,if_neg Bool.false_ne_true] at h
  by_contra hne
  rw [if_pos hne] at h
  cases h

/-! ## Runs -/

/-- What a run keeps: the pairs are the map, and their types agree. -/
structure InStep (keys : Set EdbusData) (equal : EdbusData → EdbusData → Bool) (lst : List EdbusDictEntry)
    (m : TypedMap) : Prop where
  keys_mem : ∀ e ∈ lst, e.key ∈ keys
  distinct : Distinct equal (pairs lst)
  basic : ∀ e ∈ lst, e.key.basicType = true
  types : ∀ e₁ ∈ lst, ∀ e₂ ∈ lst, e₁.key.type = e₂.key.type ∧ e₁.value.type = e₂.value.type
  lookup_eq : ∀ key ∈ keys, lookup equal key (pairs lst) = m key

section Runs
variable {keys : Set EdbusData} {equal : EdbusData → EdbusData → Bool}

theorem InStep.pairs_mem {lst : List EdbusDictEntry} {m : TypedMap} (hm : InStep keys equal lst m) :
    ∀ p ∈ pairs lst, p.1 ∈ keys := fun p hp => hm.keys_mem ⟨p.1,p.2⟩ (mem_pairs.mp hp)

variable (h : KeyEquality keys equal)
include h

theorem InStep.accepts_iff {lst : List EdbusDictEntry} {m : TypedMap} (hm : InStep keys equal lst m)
    (key value : EdbusData) : m.Accepts keys key value ↔
      key.basicType = true ∧ ∀ e ∈ lst, key.type = e.key.type ∧ value.type = e.value.type := by
  refine and_congr_right (fun _ => ⟨fun hall e he => ?_,fun hall k hk v hv => ?_⟩)
  · have hkey := hm.keys_mem e he
    refine hall e.key hkey e.value ?_
    rw [← hm.lookup_eq e.key hkey]
    exact lookup_of_mem h.toEquivOn (hm.pairs_mem) hm.distinct (entry_mem_pairs.mpr he) hkey (h.refl _ hkey)
  · rw [← hm.lookup_eq k hk] at hv
    obtain ⟨p,hp,rfl⟩ := Option.map_eq_some_iff.mp hv
    have hmem := mem_pairs.mp (List.mem_of_find?_eq_some hp)
    have hequal : equal p.1 k = true := by simpa using List.find?_some hp
    have htype : p.1.type = k.type :=
      type_eq_of_dataEq (hequal ▸ h.decides p.1 (hm.keys_mem _ hmem) k hk)
    have hstored := hall _ hmem
    exact ⟨hstored.1.trans htype,hstored.2⟩

theorem InStep.dictAppend_eq {lst : List EdbusDictEntry} {m : TypedMap} (hm : InStep keys equal lst m)
    (hlen : lst.length < 2 ^ 32) (key value : EdbusData) : dictAppend lst key value =
      open Classical in if m.Accepts keys key value then replaceOrPush key value lst else some lst := by
  classical
  rw [hm.accepts_iff h]
  unfold dictAppend
  cases hbasic : key.basicType with
  | false => simp
  | true =>
    cases lst with
    | nil => simp
    | cons first lst =>
      have hfirst : (∀ e ∈ first :: lst, key.type = e.key.type ∧ value.type = e.value.type) ↔
          key.type = first.key.type ∧ value.type = first.value.type := by
        refine ⟨fun hall => hall first List.mem_cons_self,fun htypes e he => ?_⟩
        obtain ⟨hkey,hvalue⟩ := hm.types first List.mem_cons_self e he
        exact ⟨htypes.1.trans hkey,htypes.2.trans hvalue⟩
      have hsize := dictSize_ne_zero (List.cons_ne_nil first lst) hlen
      simp only [hfirst,Bool.not_true,Bool.false_eq_true,↓reduceIte,true_and,hsize,ne_eq,not_false_eq_true]
      by_cases htypes : key.type = first.key.type ∧ value.type = first.value.type
      · rw [if_pos htypes,if_neg (by rintro (hk | hv); exact hk htypes.1; exact hv htypes.2)]
      · rw [if_neg htypes,if_pos (not_and_or.mp htypes)]

theorem InStep.put {lst lst' : List EdbusDictEntry} {m : TypedMap} (hm : InStep keys equal lst m)
    {key value : EdbusData} (hkey : key ∈ keys) (haccepts : m.Accepts keys key value)
    (hpairs : pairs lst' = ClassMap.put equal key value (pairs lst)) :
    InStep keys equal lst' (fun k => if equal key k then some value else m k) := by
  obtain ⟨hbasic,htypes⟩ := (hm.accepts_iff h key value).mp haccepts
  have hentry : ∀ e ∈ lst', e.value = value ∧ (e.key = key ∨ ∃ q ∈ lst, e.key = q.key) ∨ e ∈ lst := by
    intro e he
    have hmem := entry_mem_pairs.mpr he
    rw [hpairs] at hmem
    refine (mem_put hmem).imp (And.imp_right (Or.imp id ?_)) entry_mem_pairs.mp
    rintro ⟨q,hq,heq⟩
    exact ⟨_,mem_pairs.mp hq,heq⟩
  -- every entry of the new list has the types of the appended pair
  have hnew : ∀ e ∈ lst', e.key.type = key.type ∧ e.value.type = value.type := by
    intro e he
    rcases hentry e he with ⟨hv,hk | ⟨q,hq,hk⟩⟩ | hold
    · rw [hv,hk]
      exact ⟨rfl,rfl⟩
    · rw [hv,hk]
      exact ⟨(htypes q hq).1.symm,rfl⟩
    · exact ⟨(htypes e hold).1.symm,(htypes e hold).2.symm⟩
  refine ⟨fun e he => ?_,?_,fun e he => ?_,fun e₁ he₁ e₂ he₂ => ?_,fun k hk => ?_⟩
  · rcases hentry e he with ⟨-,hk | ⟨q,hq,hk⟩⟩ | hold
    · exact hk ▸ hkey
    · exact hk ▸ hm.keys_mem q hq
    · exact hm.keys_mem e hold
  · rw [hpairs]
    exact distinct_put key value hm.distinct
  · rcases hentry e he with ⟨-,hk | ⟨q,hq,hk⟩⟩ | hold
    · exact hk ▸ hbasic
    · exact hk ▸ hm.basic q hq
    · exact hm.basic e hold
  · exact ⟨(hnew e₁ he₁).1.trans (hnew e₂ he₂).1.symm,(hnew e₁ he₁).2.trans (hnew e₂ he₂).2.symm⟩
  · rw [hpairs,lookup_put h.toEquivOn hkey value (hm.pairs_mem) hk,hm.lookup_eq k hk]

theorem InStep.erase {lst lst' : List EdbusDictEntry} {m : TypedMap} (hm : InStep keys equal lst m)
    {key : EdbusData} (hkey : key ∈ keys) (hpairs : pairs lst' = ClassMap.erase equal key (pairs lst)) :
    InStep keys equal lst' (fun k => if equal key k then none else m k) := by
  have hmem : ∀ e ∈ lst', e ∈ lst := by
    intro e he
    have hp := entry_mem_pairs.mpr he
    rw [hpairs] at hp
    exact entry_mem_pairs.mp (List.mem_of_mem_eraseP hp)
  refine ⟨fun e he => hm.keys_mem e (hmem e he),?_,fun e he => hm.basic e (hmem e he),
    fun e₁ he₁ e₂ he₂ => hm.types e₁ (hmem e₁ he₁) e₂ (hmem e₂ he₂),fun k hk => ?_⟩
  · rw [hpairs]
    exact distinct_erase key hm.distinct
  · rw [hpairs,lookup_erase h.toEquivOn hkey (hm.pairs_mem) hm.distinct hk,hm.lookup_eq k hk]

/-- Each call does to the dict what it does to the map. -/
theorem InStep.step {lst : List EdbusDictEntry} {m : TypedMap} (hm : InStep keys equal lst m)
    (hlen : lst.length < 2 ^ 32) {a : DictAction} (ha : ∀ key ∈ a.key?, key ∈ keys) :
    ∃ lst', a.step lst = some lst' ∧ InStep keys equal lst' (m.step keys equal a) := by
  cases a with
  | append key value =>
    have hkey := ha key rfl
    have happend := hm.dictAppend_eq h hlen key value
    by_cases haccepts : m.Accepts keys key value
    · rw [if_pos haccepts] at happend
      obtain ⟨lst',hpush,hpairs⟩ := replaceOrPush_eq h hkey value hm.keys_mem
      refine ⟨lst',happend.trans hpush,?_⟩
      rw [TypedMap.step,if_pos haccepts]
      exact hm.put h hkey haccepts hpairs
    · rw [if_neg haccepts] at happend
      refine ⟨lst,happend,?_⟩
      rw [TypedMap.step,if_neg haccepts]
      exact hm
  | remove key =>
    obtain ⟨lst',hremove,hpairs⟩ := dictRemove_eq h (ha key rfl) hm.keys_mem
    exact ⟨lst',hremove,hm.erase h (ha key rfl) hpairs⟩
  | clear => exact ⟨[],rfl,nofun,List.Pairwise.nil,nofun,nofun,fun _ _ => rfl⟩

theorem InStep.represents {lst : List EdbusDictEntry} {m : TypedMap} (hm : InStep keys equal lst m)
    (hlen : lst.length < 2 ^ 32) : Represents keys equal lst m where
  keys_mem := hm.keys_mem
  distinct := List.pairwise_map.mp hm.distinct
  basic := hm.basic
  keyTypes := fun e₁ he₁ e₂ he₂ => (hm.types e₁ he₁ e₂ he₂).1
  valueTypes := fun e₁ he₁ e₂ he₂ => (hm.types e₁ he₁ e₂ he₂).2
  find := fun key hkey => by rw [dictFind_eq h hkey hm.keys_mem,hm.lookup_eq key hkey]
  size := by
    have hlength := length_eq_ncard h.toEquivOn (hm.pairs_mem) hm.distinct
    rw [pairs,List.length_map] at hlength
    rw [dictSize,BitVec.toNat_ofNat,Nat.mod_eq_of_lt hlen,hlength]
    congr 2
    ext k
    exact and_congr_right (fun hk => by rw [← hm.lookup_eq k hk]; rfl)
  rejected := fun key _ value hnot => by rw [hm.dictAppend_eq h hlen key value,if_neg hnot]

end Runs

/-! ## The keys that are compared by value -/

/-- Basic data, without NaN and object paths. -/
def plainKeys : Set EdbusData :=
  {key | ∃ v, key = .basic v ∧ noNaN (.basic v) = true ∧ ∀ path, v ≠ .objectPath path}

theorem keyEquality_plainKeys : KeyEquality plainKeys sameContent where
  refl := by
    rintro _ ⟨v,rfl,hv,-⟩
    exact sameBasic_refl hv
  symm := fun _ _ _ _ => sameContent_symm
  trans := fun _ _ _ _ _ _ => sameContent_trans
  decides := by
    rintro _ ⟨v₁,rfl,-,hv₁⟩ _ ⟨v₂,rfl,-,hv₂⟩
    have hpair : pathPair v₁ v₂ = false := by
      cases v₁ with
      | objectPath path => exact absurd rfl (hv₁ path)
      | _ => rfl
    have hbasic := basicEq_eq v₁ v₂
    rw [hpair,if_neg Bool.false_ne_true] at hbasic
    rw [dataEq.eq_def,if_neg Bool.false_ne_true]
    exact hbasic

theorem length_dictRemove {key : EdbusData} {lst lst' : List EdbusDictEntry} (h : dictRemove key lst = some lst') :
    lst'.length ≤ lst.length := by
  induction lst generalizing lst' with
  | nil =>
    cases h
    exact le_rfl
  | cons it lst ih =>
    obtain ⟨equal,-,h⟩ := Option.bind_eq_some_iff.mp h
    cases equal with
    | true =>
      cases h
      exact Nat.le_succ _
    | false =>
      obtain ⟨rest,hrest,h⟩ := Option.bind_eq_some_iff.mp h
      cases h
      exact Nat.succ_le_succ (ih hrest)

/-- A call adds an entry at most. -/
theorem length_step {a : DictAction} {lst lst' : List EdbusDictEntry} (h : a.step lst = some lst') :
    lst'.length ≤ lst.length + 1 := by
  cases a with
  | append key value =>
    rcases dictAppend_cases h with rfl | ⟨-,hreplace⟩
    · exact Nat.le_succ _
    · rcases replaceOrPush_cases hreplace with hkeys | ⟨rfl,-⟩
      · have hlength := congrArg List.length hkeys
        rw [List.length_map,List.length_map] at hlength
        omega
      · exact le_of_eq List.length_append
  | remove key => exact (length_dictRemove h).trans (Nat.le_succ _)
  | clear =>
    cases h
    exact Nat.zero_le _

theorem counted_of_length {acts : List DictAction} (h : acts.length < 2 ^ 32) : Counted acts := by
  intro before lst hbefore hexec
  suffices hle : lst.length ≤ before.length from (hle.trans hbefore.length_le).trans_lt h
  clear hbefore
  induction before using List.reverseRecOn generalizing lst with
  | nil =>
    cases hexec
    exact le_rfl
  | append_singleton before a ih =>
    rw [Transition.exec_snoc] at hexec
    obtain ⟨lst₀,hexec,hstep⟩ := Option.bind_eq_some_iff.mp hexec
    have hlast := length_step hstep
    have hlst := ih lst₀ hexec
    rw [List.length_append,List.length_singleton]
    omega

def numbered (n : ℕ) : List EdbusDictEntry :=
  (List.range n).map (fun i => ⟨.basic (.int64 (BitVec.ofNat 64 i)),.basic (.byte 0)⟩)

def appendNumbered (n : ℕ) : List DictAction := (numbered n).map (fun e => .append e.key e.value)

theorem int64_mem_plainKeys (v : BitVec 64) : EdbusData.basic (.int64 v) ∈ plainKeys := ⟨_,rfl,rfl,nofun⟩

theorem exec_numbered {n : ℕ} (h : n ≤ 2 ^ 64) :
    Transition.exec DictAction.step [] (appendNumbered n) = some (numbered n) := by
  induction n with
  | zero => rfl
  | succ n ih =>
    have hsnoc : numbered (n + 1) = numbered n ++ [⟨.basic (.int64 (BitVec.ofNat 64 n)),.basic (.byte 0)⟩] := by
      rw [numbered,List.range_succ,List.map_append]
      rfl
    rw [appendNumbered,hsnoc,List.map_append,List.map_singleton,Transition.exec_snoc,← appendNumbered,
      ih (Nat.le_of_succ_le h),Option.bind_some]
    refine dictAppend_new rfl (fun e he => ?_) (fun e he => ?_)
    · obtain ⟨i,hi,rfl⟩ := List.mem_map.mp he
      have hne : BitVec.ofNat 64 i ≠ BitVec.ofNat 64 n := by
        intro heq
        have hlt := List.mem_range.mp hi
        have hnat := congrArg BitVec.toNat heq
        rw [BitVec.toNat_ofNat,BitVec.toNat_ofNat,Nat.mod_eq_of_lt (by omega),Nat.mod_eq_of_lt (by omega)] at hnat
        omega
      have hequal := keyEquality_plainKeys.decides _ (int64_mem_plainKeys (BitVec.ofNat 64 i)) _
        (int64_mem_plainKeys (BitVec.ofNat 64 n))
      exact hequal.trans (congrArg some (by simpa [sameContent,sameBasic] using hne))
    · obtain ⟨i,-,rfl⟩ := List.mem_map.mp he
      exact ⟨rfl,rfl⟩

/-- Where the entries are as many as cannot be counted, no types are compared. -/
theorem dictAppend_uncounted {lst : List EdbusDictEntry} {key : EdbusData} (hsize : dictSize lst = 0)
    (hkey : key.basicType = true) (value : EdbusData) : dictAppend lst key value = replaceOrPush key value lst := by
  have hbasic : ¬ (!key.basicType) = true := by
    rw [hkey]
    exact Bool.false_ne_true
  rw [dictAppend.eq_def,if_neg hbasic]
  cases lst with
  | nil => rfl
  | cons first lst => exact if_neg (fun h => h.1 hsize)

end Edelib.Edbus
