import Edelib.Base.ListRefines
import Edelib.Edbus.EdbusList
import Edelib.Foundation.Uses

/-! # D-Bus lists are sequences

What is changed is a list with one handle. The loops keep to a part of the sequence that is done and
a part that is not; a reference to an element is followed through both. The handles are counted, and
one may be in hand: taken from a variable, or not yet given to one.
-/
namespace Edelib.Edbus
open Base Base.ListState Foundation

namespace Lists
variable {D : Type}

noncomputable def handles (s : Lists D) (c : ℕ) : ℕ := uses s.vars (fun var => var.1 = c)

/-- Every list is a sequence, and is counted by its handles, those in hand included. -/
structure Stores (s : Lists D) (ys : ℕ → List D) (inHand : List ℕ) : Prop where
  finite : Finitely s.vars
  fresh : ∀ c, s.impls c ≠ none → c < s.fresh
  holds : ∀ c impl, s.impls c = some impl → impl.lst.Holds (ys c)
  counted : ∀ c impl, s.impls c = some impl → impl.ref = BitVec.ofNat 32 (s.handles c + inHand.count c) ∧
    s.handles c + inHand.count c < 4294967296
  used : ∀ x var, s.vars x = some var → s.impls var.1 ≠ none
  held : ∀ c, c ∈ inHand → s.impls c ≠ none

def seqs (s : Lists D) (ys : ℕ → List D) : ListSequences D := fun x => (s.vars x).map (fun var => (var.2,ys var.1))

variable {s s' : Lists D} {ys : ℕ → List D} {x c : ℕ} {arrayMode : Bool} {lst : ListState D} {zs : List D}
  {impl : ListImpl D} {inHand : List ℕ}

theorem stores_empty : Stores (empty : Lists D) (fun _ => []) [] where
  finite := finitely_empty
  fresh := fun _ h => absurd rfl h
  holds := fun _ _ h => by cases h
  counted := fun _ _ h => by cases h
  used := fun _ _ h => by cases h
  held := fun _ h => absurd h List.not_mem_nil

/-! ## Changes of the state -/

@[simp] theorem setVar_vars_self (s : Lists D) (x : ℕ) (var : Option (ℕ × Bool)) : (s.setVar x var).vars x = var := by
  simp [setVar]

@[simp] theorem setVar_vars_of_ne {z : ℕ} (hz : z ≠ x) (s : Lists D) (var : Option (ℕ × Bool)) :
    (s.setVar x var).vars z = s.vars z := by simp [setVar,hz]

@[simp] theorem put_impls_self (s : Lists D) (c : ℕ) (impl : Option (ListImpl D)) : (s.put c impl).impls c = impl := by
  simp [put]

@[simp] theorem put_impls_of_ne {d : ℕ} (hd : d ≠ c) (s : Lists D) (impl : Option (ListImpl D)) :
    (s.put c impl).impls d = s.impls d := by simp [put,hd]

theorem list_eq {impl : ListImpl D} (h : s.impls c = some impl) : s.list c = some impl.lst := by
  rw [list,h]
  rfl

theorem list_setList (h : s.list c = some lst) (lst' : ListState D) : (s.setList c lst').list c = some lst' := by
  obtain ⟨impl,himpl,-⟩ := Option.map_eq_some_iff.mp h
  rw [list,setList,put,himpl]
  exact congrArg _ (Function.update_self c _ s.impls)

theorem setList_setList (s : Lists D) (c : ℕ) (lst lst' : ListState D) :
    (s.setList c lst).setList c lst' = s.setList c lst' := by
  cases h : s.impls c with
  | none => simp [setList,put,h]
  | some impl => simp [setList,put,h]

theorem setList_self (h : s.list c = some lst) : s.setList c lst = s := by
  obtain ⟨impl,himpl,rfl⟩ := Option.map_eq_some_iff.mp h
  rw [setList,put,himpl]
  exact congrArg (fun impls => { s with impls }) (Function.update_eq_self_iff.mpr himpl.symm)

/-! ## Loops -/

theorem copyFrom_spec (hlst : lst.Holds zs) {fuel i : ℕ} (hi : i ≤ zs.length) (hfuel : zs.length - i < fuel)
    {new : ListState D} {ws : List D} (hnew : new.Holds ws) :
    ∃ new', copyFrom lst fuel (lst.iter i) new = some new' ∧ new'.Holds (ws ++ zs.drop i) := by
  induction fuel generalizing i new ws with
  | zero => omega
  | succ fuel ih =>
    rcases Nat.eq_or_lt_of_le hi with rfl | hlt
    · rw [copyFrom,if_pos hlst.iter_end,List.drop_length,List.append_nil]
      exact ⟨new,rfl,hnew⟩
    · obtain ⟨hne,-⟩ := hlst.iter_lt hlt
      obtain ⟨new₁,ret,hpush,hnew₁⟩ := hnew.pushBack zs[i]
      obtain ⟨new',hcopy,hnew'⟩ := ih hlt (by omega) hnew₁
      refine ⟨new',?_,?_⟩
      · rw [copyFrom,if_neg hne,hlst.deref_iter hlt,List.getElem?_eq_getElem hlt,Option.bind_eq_bind,Option.bind_some,
          hpush,Option.bind_eq_bind,Option.bind_some,← iter_succ]
        exact hcopy
      · rwa [List.append_assoc,List.singleton_append,List.getElem_cons_drop] at hnew'

section loops
variable {equal : D → D → Bool} {v : D} {val : DataRef D}

theorem list_setList_of_ne {d : ℕ} (hd : d ≠ c) (s : Lists D) (lst : ListState D) : (s.setList c lst).list d = s.list d :=
  congrArg _ (put_impls_of_ne hd s _)

def Elsewhere (c : ℕ) (val : DataRef D) : Prop := ∀ it, val.isNode c it = false

theorem Elsewhere.read_setList (h : Elsewhere c val) (lst : ListState D) : (s.setList c lst).read val = s.read val := by
  cases val with
  | value _ => rfl
  | node c' n =>
    have hne : c' ≠ c := by
      rintro rfl
      have hnode := h (some n)
      simp [DataRef.isNode] at hnode
    rw [read,read,list_setList_of_ne hne]

theorem read_of_isNode {it : Option ℕ} (hlist : s.list c = some lst) (h : val.isNode c it = true) :
    s.read val = lst.deref it := by
  cases val with
  | value _ => cases h
  | node c' n =>
    simp only [DataRef.isNode,Bool.and_eq_true,beq_iff_eq] at h
    obtain ⟨rfl,rfl⟩ := h
    rw [read,hlist,Option.bind_some]

/-- What is found by its place is equal by its value, where data is equal to itself. -/
theorem equalTo_eq {it : Option ℕ} {elem : D} (h : val.isNode c it = true → equal elem v = true) :
    equalTo equal c it elem val v = equal elem v := by
  cases hnode : val.isNode c it with
  | false => rw [equalTo,hnode,Bool.false_or]
  | true => rw [equalTo,hnode,Bool.true_or,h hnode]

theorem getElem_of_isNode (hlist : s.list c = some lst) (hlst : lst.Holds zs) (hread : s.read val = some v)
    {i : ℕ} (hi : i < zs.length) (h : val.isNode c (lst.iter i) = true) : zs[i] = v := by
  have hval := (read_of_isNode hlist h).symm.trans hread
  rw [hlst.deref_iter hi,List.getElem?_eq_getElem hi] at hval
  exact Option.some.inj hval

/-- The elements before the iterator stay, and of the others the first equal one goes. -/
theorem removeLoop_spec (hlist : s.list c = some lst) (hlst : lst.Holds zs) (hread : s.read val = some v)
    {fuel i : ℕ} (hi : i ≤ zs.length) (hfuel : zs.length - i < fuel)
    (hself : ∀ k, i ≤ k → k < zs.length → val.isNode c (lst.iter k) = true →
      equal v v = true ∨ ∃ j < k, i ≤ j ∧ ∃ elem ∈ zs[j]?, equal elem v = true) :
    ∃ lst', removeLoop equal c val lst.endIt fuel s (lst.iter i) = some (s.setList c lst') ∧
      lst'.Holds (zs.take i ++ (zs.drop i).eraseP (equal · v)) := by
  induction fuel generalizing i with
  | zero => omega
  | succ fuel ih =>
    rcases Nat.eq_or_lt_of_le hi with rfl | hlt
    · rw [removeLoop,if_pos hlst.iter_end,List.drop_length,List.eraseP_nil,List.append_nil,List.take_length]
      exact ⟨lst,by rw [setList_self hlist],hlst⟩
    · obtain ⟨hne,-⟩ := hlst.iter_lt hlt
      have hequal : equalTo equal c (lst.iter i) zs[i] val v = equal zs[i] v := by
        refine equalTo_eq (fun hnode => ?_)
        rw [getElem_of_isNode hlist hlst hread hlt hnode]
        rcases hself i (Nat.le_refl i) hlt hnode with h | ⟨j,hji,hij,-⟩
        · exact h
        · omega
      have hstep : removeLoop equal c val lst.endIt (fuel + 1) s (lst.iter i) =
          if equal zs[i] v then (lst.erase (lst.iter i)).bind (fun r => some (s.setList c r.1))
          else removeLoop equal c val lst.endIt fuel s (lst.succIt (lst.iter i)) := by
        rw [removeLoop,if_neg hne,hlist,Option.bind_eq_bind,Option.bind_some,hlst.deref_iter hlt,
          List.getElem?_eq_getElem hlt,Option.bind_eq_bind,Option.bind_some,hread,Option.bind_eq_bind,Option.bind_some,
          hequal]
      rw [hstep,← List.getElem_cons_drop hlt]
      by_cases heq : equal zs[i] v = true
      · obtain ⟨lst',ret,herase,hlst',-⟩ := hlst.erase hlt
        have hfound : (zs[i] :: zs.drop (i + 1)).eraseP (equal · v) = zs.drop (i + 1) := List.eraseP_cons_of_pos heq
        rw [if_pos heq,herase,hfound]
        refine ⟨lst',rfl,?_⟩
        rwa [← List.eraseIdx_eq_take_drop_succ]
      · have hself' : ∀ k, i + 1 ≤ k → k < zs.length → val.isNode c (lst.iter k) = true →
            equal v v = true ∨ ∃ j < k, i + 1 ≤ j ∧ ∃ elem ∈ zs[j]?, equal elem v = true := by
          intro k hk hkl hnode
          refine (hself k (Nat.le_of_succ_le hk) hkl hnode).imp_right ?_
          rintro ⟨j,hjk,hij,elem,hget,helem⟩
          refine ⟨j,hjk,Nat.lt_of_le_of_ne hij ?_,elem,hget,helem⟩
          rintro rfl
          rw [List.getElem?_eq_getElem hlt] at hget
          exact heq (Option.some.inj hget ▸ helem)
        obtain ⟨lst',hloop,hlst'⟩ := ih hlt (by omega) hself'
        have hother : (zs[i] :: zs.drop (i + 1)).eraseP (equal · v) = zs[i] :: (zs.drop (i + 1)).eraseP (equal · v) :=
          List.eraseP_cons_of_neg heq
        rw [if_neg heq,← iter_succ,hother]
        refine ⟨lst',hloop,?_⟩
        rwa [List.take_add_one,List.getElem?_eq_getElem hlt,Option.toList_some,List.append_assoc,
          List.singleton_append] at hlst'

/-- How an argument is read while its list is changed: it is elsewhere, or it is the last element. -/
def Followed (equal : D → D → Bool) (c : ℕ) (lst : ListState D) (zs : List D) (v : D) (val : DataRef D) : Prop :=
  Elsewhere c val ∨
    ∃ n k, val = .node c n ∧ lst.iter k = some n ∧ zs[k]? = some v ∧ k + 1 = zs.length ∧ equal v v = true

theorem Followed.equalTo (h : Followed equal c lst zs v val) (hlist : s.list c = some lst) (hlst : lst.Holds zs)
    (hread : s.read val = some v) {i : ℕ} (hi : i < zs.length) :
    equalTo equal c (lst.iter i) zs[i] val v = equal zs[i] v := by
  refine equalTo_eq (fun hnode => ?_)
  rw [getElem_of_isNode hlist hlst hread hi hnode]
  rcases h with h | ⟨n,k,-,-,-,-,hself⟩
  · rw [h] at hnode
    cases hnode
  · exact hself

/-- Where an element is erased and there are more behind it, the argument is still followed. -/
theorem Followed.erase (h : Followed equal c lst zs v val) (hlist : s.list c = some lst) (hlst : lst.Holds zs)
    (hread : s.read val = some v) {i : ℕ} (hi : i + 1 < zs.length)
    {lst' : ListState D} {ret : Option ℕ} (herase : lst.erase (lst.iter i) = some (lst',ret))
    (hlst' : lst'.Holds (zs.eraseIdx i)) :
    Followed equal c lst' (zs.eraseIdx i) v val ∧ (s.setList c lst').read val = some v := by
  rcases h with h | ⟨n,k,rfl,hn,hk,hlast,hself⟩
  · exact ⟨Or.inl h,(h.read_setList lst').trans hread⟩
  · have hlen : (zs.eraseIdx i).length = zs.length - 1 := List.length_eraseIdx_of_lt (by omega)
    have hiter : lst'.iter (k - 1) = some n := by
      have hmoved := (hlst.iter_erase (by omega) herase).2 k (by omega) (by omega)
      rwa [if_neg (by omega),hn] at hmoved
    have hget : (zs.eraseIdx i)[k - 1]? = some v := by
      rwa [List.getElem?_eraseIdx,if_neg (by omega),Nat.sub_add_cancel (by omega)]
    refine ⟨Or.inr ⟨n,k - 1,rfl,hiter,hget,by omega,hself⟩,?_⟩
    rw [read,list_setList hlist,Option.bind_some,← hiter,hlst'.deref_iter (by omega),hget]

/-- The elements before the iterator stay, and all others that are equal go. -/
theorem removeAllLoop_spec {itEnd : Option ℕ} (hend : lst.endIt = itEnd) (hlist : s.list c = some lst)
    (hlst : lst.Holds zs) {fuel i : ℕ} (hi : i ≤ zs.length) (hfuel : zs.length - i < fuel)
    (hval : i < zs.length → Followed equal c lst zs v val ∧ s.read val = some v) :
    ∃ lst', removeAllLoop equal c val itEnd fuel s (lst.iter i) = some (s.setList c lst') ∧
      lst'.Holds (zs.take i ++ (zs.drop i).filter (fun elem => !equal elem v)) := by
  induction fuel generalizing s lst zs i with
  | zero => omega
  | succ fuel ih =>
    rcases Nat.eq_or_lt_of_le hi with rfl | hlt
    · rw [removeAllLoop,if_pos (hlst.iter_end.trans hend),List.drop_length,List.filter_nil,List.append_nil,
        List.take_length]
      exact ⟨lst,by rw [setList_self hlist],hlst⟩
    · obtain ⟨hne,-⟩ := hlst.iter_lt hlt
      obtain ⟨hfollowed,hread⟩ := hval hlt
      have hstep : removeAllLoop equal c val itEnd (fuel + 1) s (lst.iter i) =
          if equal zs[i] v then (lst.erase (lst.iter i)).bind
            (fun r => removeAllLoop equal c val itEnd fuel (s.setList c r.1) r.2)
          else removeAllLoop equal c val itEnd fuel s (lst.succIt (lst.iter i)) := by
        rw [removeAllLoop,if_neg (hend ▸ hne),hlist,Option.bind_eq_bind,Option.bind_some,hlst.deref_iter hlt,
          List.getElem?_eq_getElem hlt,Option.bind_eq_bind,Option.bind_some,hread,Option.bind_eq_bind,Option.bind_some,
          hfollowed.equalTo hlist hlst hread hlt]
      rw [hstep,← List.getElem_cons_drop hlt]
      by_cases heq : equal zs[i] v = true
      · obtain ⟨lst₁,ret,herase,hlst₁,hret⟩ := hlst.erase hlt
        have hlen : (zs.eraseIdx i).length = zs.length - 1 := List.length_eraseIdx_of_lt hlt
        have htake : (zs.eraseIdx i).take i = zs.take i := by
          rw [List.eraseIdx_eq_take_drop_succ,List.take_left' (by rw [List.length_take]; omega)]
        have hdrop : (zs.eraseIdx i).drop i = zs.drop (i + 1) := by
          rw [List.eraseIdx_eq_take_drop_succ,List.drop_left' (by rw [List.length_take]; omega)]
        obtain ⟨lst',hloop,hlst'⟩ := @ih (s.setList c lst₁) lst₁ (zs.eraseIdx i)
          ((hlst.iter_erase hlt herase).1.trans hend) (list_setList hlist lst₁) hlst₁ i (by omega) (by omega)
          (fun hmore => hfollowed.erase hlist hlst hread (by omega) herase hlst₁)
        rw [htake,hdrop] at hlst'
        rw [setList_setList] at hloop
        rw [if_pos heq,herase,Option.bind_some,hret,List.filter_cons_of_neg (by rw [heq]; decide)]
        exact ⟨lst',hloop,hlst'⟩
      · obtain ⟨lst',hloop,hlst'⟩ := ih hend hlist hlst hlt (by omega) (fun _ => hval hlt)
        rw [if_neg heq,← iter_succ,List.filter_cons_of_pos (by simpa using heq)]
        refine ⟨lst',hloop,?_⟩
        rwa [List.take_add_one,List.getElem?_eq_getElem hlt,Option.toList_some,List.append_assoc,
          List.singleton_append] at hlst'

/-- An element that is erased with more behind it is read again. -/
theorem removeAllLoop_fault {itEnd : Option ℕ} (hend : lst.endIt = itEnd) (hlist : s.list c = some lst)
    (hlst : lst.Holds zs) {fuel i k n : ℕ} (hik : i ≤ k) (hk : k + 1 < zs.length) (hn : lst.iter k = some n) :
    removeAllLoop equal c (.node c n) itEnd fuel s (lst.iter i) = none := by
  induction fuel generalizing s lst zs i k with
  | zero => rfl
  | succ fuel ih =>
    have hlt : i < zs.length := by omega
    have hread : s.read (.node c n) = some zs[k] := by
      rw [read,hlist,Option.bind_some,← hn,hlst.deref_iter (by omega),List.getElem?_eq_getElem]
    have hstep : removeAllLoop equal c (.node c n) itEnd (fuel + 1) s (lst.iter i) =
        if equalTo equal c (lst.iter i) zs[i] (.node c n) zs[k] then (lst.erase (lst.iter i)).bind
          (fun r => removeAllLoop equal c (.node c n) itEnd fuel (s.setList c r.1) r.2)
        else removeAllLoop equal c (.node c n) itEnd fuel s (lst.succIt (lst.iter i)) := by
      rw [removeAllLoop,if_neg (hend ▸ (hlst.iter_lt hlt).1),hlist,Option.bind_eq_bind,Option.bind_some,
        hlst.deref_iter hlt,List.getElem?_eq_getElem hlt,Option.bind_eq_bind,Option.bind_some,hread]
      rfl
    rw [hstep]
    obtain ⟨lst₁,ret,herase,hlst₁,rfl⟩ := hlst.erase hlt
    obtain ⟨hend₁,hiter⟩ := hlst.iter_erase hlt herase
    have hlen : (zs.eraseIdx i).length = zs.length - 1 := List.length_eraseIdx_of_lt hlt
    have hlist₁ := list_setList hlist lst₁
    rw [herase,Option.bind_some]
    rcases Nat.eq_or_lt_of_le hik with rfl | hlt'
    · -- the element itself is gone, and the next is compared with it
      have hself : equalTo equal c (lst.iter i) zs[i] (.node c n) zs[i] = true := by
        rw [equalTo,DataRef.isNode,hn,beq_self_eq_true,beq_self_eq_true,Bool.true_and,Bool.true_or]
      have hgone : (s.setList c lst₁).read (.node c n) = none := by
        rw [read,hlist₁,Option.bind_some,← hn]
        exact deref_of_erase herase
      rw [if_pos hself]
      cases fuel with
      | zero => rfl
      | succ fuel =>
        rw [removeAllLoop,if_neg ((hend₁.trans hend) ▸ (hlst₁.iter_lt (by omega)).1),hlist₁,Option.bind_eq_bind,
          Option.bind_some,hlst₁.deref_iter (by omega),List.getElem?_eq_getElem (by omega),Option.bind_eq_bind,
          Option.bind_some,hgone]
        rfl
    · have hmoved := hiter k (by omega) (by omega)
      rw [if_neg (by omega),hn] at hmoved
      have herased := @ih (s.setList c lst₁) lst₁ (zs.eraseIdx i) (hend₁.trans hend) hlist₁ hlst₁ i (k - 1) (by omega)
        (by omega) hmoved
      have hnext := ih hend hlist hlst hlt' hk hn
      rw [herased,← iter_succ,hnext,ite_self]

end loops

/-! ## Handles -/

theorem handles_take (hf : Finitely s.vars) (hx : s.vars x = some (c,arrayMode)) (d : ℕ) :
    (s.setVar x none).handles d + (if c = d then 1 else 0) = s.handles d := uses_remove hf hx

theorem handles_give (hf : Finitely s.vars) (hx : s.vars x = none) (d : ℕ) :
    (s.setVar x (some (c,arrayMode))).handles d = s.handles d + (if c = d then 1 else 0) := uses_put hf hx _

theorem count_inHand (inHand : List ℕ) (c d : ℕ) :
    (c :: inHand).count d = inHand.count d + (if c = d then 1 else 0) := by
  rw [List.count_cons]
  simp only [beq_iff_eq]

/-- The handle of a variable is taken in hand. -/
theorem Stores.take (hs : Stores s ys inHand) (hx : s.vars x = some (c,arrayMode)) :
    Stores (s.setVar x none) ys (c :: inHand) := by
  refine ⟨hs.finite.update x none,hs.fresh,hs.holds,fun d impl hd => ?_,fun z var hz => ?_,fun d hd => ?_⟩
  · have hmove := handles_take hs.finite hx d
    rw [count_inHand]
    have heq : (s.setVar x none).handles d + (inHand.count d + if c = d then 1 else 0) = s.handles d + inHand.count d := by
      omega
    rw [heq]
    exact hs.counted d impl hd
  · refine hs.used z var ?_
    by_cases hzx : z = x
    · rw [hzx,setVar_vars_self] at hz
      cases hz
    · rwa [setVar_vars_of_ne hzx] at hz
  · rcases List.mem_cons.mp hd with rfl | hd
    · exact hs.used x _ hx
    · exact hs.held d hd

/-- A handle in hand is given to a variable. -/
theorem Stores.give (hs : Stores s ys (c :: inHand)) (hx : s.vars x = none) (arrayMode : Bool) :
    Stores (s.setVar x (some (c,arrayMode))) ys inHand := by
  refine ⟨hs.finite.update x _,hs.fresh,hs.holds,fun d impl hd => ?_,fun z var hz => ?_,
    fun d hd => hs.held d (List.mem_cons_of_mem c hd)⟩
  · have hcount := hs.counted d impl hd
    rw [count_inHand] at hcount
    rw [handles_give hs.finite hx]
    have heq : s.handles d + (if c = d then 1 else 0) + inHand.count d =
        s.handles d + (inHand.count d + if c = d then 1 else 0) := by omega
    rwa [heq]
  · by_cases hzx : z = x
    · rw [hzx,setVar_vars_self] at hz
      cases hz
      exact hs.held c List.mem_cons_self
    · rw [setVar_vars_of_ne hzx] at hz
      exact hs.used z var hz

theorem Stores.unused (hs : Stores s ys inHand) (hc : s.impls c = none) : s.handles c + inHand.count c = 0 := by
  have hhandles : s.handles c = 0 := by
    refine uses_eq_zero (fun x var hx => ?_)
    rintro rfl
    exact hs.used x var hx hc
  have hcount : inHand.count c = 0 := List.count_eq_zero.mpr (fun hmem => hs.held c hmem hc)
  rw [hhandles,hcount]

theorem Stores.impls_fresh (hs : Stores s ys inHand) : s.impls s.fresh = none := by
  by_contra hne
  exact Nat.lt_irrefl _ (hs.fresh _ hne)

/-- A new list, with a handle in hand. -/
theorem Stores.alloc (hs : Stores s ys inHand) (hlst : lst.Holds zs) :
    Stores { s.put s.fresh (some ⟨lst,1⟩) with fresh := s.fresh + 1 } (Function.update ys s.fresh zs) (s.fresh :: inHand) := by
  have hnone := hs.impls_fresh
  have hkeep : ∀ d, s.impls d ≠ none → (s.put s.fresh (some ⟨lst,1⟩)).impls d ≠ none := by
    intro d hd
    by_cases hdf : d = s.fresh
    · exact absurd (hdf ▸ hnone) hd
    · rwa [put_impls_of_ne hdf]
  refine ⟨hs.finite,fun d hd => ?_,fun d impl hd => ?_,fun d impl hd => ?_,fun z var hz => hkeep _ (hs.used z var hz),
    fun d hd => ?_⟩
  · by_cases hdf : d = s.fresh
    · exact Nat.lt_succ_of_le (Nat.le_of_eq hdf)
    · refine Nat.lt_succ_of_lt (hs.fresh d ?_)
      rwa [put_impls_of_ne hdf] at hd
  · by_cases hdf : d = s.fresh
    · rw [hdf,put_impls_self] at hd
      cases hd
      rwa [hdf,Function.update_self]
    · rw [put_impls_of_ne hdf] at hd
      rw [Function.update_of_ne hdf]
      exact hs.holds d impl hd
  · rw [count_inHand]
    by_cases hdf : d = s.fresh
    · rw [hdf,put_impls_self] at hd
      cases hd
      have hzero := hs.unused hnone
      have hone : s.handles s.fresh + (inHand.count s.fresh + 1) = 1 := by omega
      rw [hdf,if_pos rfl]
      change (1 : BitVec 32) = BitVec.ofNat 32 (s.handles s.fresh + (inHand.count s.fresh + 1)) ∧
        s.handles s.fresh + (inHand.count s.fresh + 1) < 4294967296
      rw [hone]
      decide
    · rw [put_impls_of_ne hdf] at hd
      rw [if_neg (Ne.symm hdf)]
      exact hs.counted d impl hd
  · rcases List.mem_cons.mp hd with rfl | hd
    · rw [put_impls_self]
      exact Option.some_ne_none _
    · exact hkeep d (hs.held d hd)

/-- The count of one list and its handles in hand change. -/
theorem Stores.recount (hs : Stores s ys inHand) (hc : s.impls c = some impl) {inHand' : List ℕ} {ref : BitVec 32}
    (hcount : ref = BitVec.ofNat 32 (s.handles c + inHand'.count c) ∧ s.handles c + inHand'.count c < 4294967296)
    (hother : ∀ d, d ≠ c → inHand'.count d = inHand.count d) :
    Stores (s.put c (some { impl with ref })) ys inHand' := by
  have hkeep : ∀ d, s.impls d ≠ none → (s.put c (some { impl with ref })).impls d ≠ none := by
    intro d hd
    by_cases hdc : d = c
    · rw [hdc,put_impls_self]
      exact Option.some_ne_none _
    · rwa [put_impls_of_ne hdc]
  have hback : ∀ d, (s.put c (some { impl with ref })).impls d ≠ none → s.impls d ≠ none := by
    intro d hd
    by_cases hdc : d = c
    · rw [hdc,hc]
      exact Option.some_ne_none _
    · rwa [put_impls_of_ne hdc] at hd
  refine ⟨hs.finite,fun d hd => hs.fresh d (hback d hd),fun d impl' hd => ?_,fun d impl' hd => ?_,
    fun z var hz => hkeep _ (hs.used z var hz),fun d hd => ?_⟩
  · by_cases hdc : d = c
    · rw [hdc,put_impls_self] at hd
      cases hd
      exact hdc ▸ hs.holds c impl hc
    · rw [put_impls_of_ne hdc] at hd
      exact hs.holds d impl' hd
  · by_cases hdc : d = c
    · rw [hdc,put_impls_self] at hd
      cases hd
      exact hdc ▸ hcount
    · rw [put_impls_of_ne hdc] at hd
      rw [hother d hdc]
      exact hs.counted d impl' hd
  · by_cases hdc : d = c
    · rw [hdc,put_impls_self]
      exact Option.some_ne_none _
    · refine hkeep d (hs.held d (List.count_pos_iff.mp ?_))
      rw [← hother d hdc]
      exact List.count_pos_iff.mpr hd

theorem ofNat_succ (n : ℕ) : BitVec.ofNat 32 (n + 1) = BitVec.ofNat 32 n + 1 := BitVec.ofNat_add n 1

theorem Stores.share (hs : Stores s ys inHand) (hc : s.impls c = some impl) (hcount : impl.ref + 1 ≠ 0) :
    Stores (s.put c (some { impl with ref := impl.ref + 1 })) ys (c :: inHand) := by
  obtain ⟨href,hlt⟩ := hs.counted c impl hc
  have hsucc : s.handles c + (c :: inHand).count c = s.handles c + inHand.count c + 1 := by
    rw [List.count_cons_self]
    rfl
  refine hs.recount hc ⟨?_,?_⟩ (fun d hd => List.count_cons_of_ne (Ne.symm hd))
  · rw [hsucc,ofNat_succ,href]
  · rw [hsucc]
    refine Nat.lt_of_le_of_ne hlt (fun hmax => hcount ?_)
    rw [href,← ofNat_succ,hmax]
    rfl

theorem Stores.dec (hs : Stores s ys (c :: inHand)) (hc : s.impls c = some impl) :
    Stores (s.put c (some { impl with ref := impl.ref - 1 })) ys inHand := by
  obtain ⟨href,hlt⟩ := hs.counted c impl hc
  have hsucc : s.handles c + (c :: inHand).count c = s.handles c + inHand.count c + 1 := by
    rw [List.count_cons_self]
    rfl
  rw [hsucc] at href hlt
  refine hs.recount hc ⟨?_,Nat.lt_of_succ_lt hlt⟩ (fun d hd => (List.count_cons_of_ne (Ne.symm hd)).symm)
  rw [href,ofNat_succ]
  exact BitVec.add_sub_cancel _ _

/-- The list goes with its last handle. -/
theorem release_spec (hs : Stores s ys (c :: inHand)) :
    ∃ s', release s c = some s' ∧ Stores s' ys inHand := by
  obtain ⟨impl,hc⟩ := Option.ne_none_iff_exists'.mp (hs.held c List.mem_cons_self)
  obtain ⟨href,hlt⟩ := hs.counted c impl hc
  have hdec := hs.dec hc
  rw [release,hc,Option.bind_eq_bind,Option.bind_some]
  by_cases h0 : impl.ref - 1 = 0
  · obtain ⟨lst',hclear,-⟩ := (hs.holds c impl hc).clear
    have hsucc : s.handles c + (c :: inHand).count c = s.handles c + inHand.count c + 1 := by
      rw [List.count_cons_self]
      rfl
    rw [hsucc] at href hlt
    have hzero : s.handles c + inHand.count c = 0 := by
      rw [href,ofNat_succ] at h0
      have hsub : BitVec.ofNat 32 (s.handles c + inHand.count c) = 0 := (BitVec.add_sub_cancel _ _).symm.trans h0
      have hnat := congrArg BitVec.toNat hsub
      rw [BitVec.toNat_ofNat,Nat.mod_eq_of_lt (Nat.lt_of_succ_lt hlt)] at hnat
      exact hnat
    have hkeep : ∀ d, d ≠ c → (s.put c none).impls d = s.impls d := fun d hd => Function.update_of_ne hd _ _
    have hgone : (s.put c none).impls c = none := Function.update_self c _ _
    refine ⟨s.put c none,?_,⟨hs.finite,fun d hd => ?_,fun d impl' hd => ?_,fun d impl' hd => ?_,fun z var hz => ?_,
      fun d hd => ?_⟩⟩
    · dsimp only
      rw [if_pos h0,hclear]
      rfl
    · by_cases hdc : d = c
      · exact absurd (hdc ▸ hgone) hd
      · exact hs.fresh d (hkeep d hdc ▸ hd)
    · by_cases hdc : d = c
      · rw [hdc,hgone] at hd
        cases hd
      · exact hs.holds d impl' (hkeep d hdc ▸ hd)
    · by_cases hdc : d = c
      · rw [hdc,hgone] at hd
        cases hd
      · have hcount := hs.counted d impl' (hkeep d hdc ▸ hd)
        rwa [List.count_cons_of_ne (Ne.symm hdc)] at hcount
    · by_cases hdc : var.1 = c
      · have hpos : 0 < s.handles c := uses_pos hs.finite hz hdc
        omega
      · rw [hkeep _ hdc]
        exact hs.used z var hz
    · by_cases hdc : d = c
      · have hpos := List.count_pos_iff.mpr (hdc ▸ hd)
        omega
      · rw [hkeep _ hdc]
        exact hs.held d (List.mem_cons_of_mem c hd)
  · exact ⟨_,if_neg h0,hdec⟩

theorem release_vars (h : release s c = some s') : s'.vars = s.vars := by
  obtain ⟨impl,-,h⟩ := Option.bind_eq_some_iff.mp h
  dsimp only at h
  split_ifs at h
  · obtain ⟨lst,-,h⟩ := Option.bind_eq_some_iff.mp h
    cases h
    rfl
  · cases h
    rfl

theorem release_setVar (s : Lists D) (c x : ℕ) (var : Option (ℕ × Bool)) :
    release (s.setVar x var) c = (release s c).map (fun s => s.setVar x var) := by
  cases hc : s.impls c with
  | none => simp [release,setVar,hc]
  | some impl =>
    by_cases h0 : impl.ref - 1#32 = 0#32
    · cases hclear : impl.lst.clear <;> simp [release,setVar,put,hc,h0,hclear]
    · simp [release,setVar,put,hc,h0]

end Lists
end Edelib.Edbus
