import Edelib.Edbus.EdbusListRefines
import Edelib.Edbus.Equality
import Edelib.Foundation.Transition

/-! # Runs of D-Bus lists

A call that changes a list has it for itself first. Then what is read of the argument is what it was
at the call, and no other handle sees the change.
-/
namespace Edelib.Edbus
open Base Base.ListState Foundation

namespace Lists
variable {D : Type} {s s' : Lists D} {ys : ℕ → List D} {x c c' : ℕ} {arrayMode : Bool} {lst : ListState D} {zs ws : List D}
  {impl : ListImpl D} {inHand : List ℕ}

/-! ## The sequences -/

theorem seqs_setVar (s : Lists D) (ys : ℕ → List D) (x : ℕ) (var : Option (ℕ × Bool)) :
    (s.setVar x var).seqs ys = Function.update (s.seqs ys) x (var.map (fun var => (var.2,ys var.1))) := by
  funext z
  by_cases hz : z = x
  · rw [hz,seqs,setVar_vars_self,Function.update_self]
  · rw [seqs,setVar_vars_of_ne hz,Function.update_of_ne hz]
    rfl

theorem seqs_of_vars (h : s'.vars = s.vars) (ys : ℕ → List D) : s'.seqs ys = s.seqs ys := by
  funext z
  rw [seqs,h]
  rfl

/-- A list that only one variable may have is that of the variable. -/
theorem seqs_update (hx : s.vars x = some (c,arrayMode)) (hother : ∀ z var, s.vars z = some var → var.1 = c → z = x)
    (ys : ℕ → List D) (zs : List D) :
    s.seqs (Function.update ys c zs) = Function.update (s.seqs ys) x (some (arrayMode,zs)) := by
  funext z
  by_cases hz : z = x
  · rw [hz,seqs,hx,Function.update_self,Option.map_some,Function.update_self]
  · rw [seqs,Function.update_of_ne hz,seqs]
    cases hvar : s.vars z with
    | none => rfl
    | some var =>
      have hne : var.1 ≠ c := fun hc => hz (hother z var hvar hc)
      rw [Option.map_some,Option.map_some,Function.update_of_ne hne]

theorem seqs_eq_some (h : s.seqs ys x = some (arrayMode,zs)) : ∃ c, s.vars x = some (c,arrayMode) ∧ zs = ys c := by
  obtain ⟨⟨c,mode⟩,hx,heq⟩ := Option.map_eq_some_iff.mp h
  cases heq
  exact ⟨c,hx,rfl⟩

theorem seqs_eq_none : s.seqs ys x = none ↔ s.vars x = none := Option.map_eq_none_iff

theorem Stores.impls (hs : Stores s ys inHand) (hx : s.vars x = some (c,arrayMode)) :
    ∃ impl, s.impls c = some impl ∧ s.list c = some impl.lst ∧ impl.lst.Holds (ys c) := by
  obtain ⟨impl,hc⟩ := Option.ne_none_iff_exists'.mp (hs.used x _ hx)
  exact ⟨impl,hc,list_eq hc,hs.holds c impl hc⟩

theorem Stores.refines (hs : Stores s ys []) : ListsAction.Refines s (s.seqs ys) := by
  refine ⟨fun x => seqs_eq_none.symm,fun x arrayMode zs h => ?_⟩
  obtain ⟨c,hx,rfl⟩ := seqs_eq_some h
  obtain ⟨impl,-,hlist,hlst⟩ := hs.impls hx
  exact ⟨c,impl.lst,hx,hlist,hlst.refines⟩

/-- No handle has the address of the next list. -/
theorem Stores.seqs_fresh (hs : Stores s ys inHand) (zs : List D) :
    s.seqs (Function.update ys s.fresh zs) = s.seqs ys := by
  funext z
  rw [seqs,seqs]
  cases hvar : s.vars z with
  | none => rfl
  | some var =>
    have hlt : var.1 < s.fresh := hs.fresh _ (hs.used z var hvar)
    rw [Option.map_some,Option.map_some,Function.update_of_ne (Nat.ne_of_lt hlt)]

/-! ## Handles -/

theorem create_spec (hs : Stores s ys []) (hx : s.vars x = none) (arrayMode : Bool) :
    ∃ ys', Stores (s.create x arrayMode) ys' [] ∧
      (s.create x arrayMode).seqs ys' = Function.update (s.seqs ys) x (some (arrayMode,[])) := by
  refine ⟨_,(hs.alloc holds_empty).give hx arrayMode,?_⟩
  have hseqs := seqs_setVar { s.put s.fresh (some ⟨.empty,1⟩) with fresh := s.fresh + 1 } (Function.update ys s.fresh []) x
    (some (s.fresh,arrayMode))
  rw [Option.map_some,Function.update_self] at hseqs
  exact hseqs.trans (congrArg (fun xs => Function.update xs x _) (hs.seqs_fresh []))

theorem share_spec (hs : Stores s ys []) {y : ℕ} (hy : s.vars y = some (c,arrayMode)) (hcount : ListsAction.Counts s y) :
    ∃ s', share s y = some (s',c,arrayMode) ∧ s'.vars = s.vars ∧ Stores s' ys [c] := by
  obtain ⟨impl,hc,-⟩ := hs.impls hy
  refine ⟨s.put c (some { impl with ref := impl.ref + 1 }),?_,rfl,hs.share hc (hcount _ hy impl hc)⟩
  simp only [share,hy,hc,Option.bind_eq_bind,Option.bind_some]

theorem copy_spec (hs : Stores s ys []) (hx : s.vars x = none) {y : ℕ} (hy : s.vars y = some (c,arrayMode))
    (hcount : ListsAction.Counts s y) :
    ∃ s', s.copy x y = some s' ∧ Stores s' ys [] ∧ s'.seqs ys = Function.update (s.seqs ys) x (some (arrayMode,ys c)) := by
  obtain ⟨s₁,hshare,hvars,hs₁⟩ := share_spec hs hy hcount
  refine ⟨_,?_,hs₁.give (hvars ▸ hx) arrayMode,?_⟩
  · rw [copy,hshare]
    rfl
  · rw [seqs_setVar,seqs_of_vars hvars]
    rfl

/-- The list of a variable loses the handle, whatever the variable has next. -/
theorem drop_spec (hs : Stores s ys inHand) (hx : s.vars x = some (c,arrayMode)) :
    ∃ s', release s c = some s' ∧ s'.vars = s.vars ∧ Stores (s'.setVar x none) ys inHand := by
  obtain ⟨s₁,hrelease,hs₁⟩ := release_spec (hs.take hx)
  rw [release_setVar] at hrelease
  obtain ⟨s',hs',rfl⟩ := Option.map_eq_some_iff.mp hrelease
  exact ⟨s',hs',release_vars hs',hs₁⟩

theorem setVar_setVar (s : Lists D) (x : ℕ) (var var' : Option (ℕ × Bool)) : (s.setVar x var).setVar x var' = s.setVar x var' := by
  simp [setVar]

theorem assign_spec (hs : Stores s ys []) {cx : ℕ} {modex : Bool} (hx : s.vars x = some (cx,modex)) {y : ℕ}
    (hy : s.vars y = some (c,arrayMode)) (hcount : ListsAction.Counts s y) :
    ∃ s', s.assign x y = some s' ∧ Stores s' ys [] ∧ s'.seqs ys = Function.update (s.seqs ys) x (some (arrayMode,ys c)) := by
  obtain ⟨s₁,hshare,hvars₁,hs₁⟩ := share_spec hs hy hcount
  have hx₁ : s₁.vars x = some (cx,modex) := hvars₁ ▸ hx
  obtain ⟨s₂,hrelease,hvars₂,hs₂⟩ := drop_spec hs₁ hx₁
  have hgive := hs₂.give (setVar_vars_self s₂ x none) arrayMode
  rw [setVar_setVar] at hgive
  refine ⟨s₂.setVar x (some (c,arrayMode)),?_,hgive,?_⟩
  · simp only [assign,hshare,hx₁,hrelease,Option.bind_eq_bind,Option.bind_some]
  · rw [seqs_setVar,seqs_of_vars hvars₂,seqs_of_vars hvars₁]
    rfl

theorem destroy_spec (hs : Stores s ys []) (hx : s.vars x = some (c,arrayMode)) :
    ∃ s', s.destroy x = some s' ∧ Stores s' ys [] ∧ s'.seqs ys = Function.update (s.seqs ys) x none := by
  obtain ⟨s₁,hrelease,hvars,hs₁⟩ := drop_spec hs hx
  refine ⟨s₁.setVar x none,?_,hs₁,?_⟩
  · simp only [destroy,hx,hrelease,Option.bind_eq_bind,Option.bind_some]
  · rw [seqs_setVar,seqs_of_vars hvars]
    rfl

/-! ## Changes in place -/

/-- What `unhook` gives: the variable has a list for itself, and all others are as they were. -/
structure Unhooked (s : Lists D) (ys : ℕ → List D) (x : ℕ) (arrayMode : Bool) (s' : Lists D) (c' : ℕ) (zs : List D) : Prop where
  stores : Stores s' (Function.update ys c' zs) []
  var : s'.vars x = some (c',arrayMode)
  seqs : s'.seqs (Function.update ys c' zs) = Function.update (s.seqs ys) x (some (arrayMode,zs))
  alone : s'.handles c' = 1
  others : ∀ d, d ≠ c' → s'.list d = s.list d
  own : s' = s ∧ zs = ys c' ∧ (∃ impl, s.impls c' = some impl ∧ impl.ref = 1) ∨ s.impls c' = none

theorem Stores.handles_eq_one (hs : Stores s ys []) (hc : s.impls c = some impl) (href : impl.ref = 1) : s.handles c = 1 := by
  obtain ⟨hcount,hlt⟩ := hs.counted c impl hc
  rw [List.count_nil,Nat.add_zero] at hcount hlt
  have hnat := congrArg BitVec.toNat (href.symm.trans hcount)
  rw [BitVec.toNat_ofNat,Nat.mod_eq_of_lt hlt] at hnat
  exact hnat.symm

theorem eq_nil_of_sized (hlst : lst.Holds zs) (h : lst.beginIt = lst.endIt) : zs = [] := by
  by_contra hne
  exact (hlst.iter_lt (List.length_pos_iff.mpr hne)).1 h

/-- The copy that `unhook` makes. -/
theorem contentOf_spec (hlst : lst.Holds zs) :
    ∃ new ws, contentOf lst = some new ∧ new.Holds ws ∧ (ListsAction.Sized lst → ws = zs) := by
  by_cases h0 : lst.size ≠ 0
  · obtain ⟨new,hcopy,hnew⟩ := copyFrom_spec hlst (Nat.zero_le _) (Nat.lt_succ_of_le hlst.length_le_fresh) holds_empty
    rw [List.nil_append,List.drop_zero] at hnew
    exact ⟨new,zs,(if_pos h0).trans hcopy,hnew,fun _ => rfl⟩
  · exact ⟨.empty,[],if_neg h0,holds_empty,fun hsized => (eq_nil_of_sized hlst (hsized (not_not.mp h0))).symm⟩

theorem unhook_spec (hs : Stores s ys []) (hx : s.vars x = some (c,arrayMode)) :
    ∃ s' c' zs, unhook s x = some (s',c') ∧ Unhooked s ys x arrayMode s' c' zs ∧ (ListsAction.Copies s x → zs = ys c) := by
  obtain ⟨impl,hc,hlist,hlst⟩ := hs.impls hx
  by_cases href : impl.ref = 1
  · refine ⟨s,c,ys c,?_,⟨?_,hx,?_,hs.handles_eq_one hc href,fun _ _ => rfl,Or.inl ⟨rfl,rfl,impl,hc,href⟩⟩,fun _ => rfl⟩
    · simp only [unhook,hx,hc,Option.bind_eq_bind,Option.bind_some,if_pos href]
    · rwa [Function.update_eq_self]
    · rw [Function.update_eq_self]
      refine (Function.update_eq_self_iff.mpr ?_).symm
      rw [Lists.seqs,hx]
      rfl
  · obtain ⟨new,ws,hcopy,hnew,hsame⟩ := contentOf_spec hlst
    have hdec := (hs.take hx).dec hc
    have hgive := (hdec.alloc hnew).give (setVar_vars_self s x none) arrayMode
    have hfresh : s.impls s.fresh = none := hs.impls_fresh
    have hne : c ≠ s.fresh := by
      rintro rfl
      rw [hfresh] at hc
      cases hc
    have hcopied : unhook s x = some ({ (((s.setVar x none).put c (some { impl with ref := impl.ref - 1 })).put s.fresh
        (some ⟨new,1⟩)).setVar x (some (s.fresh,arrayMode)) with fresh := s.fresh + 1 },s.fresh) := by
      simp only [unhook,hx,hc,Option.bind_eq_bind,Option.bind_some,if_neg href,hcopy]
      rw [setVar,setVar,put,put,put,put,setVar,Function.update_idem]
    have hseqs : ((s.setVar x none).setVar x (some (s.fresh,arrayMode))).seqs (Function.update ys s.fresh ws) =
        Function.update (s.seqs ys) x (some (arrayMode,ws)) := by
      rw [setVar_setVar,seqs_setVar,hs.seqs_fresh,Option.map_some,Function.update_self]
    refine ⟨_,s.fresh,ws,hcopied,⟨hgive,Function.update_self x _ _,hseqs,hgive.handles_eq_one (put_impls_self _ _ _) rfl,
      fun d hd => ?_,Or.inr hfresh⟩,fun hcopies => hsame (hcopies _ hx impl hc href)⟩
    change ((s.put c _).put s.fresh _).list d = s.list d
    rw [list,put_impls_of_ne hd]
    by_cases hdc : d = c
    · rw [hdc,put_impls_self,hlist]
      rfl
    · rw [put_impls_of_ne hdc]
      rfl

/-- What is done to the list of one handle is done to its sequence alone. -/
theorem Unhooked.change (h : Unhooked s ys x arrayMode s' c' zs) (hlst : lst.Holds ws) :
    ∃ ys', Stores (s'.setList c' lst) ys' [] ∧
      (s'.setList c' lst).seqs ys' = Function.update (s.seqs ys) x (some (arrayMode,ws)) := by
  obtain ⟨impl,hc,-⟩ := h.stores.impls h.var
  have hput : s'.setList c' lst = s'.put c' (some { impl with lst }) := by
    rw [setList,hc]
    rfl
  have hkeep : ∀ d, (s'.put c' (some { impl with lst })).impls d ≠ none ↔ s'.impls d ≠ none := by
    intro d
    by_cases hd : d = c'
    · rw [hd,put_impls_self,hc]
      exact iff_of_true (Option.some_ne_none _) (Option.some_ne_none _)
    · rw [put_impls_of_ne hd]
  refine ⟨Function.update (Function.update ys c' zs) c' ws,hput ▸ ⟨h.stores.finite,
    fun d hd => h.stores.fresh d ((hkeep d).mp hd),fun d impl' hd => ?_,fun d impl' hd => ?_,
    fun z var hz => (hkeep var.1).mpr (h.stores.used z var hz),fun d hd => absurd hd List.not_mem_nil⟩,?_⟩
  · by_cases hdc : d = c'
    · rw [hdc,put_impls_self] at hd
      cases hd
      rwa [hdc,Function.update_self]
    · rw [put_impls_of_ne hdc] at hd
      rw [Function.update_of_ne hdc]
      exact h.stores.holds d impl' hd
  · by_cases hdc : d = c'
    · rw [hdc,put_impls_self] at hd
      cases hd
      exact hdc ▸ h.stores.counted c' impl hc
    · rw [put_impls_of_ne hdc] at hd
      exact h.stores.counted d impl' hd
  · have hother : ∀ z var, s'.vars z = some var → var.1 = c' → z = x :=
      fun z var hz hvar => eq_of_uses_eq_one h.alone hz hvar h.var rfl
    refine (seqs_update h.var hother (Function.update ys c' zs) ws).trans ?_
    rw [h.seqs,Function.update_idem]

/-! ## Arguments -/

theorem resolve_element (hs : Stores s ys inHand) {y i : ℕ} {v : D} (h : (DataArg.element y i).seq (s.seqs ys) = some v) :
    ∃ c mode lst n, s.vars y = some (c,mode) ∧ s.list c = some lst ∧ lst.Holds (ys c) ∧ (ys c)[i]? = some v ∧
      lst.iter i = some n ∧ s.resolve (.element y i) = some (.node c n) := by
  obtain ⟨⟨mode,zs⟩,hseq,hget⟩ := Option.bind_eq_some_iff.mp h
  obtain ⟨c,hy,rfl⟩ := seqs_eq_some hseq
  obtain ⟨impl,-,hlist,hlst⟩ := hs.impls hy
  have hlt := (List.getElem?_eq_some_iff.mp hget).1
  obtain ⟨-,n,hn⟩ := hlst.iter_lt hlt
  refine ⟨c,mode,impl.lst,n,hy,hlist,hlst,hget,hn,?_⟩
  simp only [resolve,hy,hlist,hn,Option.bind_eq_bind,Option.bind_some]

def InList (s : Lists D) (c : ℕ) (lst : ListState D) (i : ℕ) (val : DataArg D) (ref : DataRef D) : Prop :=
  ∃ y mode impl n, val = .element y i ∧ s.vars y = some (c,mode) ∧ s.impls c = some impl ∧ impl.lst = lst ∧ impl.ref = 1 ∧
    ref = .node c n ∧ lst.iter i = some n

theorem Unhooked.list (h : Unhooked s ys x arrayMode s' c' zs) : ∃ lst, s'.list c' = some lst ∧ lst.Holds zs := by
  obtain ⟨impl,-,hlist,hlst⟩ := h.stores.impls h.var
  rw [Function.update_self] at hlst
  exact ⟨impl.lst,hlist,hlst⟩

/-- The argument is read before the call and in it. -/
theorem Unhooked.resolve (h : Unhooked s ys x arrayMode s' c' zs) (hs : Stores s ys []) (hlist' : s'.list c' = some lst)
    {val : DataArg D} {v : D} (hval : val.seq (s.seqs ys) = some v) :
    ∃ ref, s.resolve val = some ref ∧ s.read ref = some v ∧ s'.read ref = some v ∧
      (Elsewhere c' ref ∨ s' = s ∧ ∃ i, zs[i]? = some v ∧ InList s c' lst i val ref) := by
  cases val with
  | value val =>
    cases hval
    exact ⟨.value v,rfl,rfl,rfl,Or.inl (fun _ => rfl)⟩
  | element y i =>
    obtain ⟨d,mode,lst₁,n,hy,hlist,hlst,hget,hn,hres⟩ := resolve_element hs hval
    have hread : s.read (.node d n) = some v := by
      rw [read,hlist,Option.bind_some,← hn,hlst.deref_iter (List.getElem?_eq_some_iff.mp hget).1,hget]
    refine ⟨.node d n,hres,hread,?_⟩
    by_cases hd : d = c'
    · subst hd
      rcases h.own with ⟨rfl,rfl,impl,hc,href⟩ | hnone
      · obtain rfl := Option.some.inj (hlist.symm.trans hlist')
        have himpl := Option.some.inj ((list_eq hc).symm.trans hlist)
        exact ⟨hread,Or.inr ⟨rfl,i,hget,y,mode,impl,n,rfl,hy,hc,himpl,href,rfl,hn⟩⟩
      · exact absurd hnone (hs.used y _ hy)
    · refine ⟨?_,Or.inl (fun it => ?_)⟩
      · rw [read,h.others d hd]
        exact hread
      · rw [DataRef.isNode,beq_eq_false_iff_ne.mpr hd,Bool.false_and]

section calls
variable {type : D → EdbusDataType} {equal : D → D → Bool} {val : DataArg D} {ref : DataRef D} {v : D}

theorem ignores_spec (hlst : lst.Holds zs) (hread : s.read ref = some v) (hsized : arrayMode = true → ListsAction.Sized lst) :
    ignores type s arrayMode lst ref = some (decide (¬ ListsAction.Takes type arrayMode zs v)) := by
  by_cases h : arrayMode = true ∧ lst.size ≠ 0
  · have hne : zs ≠ [] := by
      rintro rfl
      exact h.2 hlst.size
    obtain ⟨first,rest,rfl⟩ := List.exists_cons_of_ne_nil hne
    have hfirst : lst.deref lst.beginIt = some first := hlst.deref_iter (Nat.zero_lt_succ _)
    have htakes : ListsAction.Takes type arrayMode (first :: rest) v ↔ type first = type v := by
      refine ⟨fun ht => ht h.1 first rfl,fun heq _ first' hmem => ?_⟩
      cases hmem
      exact heq
    simp only [ignores,if_pos h,hfirst,hread,Option.bind_eq_bind,Option.bind_some,htakes,ne_eq]
  · have htakes : ListsAction.Takes type arrayMode zs v := by
      intro hmode first hmem
      have h0 : lst.size = 0 := not_not.mp (fun hne => h ⟨hmode,hne⟩)
      rw [eq_nil_of_sized hlst (hsized hmode h0)] at hmem
      cases hmem
    rw [ignores,if_neg h,decide_eq_false (not_not.mpr htakes)]

theorem append_spec (hs : Stores s ys []) (hx : s.vars x = some (c,arrayMode)) (hval : val.seq (s.seqs ys) = some v)
    (hm : ListsAction.Meets equal s (.append x val)) :
    ∃ s' ys', ListsAction.step type equal s (.append x val) = some s' ∧ Stores s' ys' [] ∧
      s'.seqs ys' = Function.update (s.seqs ys) x
        (some (arrayMode,if ListsAction.Takes type arrayMode (ys c) v then ys c ++ [v] else ys c)) := by
  obtain ⟨hcopies,hsized⟩ := hm
  obtain ⟨impl,hc,hlist,hlst⟩ := hs.impls hx
  obtain ⟨s₁,c',zs,hunhook,hun,hzs⟩ := unhook_spec hs hx
  obtain rfl := hzs hcopies
  obtain ⟨lst₁,hlist₁,hlst₁⟩ := hun.list
  obtain ⟨ref,hres,hread,hread₁,-⟩ := hun.resolve hs hlist₁ hval
  have hignores : ignores type s arrayMode impl.lst ref = some (decide (¬ ListsAction.Takes type arrayMode (ys c) v)) :=
    ignores_spec hlst hread (hsized _ hx _ hlist)
  obtain ⟨lst₂,ret,hpush,hlst₂⟩ := hlst₁.pushBack v
  have hstep : ListsAction.step type equal s (.append x val) =
      if ListsAction.Takes type arrayMode (ys c) v then some (s₁.setList c' lst₂) else some s := by
    simp only [ListsAction.step,append,hres,hx,hlist,hignores,hunhook,hlist₁,hread₁,hpush,Option.bind_eq_bind,
      Option.bind_some,decide_not,Bool.not_eq_true',decide_eq_false_iff_not,ite_not]
  rw [hstep]
  by_cases htakes : ListsAction.Takes type arrayMode (ys c) v
  · obtain ⟨ys',hs',hseqs⟩ := hun.change hlst₂
    rw [if_pos htakes,if_pos htakes]
    exact ⟨_,ys',rfl,hs',hseqs⟩
  · rw [if_neg htakes,if_neg htakes]
    refine ⟨s,ys,rfl,hs,(Function.update_eq_self_iff.mpr ?_).symm⟩
    rw [seqs,hx]
    rfl

theorem clear_spec (hs : Stores s ys []) (hx : s.vars x = some (c,arrayMode)) :
    ∃ s' ys', ListsAction.step type equal s (.clear x) = some s' ∧ Stores s' ys' [] ∧
      s'.seqs ys' = Function.update (s.seqs ys) x (some (arrayMode,[])) := by
  obtain ⟨s₁,c',zs,hunhook,hun,-⟩ := unhook_spec hs hx
  obtain ⟨lst₁,hlist₁,hlst₁⟩ := hun.list
  obtain ⟨lst₂,hclear,hlst₂⟩ := hlst₁.clear
  obtain ⟨ys',hs',hseqs⟩ := hun.change hlst₂
  refine ⟨_,ys',?_,hs',hseqs⟩
  simp only [ListsAction.step,clear,hunhook,hlist₁,hclear,Option.bind_eq_bind,Option.bind_some]

/-- The node of the argument is found where the argument is. -/
theorem InList.eq_of_isNode {i k : ℕ} (h : InList s c lst i val ref) (hlst : lst.Holds zs) (hi : i < zs.length) (hk : k < zs.length)
    (hnode : ref.isNode c (lst.iter k) = true) : k = i := by
  obtain ⟨y,mode,impl,n,-,-,-,-,-,rfl,hn⟩ := h
  simp only [DataRef.isNode,Bool.and_eq_true,beq_iff_eq] at hnode
  exact hlst.iter_inj hk hi (hnode.2.trans hn.symm)

theorem InList.inPlace {i : ℕ} (h : InList s c lst i val ref) (hx : s.vars x = some (c,arrayMode)) :
    ∃ y, val = .element y i ∧ ∀ P, ListsAction.InPlace s x y P → P lst := by
  obtain ⟨y,mode,impl,n,hval,hy,hc,rfl,href,-⟩ := h
  exact ⟨y,hval,fun P hP => hP _ hx _ hy rfl impl hc href⟩

theorem remove_spec (hs : Stores s ys []) (hx : s.vars x = some (c,arrayMode)) (hval : val.seq (s.seqs ys) = some v)
    (hm : ListsAction.Meets equal s (.remove x val)) :
    ∃ s' ys', ListsAction.step type equal s (.remove x val) = some s' ∧ Stores s' ys' [] ∧
      s'.seqs ys' = Function.update (s.seqs ys) x (some (arrayMode,(ys c).eraseP (equal · v))) := by
  obtain ⟨hcopies,hagrees⟩ := hm
  obtain ⟨s₁,c',zs,hunhook,hun,hzs⟩ := unhook_spec hs hx
  obtain rfl := hzs hcopies
  obtain ⟨lst₁,hlist₁,hlst₁⟩ := hun.list
  obtain ⟨ref,hres,-,hread₁,hplace⟩ := hun.resolve hs hlist₁ hval
  have hself : ∀ k, 0 ≤ k → k < (ys c).length → ref.isNode c' (lst₁.iter k) = true →
      equal v v = true ∨ ∃ j < k, 0 ≤ j ∧ ∃ elem ∈ (ys c)[j]?, equal elem v = true := by
    intro k _ hk hnode
    rcases hplace with helse | ⟨rfl,i,hget,hin⟩
    · rw [helse] at hnode
      cases hnode
    · have hi := (List.getElem?_eq_some_iff.mp hget).1
      obtain rfl := hin.eq_of_isNode hlst₁ hi hk hnode
      obtain ⟨y,rfl,hP⟩ := hin.inPlace hun.var
      rw [ListsAction.Agrees] at hagrees
      refine (hP _ hagrees v ((hlst₁.deref_iter hk).trans hget)).imp_right ?_
      rintro ⟨j,hj,elem,helem,heq⟩
      rw [hlst₁.deref_iter (Nat.lt_trans hj hk)] at helem
      exact ⟨j,hj,Nat.zero_le j,elem,helem,heq⟩
  obtain ⟨lst₂,hloop,hlst₂⟩ := removeLoop_spec hlist₁ hlst₁ hread₁ (Nat.zero_le _)
    (Nat.lt_succ_of_le hlst₁.length_le_fresh) hself
  rw [List.take_zero,List.nil_append,List.drop_zero] at hlst₂
  obtain ⟨ys',hs',hseqs⟩ := hun.change hlst₂
  refine ⟨_,ys',?_,hs',hseqs⟩
  simp only [ListsAction.step,remove,hres,hunhook,hlist₁,Option.bind_eq_bind,Option.bind_some]
  exact hloop

theorem removeAll_spec (hs : Stores s ys []) (hx : s.vars x = some (c,arrayMode)) (hval : val.seq (s.seqs ys) = some v)
    (hm : ListsAction.Meets equal s (.removeAll x val)) :
    ∃ s' ys', ListsAction.step type equal s (.removeAll x val) = some s' ∧ Stores s' ys' [] ∧
      s'.seqs ys' = Function.update (s.seqs ys) x (some (arrayMode,(ys c).filter (fun elem => !equal elem v))) := by
  obtain ⟨hcopies,houtlives⟩ := hm
  obtain ⟨s₁,c',zs,hunhook,hun,hzs⟩ := unhook_spec hs hx
  obtain rfl := hzs hcopies
  obtain ⟨lst₁,hlist₁,hlst₁⟩ := hun.list
  obtain ⟨ref,hres,-,hread₁,hplace⟩ := hun.resolve hs hlist₁ hval
  have hfollowed : Followed equal c' lst₁ (ys c) v ref := by
    rcases hplace with helse | ⟨rfl,i,hget,hin⟩
    · exact Or.inl helse
    · have hi := (List.getElem?_eq_some_iff.mp hget).1
      obtain ⟨y,rfl,hP⟩ := hin.inPlace hun.var
      rw [ListsAction.Outlives] at houtlives
      obtain ⟨hend,hself⟩ := hP _ houtlives
      obtain ⟨-,-,-,n,-,-,-,-,-,href,hn⟩ := hin
      have hlast : i + 1 = (ys c).length := by
        by_contra hne
        exact (hlst₁.iter_lt (by omega)).1 hend
      exact Or.inr ⟨n,i,href,hn,hget,hlast,hself v ((hlst₁.deref_iter hi).trans hget)⟩
  obtain ⟨lst₂,hloop,hlst₂⟩ := removeAllLoop_spec rfl hlist₁ hlst₁ (Nat.zero_le _)
    (Nat.lt_succ_of_le hlst₁.length_le_fresh) (fun _ => ⟨hfollowed,hread₁⟩)
  rw [List.take_zero,List.nil_append,List.drop_zero] at hlst₂
  obtain ⟨ys',hs',hseqs⟩ := hun.change hlst₂
  refine ⟨_,ys',?_,hs',hseqs⟩
  simp only [ListsAction.step,removeAll,hres,hunhook,hlist₁,Option.bind_eq_bind,Option.bind_some]
  exact hloop

/-- An element of an unshared list that is not the last is read after it is erased. -/
theorem removeAll_fault (hs : Stores s ys []) (hx : s.vars x = some (c,arrayMode)) (hc : s.impls c = some impl)
    (href : impl.ref = 1) {y i : ℕ} {mode : Bool} (hy : s.vars y = some (c,mode)) (hi : i + 1 < (ys c).length) :
    ListsAction.step type equal s (.removeAll x (.element y i)) = none := by
  have hunhook : unhook s x = some (s,c) := by
    simp only [unhook,hx,hc,Option.bind_eq_bind,Option.bind_some,if_pos href]
  have hlist := list_eq hc
  have hlst := hs.holds c impl hc
  obtain ⟨-,n,hn⟩ := hlst.iter_lt (Nat.lt_of_succ_lt hi)
  simp only [ListsAction.step,removeAll,resolve,hy,hlist,hn,hunhook,Option.bind_eq_bind,Option.bind_some]
  exact removeAllLoop_fault rfl hlist hlst (Nat.zero_le i) hi hn

end calls
end Lists

namespace ListsAction
open Edbus.Lists
variable {D : Type} (type : D → EdbusDataType) (equal : D → D → Bool) {s : Lists D} {ys : ℕ → List D}
  {xs' : ListSequences D}

/-- What is possible with sequences is possible with lists, with the same effect. -/
theorem step_spec (hs : Stores s ys []) (a : ListsAction D) (hseq : seqStep type equal (s.seqs ys) a = some xs')
    (hm : a.Meets equal s) :
    ∃ s' ys', step type equal s a = some s' ∧ Stores s' ys' [] ∧ s'.seqs ys' = xs' := by
  cases a with
  | create x arrayMode =>
    obtain ⟨hnone,hxs⟩ := Option.ite_none_right_eq_some.mp hseq
    cases hxs
    obtain ⟨ys',hs',hseqs⟩ := create_spec hs (seqs_eq_none.mp hnone) arrayMode
    exact ⟨_,ys',rfl,hs',hseqs⟩
  | copy x y =>
    obtain ⟨hnone,hmap⟩ := Option.ite_none_right_eq_some.mp hseq
    obtain ⟨⟨arrayMode,zs⟩,hy,hxs⟩ := Option.map_eq_some_iff.mp hmap
    obtain ⟨c,hvar,rfl⟩ := seqs_eq_some hy
    obtain ⟨s',hcopy,hs',hseqs⟩ := copy_spec hs (seqs_eq_none.mp hnone) hvar hm
    exact ⟨s',ys,hcopy,hs',hseqs.trans hxs⟩
  | assign x y =>
    obtain ⟨⟨modex,zx⟩,hx,hmap⟩ := Option.bind_eq_some_iff.mp hseq
    obtain ⟨⟨arrayMode,zs⟩,hy,hxs⟩ := Option.map_eq_some_iff.mp hmap
    obtain ⟨cx,hvarx,rfl⟩ := seqs_eq_some hx
    obtain ⟨c,hvar,rfl⟩ := seqs_eq_some hy
    obtain ⟨s',hassign,hs',hseqs⟩ := assign_spec hs hvarx hvar hm
    exact ⟨s',ys,hassign,hs',hseqs.trans hxs⟩
  | destroy x =>
    obtain ⟨⟨arrayMode,zs⟩,hx,hxs⟩ := Option.map_eq_some_iff.mp hseq
    obtain ⟨c,hvar,rfl⟩ := seqs_eq_some hx
    obtain ⟨s',hdestroy,hs',hseqs⟩ := destroy_spec hs hvar
    exact ⟨s',ys,hdestroy,hs',hseqs.trans hxs⟩
  | append x val =>
    obtain ⟨v,hval,hchange⟩ := Option.bind_eq_some_iff.mp hseq
    obtain ⟨⟨arrayMode,zs⟩,hx,hxs⟩ := Option.map_eq_some_iff.mp hchange
    obtain ⟨c,hvar,rfl⟩ := seqs_eq_some hx
    obtain ⟨s',ys',hstep,hs',hseqs⟩ := append_spec hs hvar hval hm
    exact ⟨s',ys',hstep,hs',hseqs.trans hxs⟩
  | remove x val =>
    obtain ⟨v,hval,hchange⟩ := Option.bind_eq_some_iff.mp hseq
    obtain ⟨⟨arrayMode,zs⟩,hx,hxs⟩ := Option.map_eq_some_iff.mp hchange
    obtain ⟨c,hvar,rfl⟩ := seqs_eq_some hx
    obtain ⟨s',ys',hstep,hs',hseqs⟩ := remove_spec hs hvar hval hm
    exact ⟨s',ys',hstep,hs',hseqs.trans hxs⟩
  | removeAll x val =>
    obtain ⟨v,hval,hchange⟩ := Option.bind_eq_some_iff.mp hseq
    obtain ⟨⟨arrayMode,zs⟩,hx,hxs⟩ := Option.map_eq_some_iff.mp hchange
    obtain ⟨c,hvar,rfl⟩ := seqs_eq_some hx
    obtain ⟨s',ys',hstep,hs',hseqs⟩ := removeAll_spec hs hvar hval hm
    exact ⟨s',ys',hstep,hs',hseqs.trans hxs⟩
  | clear x =>
    obtain ⟨⟨arrayMode,zs⟩,hx,hxs⟩ := Option.map_eq_some_iff.mp hseq
    obtain ⟨c,hvar,rfl⟩ := seqs_eq_some hx
    obtain ⟨s',ys',hstep,hs',hseqs⟩ := clear_spec hs hvar
    exact ⟨s',ys',hstep,hs',hseqs.trans hxs⟩

theorem run_spec (hs : Stores s ys []) (acts : List (ListsAction D))
    (hseq : Transition.exec (seqStep type equal) (s.seqs ys) acts = some xs')
    (hm : Transition.Along (step type equal) (Meets equal) s acts) :
    ∃ s' ys', Transition.exec (step type equal) s acts = some s' ∧ Stores s' ys' [] ∧ s'.seqs ys' = xs' := by
  induction acts generalizing s ys with
  | nil =>
    cases hseq
    exact ⟨s,ys,rfl,hs,rfl⟩
  | cons a acts ih =>
    obtain ⟨xs₁,hxs₁,hrest⟩ := Option.bind_eq_some_iff.mp hseq
    obtain ⟨ha,hacts⟩ := Transition.along_cons.mp hm
    obtain ⟨s₁,ys₁,hstep,hs₁,rfl⟩ := step_spec type equal hs a hxs₁ ha
    obtain ⟨s',ys',hrun,hs',hseqs⟩ := ih hs₁ hrest (hacts s₁ hstep)
    exact ⟨s',ys',by simpa [Transition.exec,hstep] using hrun,hs',hseqs⟩

/-- Every run refines the run with sequences. -/
theorem run_isSequences (acts : List (ListsAction D)) (xs : ListSequences D)
    (hseq : Transition.exec (seqStep type equal) (fun _ => none) acts = some xs)
    (hm : Transition.Along (step type equal) (Meets equal) empty acts) :
    ∃ s, Transition.exec (step type equal) empty acts = some s ∧ Refines s xs := by
  obtain ⟨s,ys,hrun,hs,rfl⟩ := run_spec type equal stores_empty acts hseq hm
  exact ⟨s,hrun,hs.refines⟩

/-- The first element is removed by itself while another handle has the list, and the last one alone. -/
theorem run_isSequences_shared :
    let equal : EdbusData → EdbusData → Bool := fun d other => dataEq (fun _ => false) d other == some true
    let acts : List (ListsAction EdbusData) := [create 0 true,append 0 (.value (.basic (.int32 7))),append 0 (.element 0 0),
      append 0 (.value (.basic (.int32 8))),append 0 (.value (.basic (.bool true))),copy 1 0,removeAll 0 (.element 0 0),
      removeAll 1 (.element 1 2),remove 1 (.element 1 1)]
    ∃ xs, Transition.exec (seqStep EdbusData.type equal) (fun _ => none) acts = some xs ∧
      xs 0 = some (true,[.basic (.int32 8)]) ∧ xs 1 = some (true,[.basic (.int32 7)]) ∧
      ∃ s, Transition.exec (step EdbusData.type equal) empty acts = some s ∧ Refines s xs :=
  ⟨_,rfl,rfl,rfl,run_isSequences _ _ _ _ rfl (by decide)⟩

/-- The first element is erased, and read for the second. -/
theorem not_run_isSequences :
    let equal : EdbusData → EdbusData → Bool := fun d other => dataEq (fun _ => false) d other == some true
    ¬ ∀ (acts : List (ListsAction EdbusData)) xs,
      Transition.exec (seqStep EdbusData.type equal) (fun _ => none) acts = some xs →
        ∃ s, Transition.exec (step EdbusData.type equal) empty acts = some s ∧ Refines s xs := by
  intro equal h
  obtain ⟨s,hs,-⟩ := h [create 0 false,append 0 (.value (.basic (.int32 7))),append 0 (.value (.basic (.int32 7))),
    removeAll 0 (.element 0 0)] _ rfl
  cases hs

end ListsAction
end Edelib.Edbus
