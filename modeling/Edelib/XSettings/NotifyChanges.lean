import Edelib.XSettings.Wire

/-! # Reporting changes to a client

After a read the client walks its old and its new list and calls back for every
difference. Both iterators advance at every step, so the calls are the difference of
the lists only when the names of one are a prefix of the names of the other.
-/
namespace Edelib.XSettings
open Foundation SortedList

inductive XSettingsAction
  | new | changed | deleted
deriving DecidableEq, Repr

/-- One call of the callback; a deleted setting is passed as NULL. -/
structure CallbackCall where
  name : CString
  action : XSettingsAction
  setting : Option XSettingsSetting
deriving DecidableEq

def deletedCall (old : XSettingsSetting) : CallbackCall := ⟨old.name,.deleted,none⟩

def newCall (new : XSettingsSetting) : CallbackCall := ⟨new.name,.new,some new⟩

def changedCalls (old new : XSettingsSetting) : List CallbackCall :=
  if settingEqual old new = false then [⟨old.name,.changed,some new⟩] else []

def notifyLoop : XSettingsList → XSettingsList → List CallbackCall
  | [], [] => []
  | oldIter :: olds, [] => deletedCall oldIter :: notifyLoop olds []
  | [], newIter :: news => newCall newIter :: notifyLoop [] news
  | oldIter :: olds, newIter :: news =>
    let cmp := oldIter.name.strcmp newIter.name
    if cmp < 0 then deletedCall oldIter :: notifyLoop olds news
    else if cmp = 0 then changedCalls oldIter newIter ++ notifyLoop olds news
    else newCall newIter :: notifyLoop olds news

def notifyChanges (client : XSettingsData) (oldSettings : XSettingsList) (callback : Bool) :
    List CallbackCall :=
  if callback = false then [] else notifyLoop oldSettings client.settings

/-! ## The difference of two lists -/

def Reported (old new : XSettingsList) (call : CallbackCall) : Prop :=
  (∃ s ∈ old, (∀ s' ∈ new, s'.name ≠ s.name) ∧ call = deletedCall s) ∨
  (∃ s' ∈ new, (∀ s ∈ old, s.name ≠ s'.name) ∧ call = newCall s') ∨
  (∃ s ∈ old, ∃ s' ∈ new, s.name = s'.name ∧ call ∈ changedCalls s s')

/-- Exactly the difference, each name once, in the order of the names. -/
structure ExactDifference (old new : XSettingsList) (calls : List CallbackCall) : Prop where
  ordered : StrictSorted CallbackCall.name calls
  mem_iff : ∀ call, call ∈ calls ↔ Reported old new call

variable {old new : XSettingsSetting} {olds news : XSettingsList} {call : CallbackCall}

theorem name_of_mem_changedCalls (h : call ∈ changedCalls old new) : call.name = old.name := by
  unfold changedCalls at h
  split_ifs at h
  · rw [List.mem_singleton.mp h]
  · cases h

theorem Reported.name_mem (h : Reported olds news call) :
    (∃ s ∈ olds, call.name = s.name) ∨ ∃ s ∈ news, call.name = s.name := by
  rcases h with ⟨s,hs,-,rfl⟩ | ⟨s,hs,-,rfl⟩ | ⟨s,hs,s',hs',-,hcall⟩
  · exact Or.inl ⟨s,hs,rfl⟩
  · exact Or.inr ⟨s,hs,rfl⟩
  · exact Or.inl ⟨s,hs,name_of_mem_changedCalls hcall⟩

/-- Two settings of different names make the loop report the smaller one. -/
theorem notifyLoop_cons (old new : XSettingsSetting) (olds news : XSettingsList) :
    notifyLoop (old :: olds) (new :: news) =
      (if old.name < new.name then [deletedCall old]
        else if old.name = new.name then changedCalls old new
        else [newCall new]) ++ notifyLoop olds news := by
  simp only [notifyLoop,CString.strcmp_neg,CString.strcmp_eq_zero]
  split_ifs <;> rfl

theorem notifyLoop_nil_left (news : XSettingsList) : notifyLoop [] news = news.map newCall := by
  induction news with
  | nil => rw [notifyLoop,List.map_nil]
  | cons new news ih => rw [notifyLoop,ih,List.map_cons]

theorem notifyLoop_nil_right (olds : XSettingsList) : notifyLoop olds [] = olds.map deletedCall := by
  induction olds with
  | nil => rw [notifyLoop,List.map_nil]
  | cons old olds ih => rw [notifyLoop,ih,List.map_cons]

theorem name_mem_of_notifyLoop {olds news : XSettingsList} (h : call ∈ notifyLoop olds news) :
    (∃ s ∈ olds, call.name = s.name) ∨ ∃ s ∈ news, call.name = s.name := by
  induction olds generalizing news with
  | nil =>
    rw [notifyLoop_nil_left] at h
    obtain ⟨s,hs,rfl⟩ := List.mem_map.mp h
    exact Or.inr ⟨s,hs,rfl⟩
  | cons old olds ih =>
    cases news with
    | nil =>
      rw [notifyLoop_nil_right] at h
      obtain ⟨s,hs,rfl⟩ := List.mem_map.mp h
      exact Or.inl ⟨s,hs,rfl⟩
    | cons new news =>
      rw [notifyLoop_cons] at h
      rcases List.mem_append.mp h with h | h
      · split_ifs at h
        · rw [List.mem_singleton.mp h]
          exact Or.inl ⟨old,List.mem_cons_self,rfl⟩
        · exact Or.inl ⟨old,List.mem_cons_self,name_of_mem_changedCalls h⟩
        · rw [List.mem_singleton.mp h]
          exact Or.inr ⟨new,List.mem_cons_self,rfl⟩
      · rcases ih h with ⟨s,hs,hname⟩ | ⟨s,hs,hname⟩
        · exact Or.inl ⟨s,List.mem_cons_of_mem _ hs,hname⟩
        · exact Or.inr ⟨s,List.mem_cons_of_mem _ hs,hname⟩

/-! ## Lists whose names agree as far as both go -/

theorem exactDifference_nil_left (h : Sorted news) : ExactDifference [] news (notifyLoop [] news) := by
  rw [notifyLoop_nil_left]
  constructor
  · exact List.pairwise_map.mpr h
  · intro call
    simp [Reported,List.mem_map,eq_comm]

theorem exactDifference_nil_right (h : Sorted olds) : ExactDifference olds [] (notifyLoop olds []) := by
  rw [notifyLoop_nil_right]
  constructor
  · exact List.pairwise_map.mpr h
  · intro call
    simp [Reported,List.mem_map,eq_comm]

/-- Two first settings of one name add their own call to the difference. -/
theorem reported_cons (ho : Sorted (old :: olds)) (hn : Sorted (new :: news)) (hname : old.name = new.name) :
    Reported (old :: olds) (new :: news) call ↔ call ∈ changedCalls old new ∨ Reported olds news call := by
  obtain ⟨ho,-⟩ := (strictSorted_cons _).mp ho
  obtain ⟨hn,-⟩ := (strictSorted_cons _).mp hn
  have holds : ∀ s ∈ olds, new.name ≠ s.name := fun s hs => hname ▸ ne_of_lt (ho s hs)
  have hnews : ∀ s ∈ news, old.name ≠ s.name := fun s hs => hname ▸ ne_of_lt (hn s hs)
  constructor
  · rintro (⟨s,hs,hno,rfl⟩ | ⟨s,hs,hno,rfl⟩ | ⟨s,hs,s',hs',heq,hcall⟩)
    · rcases List.mem_cons.mp hs with rfl | hs
      · exact absurd hname.symm (hno new List.mem_cons_self)
      · exact Or.inr (Or.inl ⟨s,hs,fun s' hs' => hno s' (List.mem_cons_of_mem _ hs'),rfl⟩)
    · rcases List.mem_cons.mp hs with rfl | hs
      · exact absurd hname (hno old List.mem_cons_self)
      · exact Or.inr (Or.inr (Or.inl ⟨s,hs,fun s' hs' => hno s' (List.mem_cons_of_mem _ hs'),rfl⟩))
    · rcases List.mem_cons.mp hs with rfl | hs
      · rcases List.mem_cons.mp hs' with rfl | hs'
        · exact Or.inl hcall
        · exact absurd heq (hnews s' hs')
      · rcases List.mem_cons.mp hs' with rfl | hs'
        · exact absurd heq.symm (holds s hs)
        · exact Or.inr (Or.inr (Or.inr ⟨s,hs,s',hs',heq,hcall⟩))
  · rintro (hcall | ⟨s,hs,hno,rfl⟩ | ⟨s,hs,hno,rfl⟩ | ⟨s,hs,s',hs',heq,hcall⟩)
    · exact Or.inr (Or.inr ⟨old,List.mem_cons_self,new,List.mem_cons_self,hname,hcall⟩)
    · refine Or.inl ⟨s,List.mem_cons_of_mem _ hs,fun s' hs' => ?_,rfl⟩
      rcases List.mem_cons.mp hs' with rfl | hs'
      · exact holds s hs
      · exact hno s' hs'
    · refine Or.inr (Or.inl ⟨s,List.mem_cons_of_mem _ hs,fun s' hs' => ?_,rfl⟩)
      rcases List.mem_cons.mp hs' with rfl | hs'
      · exact hnews s hs
      · exact hno s' hs'
    · exact Or.inr (Or.inr ⟨s,List.mem_cons_of_mem _ hs,s',List.mem_cons_of_mem _ hs',heq,hcall⟩)

theorem exactDifference_cons (ho : Sorted (old :: olds)) (hn : Sorted (new :: news))
    (hname : old.name = new.name) :
    ExactDifference (old :: olds) (new :: news) (notifyLoop (old :: olds) (new :: news)) ↔
      ExactDifference olds news (notifyLoop olds news) := by
  have hlt : ∀ call : CallbackCall, ((∃ s ∈ olds, call.name = s.name) ∨ ∃ s ∈ news, call.name = s.name) →
      old.name < call.name := by
    rintro call (⟨s,hs,hcall⟩ | ⟨s,hs,hcall⟩)
    · exact hcall ▸ ((strictSorted_cons _).mp ho).1 s hs
    · exact hcall ▸ hname ▸ ((strictSorted_cons _).mp hn).1 s hs
  have hdisjoint : ∀ call ∈ changedCalls old new, ¬ old.name < call.name := by
    intro call hcall
    rw [name_of_mem_changedCalls hcall]
    exact lt_irrefl _
  have hloop : notifyLoop (old :: olds) (new :: news) = changedCalls old new ++ notifyLoop olds news := by
    rw [notifyLoop_cons,if_neg (hname ▸ lt_irrefl _),if_pos hname]
  rw [hloop]
  constructor
  · intro h
    refine ⟨(List.pairwise_append.mp h.ordered).2.1,fun call => ⟨fun hcall => ?_,fun hcall => ?_⟩⟩
    · have hrep := (reported_cons ho hn hname).mp ((h.mem_iff call).mp (List.mem_append_right _ hcall))
      exact hrep.resolve_left (fun hch => hdisjoint call hch (hlt call (name_mem_of_notifyLoop hcall)))
    · have hmem := (h.mem_iff call).mpr ((reported_cons ho hn hname).mpr (Or.inr hcall))
      exact (List.mem_append.mp hmem).resolve_left (fun hch => hdisjoint call hch (hlt call hcall.name_mem))
  · intro h
    refine ⟨List.pairwise_append.mpr ⟨?_,h.ordered,?_⟩,fun call => ?_⟩
    · unfold changedCalls
      split_ifs
      · exact List.pairwise_singleton _ _
      · exact List.Pairwise.nil
    · intro call hcall call' hcall'
      rw [name_of_mem_changedCalls hcall]
      exact hlt call' (name_mem_of_notifyLoop hcall')
    · rw [List.mem_append,h.mem_iff,reported_cons ho hn hname]

/-! ## Lists that disagree -/

theorem Reported.of_deletedCall {s : XSettingsSetting} (h : Reported olds news (deletedCall s)) :
    ∀ s' ∈ news, s'.name ≠ s.name := by
  rcases h with ⟨t,-,hno,hcall⟩ | ⟨t,-,-,hcall⟩ | ⟨t,-,t',-,-,hcall⟩
  · have hname : s.name = t.name := congrArg CallbackCall.name hcall
    rw [hname]
    exact hno
  · cases congrArg CallbackCall.action hcall
  · unfold changedCalls at hcall
    split_ifs at hcall
    · cases congrArg CallbackCall.action (List.mem_singleton.mp hcall)
    · cases hcall

theorem Reported.of_newCall {s : XSettingsSetting} (h : Reported olds news (newCall s)) :
    ∀ t ∈ olds, t.name ≠ s.name := by
  rcases h with ⟨t,-,-,hcall⟩ | ⟨t,-,hno,hcall⟩ | ⟨t,-,t',-,-,hcall⟩
  · cases congrArg CallbackCall.action hcall
  · have hname : s.name = t.name := congrArg CallbackCall.name hcall
    rw [hname]
    exact hno
  · unfold changedCalls at hcall
    split_ifs at hcall
    · cases congrArg CallbackCall.action (List.mem_singleton.mp hcall)
    · cases hcall

/-- A setting below every new name is reported as deleted. -/
theorem deletedCall_mem {s : XSettingsSetting} (hs : s ∈ olds) (h : ∀ s' ∈ news, s.name < s'.name) :
    deletedCall s ∈ notifyLoop olds news := by
  induction olds generalizing news with
  | nil => cases hs
  | cons old olds ih =>
    cases news with
    | nil =>
      rw [notifyLoop_nil_right]
      exact List.mem_map_of_mem hs
    | cons new news =>
      rw [notifyLoop_cons]
      rcases List.mem_cons.mp hs with rfl | hs
      · rw [if_pos (h new List.mem_cons_self)]
        exact List.mem_cons_self
      · exact List.mem_append_right _ (ih hs (fun s' hs' => h s' (List.mem_cons_of_mem _ hs')))

theorem newCall_mem {s : XSettingsSetting} (hs : s ∈ news) (h : ∀ s' ∈ olds, s.name < s'.name) :
    newCall s ∈ notifyLoop olds news := by
  induction olds generalizing news with
  | nil =>
    rw [notifyLoop_nil_left]
    exact List.mem_map_of_mem hs
  | cons old olds ih =>
    cases news with
    | nil => cases hs
    | cons new news =>
      rw [notifyLoop_cons]
      rcases List.mem_cons.mp hs with rfl | hs
      · have hlt := h old List.mem_cons_self
        rw [if_neg (not_lt_of_gt hlt),if_neg (ne_of_gt hlt)]
        exact List.mem_cons_self
      · exact List.mem_append_right _ (ih hs (fun s' hs' => h s' (List.mem_cons_of_mem _ hs')))

/-- A call whose name is on neither list, and which is not the first one made, is not made. -/
theorem not_mem_cons_notifyLoop {c call : CallbackCall} (haction : call.action ≠ c.action)
    (ho : ∀ s ∈ olds, s.name ≠ call.name) (hn : ∀ s ∈ news, s.name ≠ call.name) :
    call ∉ [c] ++ notifyLoop olds news := by
  intro hmem
  rcases List.mem_append.mp hmem with hhead | htail
  · exact haction (congrArg CallbackCall.action (List.mem_singleton.mp hhead))
  · rcases name_mem_of_notifyLoop htail with ⟨s,hs,heq⟩ | ⟨s,hs,heq⟩
    · exact ho s hs heq.symm
    · exact hn s hs heq.symm

/-- The smaller of two different first names makes the report wrong: the other setting is
either missed, or its namesake is reported as if it were alone. -/
theorem not_exactDifference (ho : Sorted (old :: olds)) (hn : Sorted (new :: news))
    (hname : old.name ≠ new.name) :
    ¬ ExactDifference (old :: olds) (new :: news) (notifyLoop (old :: olds) (new :: news)) := by
  intro h
  obtain ⟨hos,-⟩ := (strictSorted_cons _).mp ho
  obtain ⟨hns,-⟩ := (strictSorted_cons _).mp hn
  rcases lt_or_gt_of_ne hname with hlt | hgt
  · have hloop : notifyLoop (old :: olds) (new :: news) = [deletedCall old] ++ notifyLoop olds news := by
      rw [notifyLoop_cons,if_pos hlt]
    by_cases htwin : ∃ s ∈ olds, s.name = new.name
    · obtain ⟨s,hs,heq⟩ := htwin
      have hdel : deletedCall s ∈ notifyLoop (old :: olds) (new :: news) :=
        hloop ▸ List.mem_append_right _ (deletedCall_mem hs (fun s' hs' => heq ▸ hns s' hs'))
      exact ((h.mem_iff _).mp hdel).of_deletedCall new List.mem_cons_self heq.symm
    · have hmissed : newCall new ∈ notifyLoop (old :: olds) (new :: news) := by
        refine (h.mem_iff _).mpr (Or.inr (Or.inl ⟨new,List.mem_cons_self,fun s hs => ?_,rfl⟩))
        rcases List.mem_cons.mp hs with rfl | hs
        · exact hname
        · exact fun heq => htwin ⟨s,hs,heq⟩
      rw [hloop] at hmissed
      have haction : (newCall new).action ≠ (deletedCall old).action := by
        intro heq
        cases heq
      exact not_mem_cons_notifyLoop haction (fun s hs heq => htwin ⟨s,hs,heq⟩)
        (fun s hs => ne_of_gt (hns s hs)) hmissed
  · have hloop : notifyLoop (old :: olds) (new :: news) = [newCall new] ++ notifyLoop olds news := by
      rw [notifyLoop_cons,if_neg (not_lt_of_gt hgt),if_neg hname]
    by_cases htwin : ∃ s ∈ news, s.name = old.name
    · obtain ⟨s,hs,heq⟩ := htwin
      have hnew : newCall s ∈ notifyLoop (old :: olds) (new :: news) :=
        hloop ▸ List.mem_append_right _ (newCall_mem hs (fun s' hs' => heq ▸ hos s' hs'))
      exact ((h.mem_iff _).mp hnew).of_newCall old List.mem_cons_self heq.symm
    · have hmissed : deletedCall old ∈ notifyLoop (old :: olds) (new :: news) := by
        refine (h.mem_iff _).mpr (Or.inl ⟨old,List.mem_cons_self,fun s hs => ?_,rfl⟩)
        rcases List.mem_cons.mp hs with rfl | hs
        · exact Ne.symm hname
        · exact fun heq => htwin ⟨s,hs,heq⟩
      rw [hloop] at hmissed
      have haction : (deletedCall old).action ≠ (newCall new).action := by
        intro heq
        cases heq
      exact not_mem_cons_notifyLoop haction (fun s hs => ne_of_gt (hos s hs))
        (fun s hs heq => htwin ⟨s,hs,heq⟩) hmissed

def NamesAgree (olds news : XSettingsList) : Prop :=
  olds.map XSettingsSetting.name <+: news.map XSettingsSetting.name ∨
    news.map XSettingsSetting.name <+: olds.map XSettingsSetting.name

instance (olds news : XSettingsList) : Decidable (NamesAgree olds news) :=
  inferInstanceAs (Decidable (_ ∨ _))

/-- The calls made with a callback installed are exactly the difference of two sorted
lists if and only if the names of one list are the first names of the other. -/
theorem notifyChanges_exact_iff (client : XSettingsData) (oldSettings : XSettingsList)
    (ho : Sorted oldSettings) (hn : Sorted client.settings) :
    ExactDifference oldSettings client.settings (notifyChanges client oldSettings true) ↔
      NamesAgree oldSettings client.settings := by
  obtain ⟨news,serial⟩ := client
  change ExactDifference oldSettings news (notifyLoop oldSettings news) ↔ NamesAgree oldSettings news
  change Sorted news at hn
  induction oldSettings generalizing news with
  | nil => exact iff_of_true (exactDifference_nil_left hn) (Or.inl List.nil_prefix)
  | cons old olds ih =>
    cases news with
    | nil => exact iff_of_true (exactDifference_nil_right ho) (Or.inr List.nil_prefix)
    | cons new news =>
      have hstart : NamesAgree (old :: olds) (new :: news) ↔ old.name = new.name ∧ NamesAgree olds news := by
        simp only [NamesAgree,List.map_cons,List.cons_prefix_cons,eq_comm (a := new.name),and_or_left]
      by_cases hname : old.name = new.name
      · rw [exactDifference_cons ho hn hname,hstart,ih ((strictSorted_cons _).mp ho).2 news
          ((strictSorted_cons _).mp hn).2]
        exact (and_iff_right hname).symm
      · exact iff_of_false (not_exactDifference ho hn hname) (fun h => hname (hstart.mp h).1)

/-- A changed setting, an equal one and a new one. -/
theorem notifyChanges_exact_append :
    ExactDifference [⟨CString.ofBuf [65],.int 1,0⟩,⟨CString.ofBuf [66],.int 2,0⟩]
      [⟨CString.ofBuf [65],.int 5,1⟩,⟨CString.ofBuf [66],.int 2,0⟩,⟨CString.ofBuf [67],.int 3,1⟩]
      (notifyChanges ⟨[⟨CString.ofBuf [65],.int 5,1⟩,⟨CString.ofBuf [66],.int 2,0⟩,
        ⟨CString.ofBuf [67],.int 3,1⟩],1⟩
        [⟨CString.ofBuf [65],.int 1,0⟩,⟨CString.ofBuf [66],.int 2,0⟩] true) :=
  (notifyChanges_exact_iff ⟨_,1⟩ _ (by decide +kernel) (by decide +kernel)).mpr (by decide +kernel)

/-- The setting `A` was replaced by `B`: the loop reports the deletion of `A` only. -/
theorem not_notifyChanges_exact_replaced :
    ¬ ExactDifference [⟨CString.ofBuf [65],.int 1,0⟩] [⟨CString.ofBuf [66],.int 1,0⟩]
      (notifyChanges ⟨[⟨CString.ofBuf [66],.int 1,0⟩],0⟩ [⟨CString.ofBuf [65],.int 1,0⟩] true) :=
  not_exactDifference (by decide +kernel) (by decide +kernel) (by decide +kernel)

end Edelib.XSettings
