import Edelib.Resource.Resource

/-! # System settings that the user cannot change

Two runs make the same gets, each with its own configuration of the user and its own sets in
between. What a get leaves of the system configuration depends on the user's where the user's is
asked first: then the system configuration is read in one run and not in the other.
-/
namespace Edelib
open Foundation Config

structure Round (D F : Type) where
  sets : List ResourceSet
  sets' : List ResourceSet
  get : ResourceGet D F

namespace Resource
variable {D F : Type} (atof : CString → D) (narrow : D → F)

def roundStep (rs : Resource × Resource) (round : Round D F) : Option (Resource × Resource) :=
  some (((rs.1.storeAll round.sets).fetch atof narrow round.get).2,
    ((rs.2.storeAll round.sets').fetch atof narrow round.get).2)

/-- A get of the system configuration alone answers the same in both runs. -/
def SysOnlyAgrees (rs : Resource × Resource) (round : Round D F) : Prop :=
  round.get.rt = .sysOnly →
    ((rs.1.storeAll round.sets).fetch atof narrow round.get).1 =
      ((rs.2.storeAll round.sets').fetch atof narrow round.get).1

def LeftToSys (r : Resource) (g : ResourceGet D F) : Prop :=
  g.rt = .userFirst ∧ (r.fromUser atof narrow g.call).1.found = false

instance (r : Resource) (g : ResourceGet D F) : Decidable (r.LeftToSys atof narrow g) :=
  inferInstanceAs (Decidable (g.rt = .userFirst ∧ (r.fromUser atof narrow g.call).1.found = false))

def HarmlessInSys (r : Resource) (g : ResourceGet D F) : Prop := ∀ c ∈ r.sysConf, g.call.Harmless c

instance (r : Resource) (g : ResourceGet D F) : Decidable (r.HarmlessInSys g) :=
  inferInstanceAs (Decidable (∀ c ∈ r.sysConf, g.call.Harmless c))

/-- If the get is left to the system configuration in one run only, it changes nothing there. -/
def RoundSafe (rs : Resource × Resource) (round : Round D F) : Prop :=
  (LeftToSys atof narrow (rs.1.storeAll round.sets) round.get →
    ¬ LeftToSys atof narrow (rs.2.storeAll round.sets') round.get →
    rs.1.HarmlessInSys round.get) ∧
  (LeftToSys atof narrow (rs.2.storeAll round.sets') round.get →
    ¬ LeftToSys atof narrow (rs.1.storeAll round.sets) round.get →
    rs.2.HarmlessInSys round.get)

instance (rs : Resource × Resource) (round : Round D F) : Decidable (RoundSafe atof narrow rs round) := by
  unfold RoundSafe
  infer_instance

/-! ## The system configuration -/

@[simp] theorem storeAll_sysConf (r : Resource) (sets : List ResourceSet) : (r.storeAll sets).sysConf = r.sysConf := by
  induction sets generalizing r with
  | nil => rfl
  | cons s sets ih => exact ih (r.store s)

def SysAlike (sys sys' : Option Config) : Prop := Option.Rel SameLookups sys sys'

variable {atof narrow} {r r' : Resource} {g : ResourceGet D F}

/-- What a get leaves of the system configuration: it is read, or it is as before. -/
theorem fetch_sysConf (r : Resource) (g : ResourceGet D F) : (r.fetch atof narrow g).2.sysConf =
    if g.rt = .sysOnly ∨ g.rt = .sysFirst ∨ LeftToSys atof narrow r g then
      r.sysConf.map (fun c => g.call.state atof narrow c)
    else r.sysConf := by
  have hsys : ∀ r : Resource, (r.fromSys atof narrow g.call).2.sysConf =
      r.sysConf.map (fun c => g.call.state atof narrow c) := by
    intro r
    unfold fromSys
    cases hc : r.sysConf <;> simp [hc]
  obtain ⟨call,hget,rt⟩ := g
  simp only at hsys
  unfold fetch LeftToSys
  cases rt with
  | sysOnly => simpa using hsys r
  | userOnly => simpa using fromUser_sysConf atof narrow r call
  | sysFirst =>
    dsimp only
    split_ifs <;> simp_all [fromUser_sysConf]
  | userFirst =>
    dsimp only
    split_ifs <;> simp_all [fromUser_sysConf]

theorem SysAlike.roundStep {rs : Resource × Resource} {round : Round D F} (h : SysAlike rs.1.sysConf rs.2.sysConf)
    (hsafe : RoundSafe atof narrow rs round) :
    SysAlike ((rs.1.storeAll round.sets).fetch atof narrow round.get).2.sysConf
      ((rs.2.storeAll round.sets').fetch atof narrow round.get).2.sysConf := by
  rw [fetch_sysConf,fetch_sysConf,storeAll_sysConf,storeAll_sysConf]
  cases hs : rs.1.sysConf with
  | none =>
    rw [hs] at h
    cases hs' : rs.2.sysConf with
    | none =>
      simp only [Option.map_none,ite_self]
      exact .none
    | some c' =>
      rw [hs'] at h
      cases h
  | some c =>
    rw [hs] at h
    cases hs' : rs.2.sysConf with
    | none =>
      rw [hs'] at h
      cases h
    | some c' =>
      rw [hs'] at h
      obtain ⟨hcc⟩ := h
      -- the two runs read the system configuration, or neither does, or one does so in vain
      by_cases hread : round.get.rt = .sysOnly ∨ round.get.rt = .sysFirst
      · rw [if_pos (by tauto),if_pos (by tauto)]
        exact .some (hcc.state round.get.call)
      · by_cases hl : LeftToSys atof narrow (rs.1.storeAll round.sets) round.get <;>
          by_cases hl' : LeftToSys atof narrow (rs.2.storeAll round.sets') round.get
        · rw [if_pos (by tauto),if_pos (by tauto)]
          exact .some (hcc.state round.get.call)
        · rw [if_pos (by tauto),if_neg (by tauto)]
          have hkeep : SameLookups c (round.get.call.state atof narrow c) := (hsafe.1 hl hl' c hs).sameLookups
          exact .some (hkeep.symm.trans hcc)
        · rw [if_neg (by tauto),if_pos (by tauto)]
          have hkeep : SameLookups c' (round.get.call.state atof narrow c') := (hsafe.2 hl' hl c' hs').sameLookups
          exact .some (hcc.trans hkeep)
        · rw [if_neg (by tauto),if_neg (by tauto)]
          exact .some hcc

theorem SysAlike.sysOnlyAgrees {rs : Resource × Resource} {round : Round D F}
    (h : SysAlike rs.1.sysConf rs.2.sysConf) :
    SysOnlyAgrees atof narrow rs round := by
  intro hrt
  have hs := storeAll_sysConf rs.1 round.sets
  have hs' := storeAll_sysConf rs.2 round.sets'
  unfold fetch
  simp only [hrt,fromSys,hs,hs']
  cases hc : rs.1.sysConf with
  | none =>
    rw [hc] at h
    cases hc' : rs.2.sysConf with
    | none => rfl
    | some c' =>
      rw [hc'] at h
      cases h
  | some c =>
    rw [hc] at h
    cases hc' : rs.2.sysConf with
    | none =>
      rw [hc'] at h
      cases h
    | some c' =>
      rw [hc'] at h
      obtain ⟨hcc⟩ := h
      exact (hcc.answer round.get.call).symm

theorem sysAlike_refl (sys : Option Config) : SysAlike sys sys := by
  cases sys with
  | none => exact .none
  | some c => exact .some (SameLookups.refl c)

/-- Two runs of the same gets on one system configuration, with any two configurations of the
user and any sets in between, get the same answers from the system configuration alone, if every
get that is left to it in one of the runs only changes nothing there. -/
theorem sysOnly_independent (atof : CString → D) (narrow : D → F) (sys user user' : Option Config)
    (rounds : List (Round D F))
    (h : Transition.Along (roundStep atof narrow) (RoundSafe atof narrow) (⟨sys,user⟩,⟨sys,user'⟩) rounds) :
    Transition.Along (roundStep atof narrow) (SysOnlyAgrees atof narrow) (⟨sys,user⟩,⟨sys,user'⟩) rounds := by
  refine h.imp (I := fun rs => SysAlike rs.1.sysConf rs.2.sysConf) (fun rs round hrs _ => hrs.sysOnlyAgrees) ?_
    (sysAlike_refl sys)
  intro rs round rs' hrs hsafe hstep
  cases hstep
  exact hrs.roundStep hsafe

instance [DecidableEq D] [DecidableEq F] (rs : Resource × Resource) (round : Round D F) :
    Decidable (SysOnlyAgrees atof narrow rs round) :=
  inferInstanceAs (Decidable (_ → _))

/-- A `bool` that only one user overrides, and then the system's value of it. -/
def overriddenRounds : List (Round Unit Unit) :=
  [⟨[],[.set (CString.ofBuf [83]) (CString.ofBuf [76]) (CString.ofBuf [49])],
    ⟨.bool (CString.ofBuf [83]) (CString.ofBuf [75]) false,rfl,.userFirst⟩⟩,
    ⟨[],[],⟨.getAllocated (CString.ofBuf [83]) (CString.ofBuf [75]),rfl,.sysOnly⟩⟩]

theorem sysOnly_independent_lower_case :
    Transition.Along (roundStep (fun _ => ()) (fun _ => ())) (SysOnlyAgrees (fun _ => ()) (fun _ => ()))
      (⟨some (run [⟨CString.ofBuf [83],CString.ofBuf [75],CString.ofBuf [116,114,117,101]⟩]),none⟩,
        ⟨some (run [⟨CString.ofBuf [83],CString.ofBuf [75],CString.ofBuf [116,114,117,101]⟩]),
          some (run [⟨CString.ofBuf [83],CString.ofBuf [75],CString.ofBuf [48]⟩])⟩) overriddenRounds :=
  sysOnly_independent _ _ _ _ _ _ (by decide +kernel)

/-- Where the system's value is `True`, it reads `true` in the run without a user's value. -/
theorem not_sysOnly_independent :
    ¬ Transition.Along (roundStep (fun _ => ()) (fun _ => ())) (SysOnlyAgrees (fun _ => ()) (fun _ => ()))
      (⟨some (run [⟨CString.ofBuf [83],CString.ofBuf [75],CString.ofBuf [84,114,117,101]⟩]),none⟩,
        ⟨some (run [⟨CString.ofBuf [83],CString.ofBuf [75],CString.ofBuf [84,114,117,101]⟩]),
          some (run [⟨CString.ofBuf [83],CString.ofBuf [75],CString.ofBuf [48]⟩])⟩) overriddenRounds := by
  decide +kernel

end Resource
end Edelib
