import Edelib.Icon.ThemeTree

/-! # When loading ends

Themes are followed wherever their indices lead, and only the fallback is remembered: a theme
that comes back to itself is followed for ever.
-/
namespace Edelib.IconTheme
open Foundation Unfolding
variable {env : IconEnv}

def nameIn (dir path : CString) : CString :=
  CString.ofBuf ((path.bytes.drop dir.strlen).take (path.strlen - dir.strlen - (dirSeparator ++ indexTheme).strlen))

theorem nameIn_append (dir name : CString) : nameIn dir (dir ++ name ++ dirSeparator ++ indexTheme) = name := by
  have hdrop : (dir ++ name ++ dirSeparator ++ indexTheme).bytes.drop dir.strlen =
      name.bytes ++ (dirSeparator ++ indexTheme).bytes := by
    simp [CString.strlen]
  have hlen : (dir ++ name ++ dirSeparator ++ indexTheme).strlen - dir.strlen - (dirSeparator ++ indexTheme).strlen =
      name.bytes.length := by
    simp only [CString.strlen,CString.append_bytes,List.length_append]
    omega
  rw [nameIn,hdrop,hlen,List.take_left,CString.ofBuf_bytes]

theorem finite_parentsOf : {name | parentsOf env name ≠ []}.Finite := by
  refine (((initBaseDirs env).flatMap (fun dir => env.files.map (fun f => nameIn dir f.1))).finite_toSet).subset
    (fun name hname => ?_)
  cases hindex : findIndex env name with
  | none =>
    refine absurd ?_ hname
    rw [parentsOf,readTheme,hindex]
    rfl
  | some c =>
    obtain ⟨dir,hdir,hlookup⟩ := List.exists_of_findSome?_eq_some hindex
    obtain ⟨before,after,hfiles,-⟩ := List.lookup_eq_some_iff.mp hlookup
    have hmem : (dir ++ name ++ dirSeparator ++ indexTheme,c) ∈ env.files := by
      rw [hfiles]
      exact List.mem_append_right before List.mem_cons_self
    have hname' : name ∈ env.files.map (fun f => nameIn dir f.1) := by
      have h := List.mem_map_of_mem (f := fun f : CString × Config => nameIn dir f.1) hmem
      rwa [nameIn_append] at h
    exact List.mem_flatMap.mpr ⟨dir,hdir,hname'⟩

/-- The themes that loading comes to; the fallback is one of them if a theme names none to go on to. -/
def Visited (env : IconEnv) (name t : CString) : Prop :=
  Reaches (parentsOf env) name t ∨
    (∃ s, Reaches (parentsOf env) name s ∧ NoInherits env s) ∧ Reaches (parentsOf env) fallbackTheme t

theorem exists_leaf_iff {depth : ℕ} {name : CString} {l : List (List ℕ × CString)}
    (hwalk : walk (parentsOf env) depth name = some l) :
    (∃ v ∈ l, NoInherits env v.2) ↔ ∃ s, Reaches (parentsOf env) name s ∧ NoInherits env s := by
  constructor
  · rintro ⟨v,hv,hno⟩
    exact ⟨v.2,exists_way_iff.mp ⟨v.1,(mem_walk hwalk v.1 v.2).mp hv⟩,hno⟩
  · rintro ⟨s,hs,hno⟩
    obtain ⟨p,hp⟩ := exists_way_iff.mpr hs
    exact ⟨(p,s),(mem_walk hwalk p s).mpr hp,hno⟩

theorem acyclic_of_load {depth : ℕ} {name : CString} {priv : IconThemePrivate} (hload : load env depth name = some priv)
    {t : CString} (ht : Visited env name t) : ¬ Relation.TransGen (Step (parentsOf env)) t t := by
  obtain ⟨l,hwalk,⟨-,h,hh,-⟩⟩ := loadTheme_grafted depth name rfl hload
  rcases ht with ht | ⟨hleaf,ht⟩
  · exact (acc_iff finite_parentsOf).mp (exists_walk_iff.mp ⟨depth,l,hwalk⟩) t ht
  · exact (acc_iff finite_parentsOf).mp (exists_walk_iff.mp ⟨depth,h,hh ((exists_leaf_iff hwalk).mpr hleaf)⟩) t ht

theorem exists_load {name : CString}
    (hacyclic : ∀ t, Visited env name t → ¬ Relation.TransGen (Step (parentsOf env)) t t) :
    ∃ depth priv, load env depth name = some priv := by
  obtain ⟨n,l,hwalk⟩ := exists_walk_iff.mpr ((acc_iff finite_parentsOf).mpr (fun t ht => hacyclic t (Or.inl ht)))
  by_cases hleaf : ∃ s, Reaches (parentsOf env) name s ∧ NoInherits env s
  · obtain ⟨m,h,hh⟩ := exists_walk_iff.mpr ((acc_iff finite_parentsOf).mpr (fun t ht => hacyclic t (Or.inr ⟨hleaf,ht⟩)))
    exact ⟨n + m,exists_loadTheme hwalk (fun _ => ⟨h,hh⟩) _⟩
  · exact ⟨n + 0,exists_loadTheme hwalk (fun hex => absurd ((exists_leaf_iff hwalk).mp hex) hleaf) _⟩

/-- Loading ends if and only if it comes to no theme that leads back to itself. -/
theorem load_terminates_iff (env : IconEnv) (name : CString) : (∃ depth priv, load env depth name = some priv) ↔
    ∀ t, Visited env name t → ¬ Relation.TransGen (Step (parentsOf env)) t t := by
  refine ⟨?_,exists_load⟩
  rintro ⟨depth,priv,hload⟩ t ht
  exact acyclic_of_load hload ht

def loopTheme : CString := .ofBuf [97]

def loopEnv : IconEnv where
  home := .ofBuf [47,104]
  userData := .ofBuf [47,117]
  systemData := []
  files := [(.ofBuf [47,104] ++ homeIcons ++ loopTheme ++ dirSeparator ++ indexTheme,
    (Config.empty.set iconThemeSect directoriesKey (.ofBuf [49,54])).set iconThemeSect inheritsKey loopTheme)]
  isDir := fun _ => false
  isRegular := fun _ => false

theorem load_not_terminates : ¬ ∃ depth priv, load loopEnv depth loopTheme = some priv := by
  rintro ⟨depth,priv,hload⟩
  have hstep : Step (parentsOf loopEnv) loopTheme loopTheme := by decide
  exact acyclic_of_load hload (Or.inl .refl) (.single hstep)

end Edelib.IconTheme
