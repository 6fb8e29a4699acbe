import Edelib.Icon.ThemeLoading

/-! # The directories of a theme

The directories that a theme and its ancestors have are recorded once each, and in front of
those of the themes that are inherited, if the tree that loading walks has each of them once
and in this order.
-/
namespace Edelib.IconTheme
open Foundation Unfolding
variable (env : IconEnv)

/-! ## What is to be recorded -/

def Inherits (a b : CString) : Prop :=
  ∃ c, findIndex env a = some c ∧ ∃ e, (c.getEntry iconThemeSect inheritsKey).1 = .ok e ∧ b ∈ commaList e.value.bytes

def Ancestor (name t : CString) : Prop := Relation.ReflTransGen (Inherits env) name t ∨ t = fallbackTheme

def subdirsOf (name : CString) : List CString :=
  (((findIndex env name).bind (fun c => (c.getAllocated iconThemeSect directoriesKey).1)).map
    (fun dirs => commaList dirs.bytes)).getD []

def Listed (pl : IconPlace) : Prop :=
  pl.dir ∈ initBaseDirs env ∧ pl.subdir ∈ subdirsOf env pl.theme ∧ env.isDir pl.path = true

/-- Every place of the ancestry is recorded once, and before those of inherited themes. -/
structure Exact (name : CString) (places : List IconPlace) : Prop where
  listed : ∀ pl ∈ places, Listed env pl
  complete : ∀ pl, Ancestor env name pl.theme → Listed env pl → pl ∈ places
  nodup : places.Nodup
  ordered : places.Pairwise
    (fun pl pl' => pl'.theme ≠ pl.theme → ¬ Relation.TransGen (Inherits env) pl'.theme pl.theme)

def Records (name : CString) : Prop :=
  ∃ depth priv, load env depth name = some priv ∧ Exact env name (priv.dirlist.map (fun i => i.toIconPlace))

/-! ## The condition -/

def Placed (name : CString) (p : List ℕ) (t : CString) : Prop :=
  Way (parentsOf env) name p t ∨
    ∃ q r, FirstIn (NoInherits env) (Way (parentsOf env) name) q ∧ p = q ++ 0 :: r ∧
      Way (parentsOf env) fallbackTheme r t

def HasPlace (t : CString) : Prop := ∃ pl, Listed env pl ∧ pl.theme = t

def placesOf (t : CString) : List IconPlace := (subdirsOf env t).flatMap (subdirPlaces env t)

structure Clear (name : CString) : Prop where
  acyclic : ∀ t, Visited env name t → ¬ Relation.TransGen (Step (parentsOf env)) t t
  once : ∀ t p q, HasPlace env t → Placed env name p t → Placed env name q t → p = q
  placed : ∀ t, Ancestor env name t → HasPlace env t → ∃ p, Placed env name p t
  distinct : ∀ t p, Placed env name p t → (placesOf env t).Nodup
  ordered : ∀ s t p q, s ≠ t → Relation.TransGen (Inherits env) s t → HasPlace env s → HasPlace env t →
    Placed env name p s → Placed env name q t → p < q

variable {env}

theorem mem_placesOf {pl : IconPlace} {t : CString} : pl ∈ placesOf env t ↔ Listed env pl ∧ pl.theme = t := by
  rw [placesOf,List.mem_flatMap]
  constructor
  · rintro ⟨dl,hdl,hpl⟩
    obtain ⟨hmem,hdir⟩ := List.mem_filter.mp hpl
    obtain ⟨dir,hbase,rfl⟩ := List.mem_map.mp hmem
    exact ⟨⟨hbase,hdl,hdir⟩,rfl⟩
  · rintro ⟨⟨hbase,hdl,hdir⟩,rfl⟩
    exact ⟨pl.subdir,hdl,List.mem_filter.mpr ⟨List.mem_map.mpr ⟨pl.dir,hbase,rfl⟩,hdir⟩⟩

theorem hasPlace_iff {t : CString} : HasPlace env t ↔ ∃ pl, pl ∈ placesOf env t :=
  exists_congr (fun _ => mem_placesOf.symm)

/-! ## What is recorded -/

theorem map_recordDirs (name : CString) (dls : List CString) (c : Config) :
    (recordDirs env name dls c).1.map (fun i => i.toIconPlace) = dls.flatMap (subdirPlaces env name) := by
  induction dls generalizing c with
  | nil => rfl
  | cons dl dls ih =>
    rw [recordDirs,List.flatMap_cons,← ih (subdirSize c dl).2]
    simp [Function.comp_def]

theorem map_infosOf (t : CString) : (infosOf env t).map (fun i => i.toIconPlace) = placesOf env t := by
  unfold infosOf placesOf subdirsOf readTheme
  cases findIndex env t with
  | none => rfl
  | some c =>
    rw [Option.bind_some,Option.bind_some]
    cases hget : c.getAllocated iconThemeSect directoriesKey with
    | mk dirs c' =>
      cases dirs with
      | none => rfl
      | some dirs => exact map_recordDirs t _ c'

theorem map_recorded (tree : List (List ℕ × CString)) :
    (recorded env tree).map (fun i => i.toIconPlace) = tree.flatMap (fun v => placesOf env v.2) := by
  rw [recorded,List.map_flatMap]
  exact congrArg (fun f => tree.flatMap f) (funext (fun v => map_infosOf v.2))

/-- Loading records a tree, in its order. -/
theorem tree_of_load {depth : ℕ} {name : CString} {priv : IconThemePrivate} (hload : load env depth name = some priv) :
    ∃ tree, Sorted tree ∧ (∀ p t, (p,t) ∈ tree ↔ Placed env name p t) ∧
      priv.dirlist.map (fun i => i.toIconPlace) = tree.flatMap (fun v => placesOf env v.2) := by
  obtain ⟨l,hwalk,⟨-,h,hh,hrecorded⟩⟩ := loadTheme_grafted depth name rfl hload
  have hplaces : priv.dirlist.map (fun i => i.toIconPlace) =
      (graft (NoInherits env) h l).flatMap (fun v => placesOf env v.2) := by
    rw [hrecorded,List.nil_append,map_recorded]
  have hmem : (fun p t => (p,t) ∈ l) = Way (parentsOf env) name :=
    funext (fun p => funext (fun t => propext (mem_walk hwalk p t)))
  refine ⟨_,?_,fun p t => ?_,hplaces⟩
  · by_cases hleaf : ∃ v ∈ l, NoInherits env v.2
    · refine sorted_graft (sorted_walk hwalk) (sorted_walk (hh hleaf)) (fun v hv hno w hw hpre => ?_)
      exact ((mem_walk hwalk v.1 v.2).mp hv).eq_of_begins (parentsOf_eq_nil hno) ((mem_walk hwalk w.1 w.2).mp hw) hpre
    · rw [graft_eq_self (fun v hv hno => hleaf ⟨v,hv,hno⟩)]
      exact sorted_walk hwalk
  · rw [mem_graft (sorted_walk hwalk),mem_walk hwalk,hmem]
    refine or_congr_right (exists_congr (fun q => exists_congr (fun r => and_congr_right (fun hfirst => ?_))))
    obtain ⟨s,hs,hno⟩ := hfirst.isLeaf
    rw [mem_walk (hh ⟨(q,s),(mem_walk hwalk q s).mpr hs,hno⟩)]

/-! ## When it is what was to be recorded -/

variable {tree : List (List ℕ × CString)} {name : CString}

theorem mem_places {pl : IconPlace} (hmem : ∀ p t, (p,t) ∈ tree ↔ Placed env name p t) :
    pl ∈ tree.flatMap (fun v => placesOf env v.2) ↔ Listed env pl ∧ ∃ p, Placed env name p pl.theme := by
  rw [List.mem_flatMap]
  constructor
  · rintro ⟨v,hv,hpl⟩
    obtain ⟨hlisted,htheme⟩ := mem_placesOf.mp hpl
    exact ⟨hlisted,v.1,htheme ▸ (hmem v.1 v.2).mp hv⟩
  · rintro ⟨hlisted,p,hp⟩
    exact ⟨(p,pl.theme),(hmem p pl.theme).mpr hp,mem_placesOf.mpr ⟨hlisted,rfl⟩⟩

theorem complete_iff (hmem : ∀ p t, (p,t) ∈ tree ↔ Placed env name p t) :
    (∀ pl, Ancestor env name pl.theme → Listed env pl → pl ∈ tree.flatMap (fun v => placesOf env v.2)) ↔
      ∀ t, Ancestor env name t → HasPlace env t → ∃ p, Placed env name p t := by
  constructor
  · rintro h t hancestor ⟨pl,hlisted,rfl⟩
    exact ((mem_places hmem).mp (h pl hancestor hlisted)).2
  · intro h pl hancestor hlisted
    exact (mem_places hmem).mpr ⟨hlisted,h pl.theme hancestor ⟨pl,hlisted,rfl⟩⟩

theorem nodup_iff (hsorted : Sorted tree) (hmem : ∀ p t, (p,t) ∈ tree ↔ Placed env name p t) :
    (tree.flatMap (fun v => placesOf env v.2)).Nodup ↔
      (∀ t p, Placed env name p t → (placesOf env t).Nodup) ∧
        ∀ t p q, HasPlace env t → Placed env name p t → Placed env name q t → p = q := by
  rw [List.nodup_flatMap,hsorted.pairwise_iff]
  refine and_congr ⟨fun h t p hp => h (p,t) ((hmem p t).mpr hp),fun h v hv => h v.2 v.1 ((hmem v.1 v.2).mp hv)⟩ ?_
  constructor
  · intro h t p q hplace hp hq
    obtain ⟨pl,hpl⟩ := hasPlace_iff.mp hplace
    rcases lt_trichotomy p q with hlt | heq | hlt
    · exact absurd hpl (h (p,t) ((hmem p t).mpr hp) (q,t) ((hmem q t).mpr hq) hlt hpl)
    · exact heq
    · exact absurd hpl (h (q,t) ((hmem q t).mpr hq) (p,t) ((hmem p t).mpr hp) hlt hpl)
  · intro h v hv w hw hlt pl hpl hpl'
    have heq : v.2 = w.2 := (mem_placesOf.mp hpl).2.symm.trans (mem_placesOf.mp hpl').2
    have hplaced := (hmem w.1 w.2).mp hw
    rw [← heq] at hplaced
    have heq' := h v.2 v.1 w.1 (hasPlace_iff.mpr ⟨pl,hpl⟩) ((hmem v.1 v.2).mp hv) hplaced
    exact absurd hlt (by rw [heq']; exact lt_irrefl _)

theorem placed_unique (hsorted : Sorted tree) (hmem : ∀ p t, (p,t) ∈ tree ↔ Placed env name p t) {p : List ℕ}
    {s t : CString} (hs : Placed env name p s) (ht : Placed env name p t) : s = t :=
  hsorted.eq_of_mem ((hmem p s).mpr hs) ((hmem p t).mpr ht)

theorem ordered_iff (hsorted : Sorted tree) (hmem : ∀ p t, (p,t) ∈ tree ↔ Placed env name p t) :
    (tree.flatMap (fun v => placesOf env v.2)).Pairwise
        (fun pl pl' => pl'.theme ≠ pl.theme → ¬ Relation.TransGen (Inherits env) pl'.theme pl.theme) ↔
      ∀ s t p q, s ≠ t → Relation.TransGen (Inherits env) s t → HasPlace env s → HasPlace env t →
        Placed env name p s → Placed env name q t → p < q := by
  rw [List.pairwise_flatMap,hsorted.pairwise_iff]
  constructor
  · rintro ⟨-,h⟩ s t p q hne hinherits hplace hplace' hp hq
    obtain ⟨pl,hlisted,rfl⟩ := hplace
    obtain ⟨pl',hlisted',rfl⟩ := hplace'
    rcases lt_trichotomy p q with hlt | rfl | hlt
    · exact hlt
    · exact absurd (placed_unique hsorted hmem hp hq) hne
    · exact absurd hinherits (h (q,pl'.theme) ((hmem q _).mpr hq) (p,pl.theme) ((hmem p _).mpr hp) hlt
        pl' (mem_placesOf.mpr ⟨hlisted',rfl⟩) pl (mem_placesOf.mpr ⟨hlisted,rfl⟩) hne)
  · intro h
    refine ⟨fun v _ => ?_,fun v hv w hw hlt pl hpl pl' hpl' hne hinherits => ?_⟩
    · refine List.pairwise_of_forall_mem_list (fun pl hpl pl' hpl' hne => absurd ?_ hne)
      rw [(mem_placesOf.mp hpl).2,(mem_placesOf.mp hpl').2]
    · obtain ⟨hlisted,htheme⟩ := mem_placesOf.mp hpl
      obtain ⟨hlisted',htheme'⟩ := mem_placesOf.mp hpl'
      rw [htheme,htheme'] at hinherits hne
      have hlt' := h w.2 v.2 w.1 v.1 hne hinherits ⟨pl',hlisted',htheme'⟩ ⟨pl,hlisted,htheme⟩
        ((hmem w.1 w.2).mp hw) ((hmem v.1 v.2).mp hv)
      exact absurd (hlt.trans hlt') (lt_irrefl _)

/-- A tree is what was to be recorded if and only if it has every theme once, and in order. -/
theorem exact_iff (hsorted : Sorted tree) (hmem : ∀ p t, (p,t) ∈ tree ↔ Placed env name p t)
    (hacyclic : ∀ t, Visited env name t → ¬ Relation.TransGen (Step (parentsOf env)) t t) :
    Exact env name (tree.flatMap (fun v => placesOf env v.2)) ↔ Clear env name := by
  constructor
  · rintro ⟨-,hcomplete,hnodup,hordered⟩
    obtain ⟨hdistinct,honce⟩ := (nodup_iff hsorted hmem).mp hnodup
    exact ⟨hacyclic,honce,(complete_iff hmem).mp hcomplete,hdistinct,(ordered_iff hsorted hmem).mp hordered⟩
  · rintro ⟨-,honce,hplaced,hdistinct,hordered⟩
    exact ⟨fun pl hpl => ((mem_places hmem).mp hpl).1,(complete_iff hmem).mpr hplaced,
      (nodup_iff hsorted hmem).mpr ⟨hdistinct,honce⟩,(ordered_iff hsorted hmem).mpr hordered⟩

/-- Loading records every directory of the ancestry once and in order, if and only if the tree that
it walks has every theme with a directory once and in order, and each directory is listed once. -/
theorem records_iff (env : IconEnv) (name : CString) : Records env name ↔ Clear env name := by
  constructor
  · rintro ⟨depth,priv,hload,hexact⟩
    obtain ⟨tree,hsorted,hmem,hplaces⟩ := tree_of_load hload
    rw [hplaces] at hexact
    exact (exact_iff hsorted hmem (fun t ht => acyclic_of_load hload ht)).mp hexact
  · intro hclear
    obtain ⟨depth,priv,hload⟩ := exists_load hclear.acyclic
    obtain ⟨tree,hsorted,hmem,hplaces⟩ := tree_of_load hload
    refine ⟨depth,priv,hload,?_⟩
    rw [hplaces]
    exact (exact_iff hsorted hmem hclear.acyclic).mpr hclear

def fallbackEnv : IconEnv where
  home := .ofBuf [47,104]
  userData := .ofBuf [47,117]
  systemData := []
  files := [(.ofBuf [47,104] ++ homeIcons ++ fallbackTheme ++ dirSeparator ++ indexTheme,
    Config.empty.set iconThemeSect directoriesKey (.ofBuf [49,54]))]
  isDir := fun path => path.bytes.head? = some 47 ∧ path.bytes[1]? = some 104
  isRegular := fun _ => false

/-- It is its own fallback, and recorded twice. -/
theorem not_records : ¬ Records fallbackEnv fallbackTheme := by
  rintro ⟨depth,priv,hload,hexact⟩
  obtain ⟨tree,hsorted,hmem,hplaces⟩ := tree_of_load hload
  rw [hplaces] at hexact
  have hno : NoInherits fallbackEnv fallbackTheme := by decide
  have hfirst : FirstIn (NoInherits fallbackEnv) (Way (parentsOf fallbackEnv) fallbackTheme) [] :=
    ⟨⟨fallbackTheme,.here _,hno⟩,fun q _ _ _ => not_lt.mp (List.not_lt_nil q)⟩
  have hplace : HasPlace fallbackEnv fallbackTheme :=
    ⟨⟨fallbackEnv.home ++ homeIcons,fallbackTheme,.ofBuf [49,54]⟩,⟨by decide,by decide,by decide⟩,rfl⟩
  have honce := ((nodup_iff hsorted hmem).mp hexact.nodup).2 fallbackTheme [] [0] hplace (Or.inl (.here _))
    (Or.inr ⟨[],[],hfirst,rfl,.here _⟩)
  cases honce

end Edelib.IconTheme
