import Edelib.Foundation.Unfolding
import Edelib.Icon.IconTheme

/-! # The tree of a theme

Loading a theme walks the tree of the themes that their indices lead to, and the tree of the
fallback under its first theme that names none.
-/
namespace Edelib.IconTheme
open Foundation Unfolding
variable (env : IconEnv)

def infosOf (name : CString) : List IconDirInfo := ((readTheme env name).map (fun r => r.1)).getD []

def parentsOf (name : CString) : List CString := ((readTheme env name).bind (fun r => r.2)).getD []

def NoInherits (name : CString) : Prop := (readTheme env name).map (fun r => r.2) = some none

instance : DecidablePred (NoInherits env) := fun name =>
  inferInstanceAs (Decidable ((readTheme env name).map (fun r => r.2) = some none))

def recorded (tree : List (List ℕ × CString)) : List IconDirInfo := tree.flatMap (fun v => infosOf env v.2)

def record (priv : IconThemePrivate) (infos : List IconDirInfo) : IconThemePrivate :=
  { priv with dirlist := priv.dirlist ++ infos }

variable {env}

theorem parentsOf_eq_nil {name : CString} (h : NoInherits env name) : parentsOf env name = [] := by
  obtain ⟨r,hr,hnone⟩ := Option.map_eq_some_iff.mp h
  rw [parentsOf,hr,Option.bind_some,hnone]
  rfl

@[simp] theorem recorded_append (l l' : List (List ℕ × CString)) :
    recorded env (l ++ l') = recorded env l ++ recorded env l' := List.flatMap_append

@[simp] theorem recorded_cons (v : List ℕ × CString) (l : List (List ℕ × CString)) :
    recorded env (v :: l) = infosOf env v.2 ++ recorded env l := List.flatMap_cons

@[simp] theorem recorded_under (p : List ℕ) (l : List (List ℕ × CString)) :
    recorded env (under p l) = recorded env l := List.flatMap_map ..

@[simp] theorem record_record (priv : IconThemePrivate) (infos infos' : List IconDirInfo) :
    record (record priv infos) infos' = record priv (infos ++ infos') := by
  simp [record,List.append_assoc]

theorem loadTheme_succ (depth : ℕ) (name : CString) (priv : IconThemePrivate) :
    loadTheme env (depth + 1) name priv =
      if NoInherits env name ∧ priv.fallbackVisited = false then
        loadTheme env depth fallbackTheme { record priv (infosOf env name) with fallbackVisited := true }
      else (parentsOf env name).foldlM (fun priv p => loadTheme env depth p priv) (record priv (infosOf env name)) := by
  rw [loadTheme]
  cases hread : readTheme env name with
  | none =>
    have hnot : ¬ NoInherits env name := by
      rw [NoInherits,hread]
      exact fun h => Option.some_ne_none _ h.symm
    rw [if_neg (fun h => hnot h.1),parentsOf,infosOf,hread]
    simp [record]
  | some r =>
    obtain ⟨infos,inherits⟩ := r
    cases inherits with
    | some parents =>
      have hnot : ¬ NoInherits env name := by
        rw [NoInherits,hread]
        exact fun h => Option.some_ne_none _ (Option.some.inj h)
      rw [if_neg (fun h => hnot h.1),parentsOf,infosOf,hread]
      rfl
    | none =>
      have hno : NoInherits env name := by
        rw [NoInherits,hread]
        rfl
      rw [parentsOf_eq_nil hno,infosOf,hread]
      cases hvisited : priv.fallbackVisited with
      | true =>
        rw [if_neg (fun h => Bool.noConfusion h.2)]
        simp [record,hvisited]
      | false =>
        rw [if_pos ⟨hno,rfl⟩]
        simp [hvisited,record]

/-! ## Behind the fallback -/

theorem foldlM_visited {depth : ℕ} (hload : ∀ (b : CString) (priv : IconThemePrivate), priv.fallbackVisited = true →
    loadTheme env depth b priv = (walk (parentsOf env) depth b).map (fun l => record priv (recorded env l)))
    (bs : List CString) (i : ℕ) (priv : IconThemePrivate) (hvisited : priv.fallbackVisited = true) :
    bs.foldlM (fun priv p => loadTheme env depth p priv) priv =
      (below (walk (parentsOf env) depth) i bs).map (fun l => record priv (recorded env l)) := by
  induction bs generalizing i priv with
  | nil => simp [below,record,recorded]
  | cons b bs ih =>
    rw [List.foldlM_cons,hload b priv hvisited,below]
    cases walk (parentsOf env) depth b with
    | none => rfl
    | some tree =>
      rw [Option.map_some,Option.bind_eq_bind,Option.bind_some,Option.bind_some,
        ih (i + 1) (record priv (recorded env tree)) hvisited,Option.map_map]
      refine congrArg (fun f => Option.map f _) (funext (fun rest => ?_))
      simp

/-- When the fallback was visited, a theme records what its tree has. -/
theorem loadTheme_visited (depth : ℕ) (name : CString) {priv : IconThemePrivate}
    (hvisited : priv.fallbackVisited = true) :
    loadTheme env depth name priv =
      (walk (parentsOf env) depth name).map (fun l => record priv (recorded env l)) := by
  induction depth generalizing name priv with
  | zero => rfl
  | succ depth ih =>
    rw [loadTheme_succ,if_neg (fun h => Bool.noConfusion (hvisited.symm.trans h.2)),
      foldlM_visited (fun b priv h => ih b h) _ 0 (record priv (infosOf env name)) hvisited,walk,Option.map_map]
    refine congrArg (fun f => Option.map f _) (funext (fun tree => ?_))
    simp

/-! ## Up to the fallback -/

theorem exists_under {P : CString → Prop} {p : List ℕ} {l : List (List ℕ × CString)} :
    (∃ v ∈ under p l, P v.2) ↔ ∃ v ∈ l, P v.2 := by
  constructor
  · rintro ⟨v,hv,hp⟩
    obtain ⟨w,hw,rfl⟩ := List.mem_map.mp hv
    exact ⟨w,hw,hp⟩
  · rintro ⟨w,hw,hp⟩
    exact ⟨(p ++ w.1,w.2),List.mem_map.mpr ⟨w,hw,rfl⟩,hp⟩

theorem exists_under_append {P : CString → Prop} {p : List ℕ} {l l' : List (List ℕ × CString)} :
    (∃ v ∈ under p l ++ l', P v.2) ↔ (∃ v ∈ l, P v.2) ∨ ∃ v ∈ l', P v.2 := by
  simp only [List.mem_append,or_and_right,exists_or,exists_under]

structure Grafted (env : IconEnv) (depth : ℕ) (priv priv' : IconThemePrivate) (l : List (List ℕ × CString)) : Prop where
  visited : priv'.fallbackVisited = true ↔ ∃ v ∈ l, NoInherits env v.2
  recorded : ∃ h, ((∃ v ∈ l, NoInherits env v.2) → walk (parentsOf env) depth fallbackTheme = some h) ∧
    priv'.dirlist = priv.dirlist ++ recorded env (graft (NoInherits env) h l)

theorem foldlM_grafted {depth : ℕ} (hload : ∀ (b : CString) (priv priv' : IconThemePrivate),
    priv.fallbackVisited = false → loadTheme env depth b priv = some priv' →
      ∃ l, walk (parentsOf env) depth b = some l ∧ Grafted env depth priv priv' l)
    (bs : List CString) (i : ℕ) (priv : IconThemePrivate) {priv' : IconThemePrivate}
    (hvisited : priv.fallbackVisited = false)
    (hfold : bs.foldlM (fun priv p => loadTheme env depth p priv) priv = some priv') :
    ∃ l, below (walk (parentsOf env) depth) i bs = some l ∧ Grafted env depth priv priv' l := by
  induction bs generalizing i priv with
  | nil =>
    obtain rfl := Option.some.inj hfold
    refine ⟨[],rfl,⟨?_,[],?_,(List.append_nil _).symm⟩⟩
    · simp [hvisited]
    · simp
  | cons b bs ih =>
    rw [List.foldlM_cons,Option.bind_eq_bind,Option.bind_eq_some_iff] at hfold
    obtain ⟨priv₁,hb,hrest⟩ := hfold
    obtain ⟨tree,htree,⟨hvisited₁,h,hh,hrecorded⟩⟩ := hload b priv priv₁ hvisited hb
    by_cases hleaf : ∃ v ∈ tree, NoInherits env v.2
    · -- the fallback is visited in the first tree, and the others are walked behind it
      rw [foldlM_visited (fun b priv => loadTheme_visited depth b) bs (i + 1) priv₁ (hvisited₁.mpr hleaf)] at hrest
      obtain ⟨rest,hwalk,rfl⟩ := Option.map_eq_some_iff.mp hrest
      have hexists : ∃ v ∈ under [i] tree ++ rest, NoInherits env v.2 := exists_under_append.mpr (Or.inl hleaf)
      refine ⟨_,below_cons.mpr ⟨tree,rest,htree,hwalk,rfl⟩,
        ⟨iff_of_true (hvisited₁.mpr hleaf) hexists,h,fun _ => hh hleaf,?_⟩⟩
      rw [graft_append_of_leaf (exists_under.mpr hleaf),graft_under,recorded_append,recorded_under,← List.append_assoc,
        ← hrecorded]
      rfl
    · obtain ⟨rest,hwalk,⟨hvisited₂,h₂,hh₂,hrecorded₂⟩⟩ := ih (i + 1) priv₁
        (Bool.eq_false_iff.mpr (fun h => hleaf (hvisited₁.mp h))) hrest
      have hexists : (∃ v ∈ under [i] tree ++ rest, NoInherits env v.2) ↔ ∃ v ∈ rest, NoInherits env v.2 :=
        exists_under_append.trans (or_iff_right hleaf)
      refine ⟨_,below_cons.mpr ⟨tree,rest,htree,hwalk,rfl⟩,⟨hvisited₂.trans hexists.symm,h₂,
        fun hex => hh₂ (hexists.mp hex),?_⟩⟩
      have hnone : ∀ v ∈ under [i] tree, ¬ NoInherits env v.2 := fun v hv hno => hleaf (exists_under.mp ⟨v,hv,hno⟩)
      rw [graft_append_of_not hnone,recorded_append,recorded_under,hrecorded₂,hrecorded,
        graft_eq_self (fun v hv hno => hleaf ⟨v,hv,hno⟩),List.append_assoc]

theorem loadTheme_grafted (depth : ℕ) (name : CString) {priv priv' : IconThemePrivate}
    (hvisited : priv.fallbackVisited = false) (hload : loadTheme env depth name priv = some priv') :
    ∃ l, walk (parentsOf env) depth name = some l ∧ Grafted env depth priv priv' l := by
  induction depth generalizing name priv priv' with
  | zero => cases hload
  | succ depth ih =>
    rw [loadTheme_succ] at hload
    split_ifs at hload with hleaf
    · rw [loadTheme_visited depth fallbackTheme rfl] at hload
      obtain ⟨h,hwalk,rfl⟩ := Option.map_eq_some_iff.mp hload
      refine ⟨[([],name)],walk_succ.mpr ⟨[],by rw [parentsOf_eq_nil hleaf.1]; rfl,rfl⟩,
        ⟨iff_of_true rfl ⟨([],name),List.mem_cons_self,hleaf.1⟩,h,fun _ => walk_mono (Nat.le_succ depth) hwalk,?_⟩⟩
      rw [graft,if_pos hleaf.1]
      simp [record]
    · have hnot : ¬ NoInherits env name := fun h => hleaf ⟨h,hvisited⟩
      obtain ⟨tree,htree,⟨hvisited₁,h,hh,hrecorded⟩⟩ := foldlM_grafted (fun b priv priv' hv hb => ih b hv hb) _ 0
        (record priv (infosOf env name)) hvisited hload
      have hexists : (∃ v ∈ ([],name) :: tree, NoInherits env v.2) ↔ ∃ v ∈ tree, NoInherits env v.2 := by
        rw [List.exists_mem_cons_iff]
        exact or_iff_right hnot
      refine ⟨_,walk_succ.mpr ⟨tree,htree,rfl⟩,⟨hvisited₁.trans hexists.symm,h,
        fun hex => walk_mono (Nat.le_succ depth) (hh (hexists.mp hex)),?_⟩⟩
      rw [graft,if_neg hnot,recorded_cons,hrecorded,record,List.append_assoc]

theorem exists_foldlM {depth : ℕ} {bs : List CString}
    (hload : ∀ b ∈ bs, ∀ priv, ∃ priv', loadTheme env depth b priv = some priv') (priv : IconThemePrivate) :
    ∃ priv', bs.foldlM (fun priv p => loadTheme env depth p priv) priv = some priv' := by
  induction bs generalizing priv with
  | nil => exact ⟨priv,rfl⟩
  | cons b bs ih =>
    obtain ⟨priv₁,hb⟩ := hload b List.mem_cons_self priv
    obtain ⟨priv',hrest⟩ := ih (fun c hc => hload c (List.mem_cons_of_mem b hc)) priv₁
    exact ⟨priv',by rw [List.foldlM_cons,hb,Option.bind_eq_bind,Option.bind_some,hrest]⟩

/-- A walk that ends, and one of the fallback if it is needed, are enough for loading to end. -/
theorem exists_loadTheme {n m : ℕ} {name : CString} {l : List (List ℕ × CString)}
    (hwalk : walk (parentsOf env) n name = some l)
    (hfallback : (∃ v ∈ l, NoInherits env v.2) → ∃ h, walk (parentsOf env) m fallbackTheme = some h)
    (priv : IconThemePrivate) : ∃ priv', loadTheme env (n + m) name priv = some priv' := by
  induction n generalizing name l priv with
  | zero => cases hwalk
  | succ n ih =>
    obtain ⟨tree,htree,rfl⟩ := walk_succ.mp hwalk
    rw [Nat.add_right_comm,loadTheme_succ]
    split_ifs with hleaf
    · obtain ⟨h,hh⟩ := hfallback ⟨([],name),List.mem_cons_self,hleaf.1⟩
      rw [loadTheme_visited (n + m) fallbackTheme rfl,walk_mono (Nat.le_add_left m n) hh]
      exact ⟨_,rfl⟩
    · refine exists_foldlM (fun b hb priv => ?_) _
      obtain ⟨sub,hsub⟩ := exists_of_below htree b hb
      refine ih hsub (fun hex => hfallback ?_) priv
      obtain ⟨v,hv,hno⟩ := hex
      obtain ⟨i,hi⟩ := List.mem_iff_getElem?.mp hb
      exact ⟨(i :: v.1,v.2),(mem_walk hwalk _ _).mpr (.down hi ((mem_walk hsub v.1 v.2).mp hv)),hno⟩

end Edelib.IconTheme
