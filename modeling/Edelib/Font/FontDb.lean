import Edelib.Font.FontHolder
import Edelib.Base.SortOrder
import Edelib.Foundation.KeyValue

/-! # The database of the fonts

Each font that FLTK reports is counted and stored under its name, of which at most 63 bytes count, in lower case; the
number of fonts and the version are stored under keys of their own.
-/
namespace Edelib.Font
open Foundation StrUtil Base

/-! ## The database -/

inductive Record
  | font (fi : FontInfo)
  | count (n : ℕ)
  | version
deriving DecidableEq

/-- A database, which takes every key that is not empty. -/
structure Sdbm (δ : Type) extends KeyValue δ (List UInt8) Record where
  takes_of_ne_nil : ∀ key, key ≠ [] → takes key = true

/-- `font-cache:` -/
def infoPrefix : List UInt8 := [102,111,110,116,45,99,97,99,104,101,58]

/-- `font-cache:count` -/
def countKey : List UInt8 := infoPrefix ++ [99,111,117,110,116]

/-- `font-cache:version` -/
def versionKey : List UInt8 := infoPrefix ++ [118,101,114,115,105,111,110]

structure FltkFont where
  name : Option CString
  face : CString
  type : ℤ
  sizes : List ℤ

/-- The entries from an index on are written to an array of 64. -/
def copySizes : ℕ → List ℤ → Option (List ℤ)
  | _,[] => some []
  | j,sz :: sizes => if j < 64 then (copySizes (j + 1) sizes).map (fun rest => sz :: rest) else none

/-- The sizes of an entry. Where the first is 0 the font has many. -/
def fontSizes (sizes : List ℤ) : Option (List ℤ) :=
  if sizes.head? = some 0 then some ((List.range 64).map (fun j => (j : ℤ) + 1)) else copySizes 0 sizes

section Functions
variable {δ : Type} (sdbm : Sdbm δ)

def registerFonts : List FltkFont → δ → ℕ → Option (δ × ℕ)
  | [],fdb,nfonts => some (fdb,nfonts)
  | f :: fonts,fdb,nfonts =>
    match f.name with
    | none => registerFonts fonts fdb nfonts
    | some n =>
      if f.sizes = [] then registerFonts fonts fdb nfonts
      else do
        -- ignore case for font name
        let name := strTolower (n.bytes.take (faceLen - 1))
        let sizes ← fontSizes f.sizes
        registerFonts fonts (sdbm.store fdb name (.font ⟨f.face.bytes.take (faceLen - 1),sizes,f.type⟩)) (nfonts + 1)

/-- The database that is made of some fonts, and their number; there is none where an entry is written behind the
sizes. -/
def initDb (fonts : List FltkFont) : Option (δ × ℕ) := do
  let (fdb,nfonts) ← registerFonts sdbm fonts sdbm.empty 0
  -- store number of records in 'count' key
  let fdb := sdbm.store fdb countKey (.count nfonts)
  -- store version
  some (sdbm.store fdb versionKey .version,nfonts)

def loadCount (db : δ) : Option ℤ :=
  match sdbm.fetch db versionKey with
  | some .version =>
    match sdbm.fetch db countKey with
    | some (.count n) => some n
    | _ => some (-1)
  | _ => none

def forEachFont (db : δ) : List (CString × Record) :=
  (sdbm.keys db).filterMap (fun key =>
    match sdbm.fetch db key with
    | none => none
    | some val =>
      let n := CString.ofBuf (key.take (faceLen - 1))
      -- skip information keys
      if infoPrefix <+: n.bytes then none else some (n,val))

def sortFunc (s1 s2 : CString) : Bool := decide (s1.strcmp s2 < 0)

def forEachFontSorted (db : δ) : List (CString × Record) :=
  (ListState.sortedSeq sortFunc ((forEachFont sdbm db).map Prod.fst)).filterMap (fun sp =>
    (sdbm.fetch db sp.bytes).map (fun val => (sp,val)))

end Functions

/-! ## What is promised -/

def storedName (f : FltkFont) : Option (List UInt8) :=
  if f.sizes = [] then none else f.name.map (fun n => strTolower (n.bytes.take (faceLen - 1)))

def timesVisited (name : List UInt8) (callbacks : List (CString × Record)) : ℕ :=
  (callbacks.map (fun callback => callback.1.bytes)).count name

/-- The number that is returned is what is counted, and the number of the callbacks; each name is visited once. -/
structure Counted {δ : Type} (sdbm : Sdbm δ) (fonts : List FltkFont) (db : δ) (nfonts : ℕ) : Prop where
  count : loadCount sdbm db = some nfonts
  visits : (forEachFont sdbm db).length = nfonts
  once : ∀ f ∈ fonts, ∀ name ∈ storedName f, timesVisited name (forEachFont sdbm db) = 1
  visitsSorted : (forEachFontSorted sdbm db).length = nfonts
  onceSorted : ∀ f ∈ fonts, ∀ name ∈ storedName f, timesVisited name (forEachFontSorted sdbm db) = 1

/-- The fonts that are stored have at most 64 sizes, unless they have many, and names that differ in the first 63 bytes
without regard to case, are not empty and do not begin as information keys do. -/
structure Countable {δ : Type} (sdbm : Sdbm δ) (fonts : List FltkFont) : Prop where
  sizes : ∀ f ∈ fonts, (storedName f).isSome = true → f.sizes.head? = some 0 ∨ f.sizes.length ≤ 64
  distinct : (fonts.filterMap storedName).Nodup
  taken : ∀ name ∈ fonts.filterMap storedName, sdbm.takes name = true
  noInfo : ∀ name ∈ fonts.filterMap storedName, ¬ infoPrefix <+: name

/-! ## What is stored -/

def entry (f : FltkFont) : Option (List UInt8 × Record) :=
  (storedName f).map (fun name => (name,.font ⟨f.face.bytes.take (faceLen - 1),(fontSizes f.sizes).getD [],f.type⟩))

def Sized (fonts : List FltkFont) : Prop := ∀ f ∈ fonts, (storedName f).isSome = true → (fontSizes f.sizes).isSome = true

theorem isSome_copySizes {j : ℕ} {sizes : List ℤ} :
    (copySizes j sizes).isSome = true ↔ sizes = [] ∨ j + sizes.length ≤ 64 := by
  induction sizes generalizing j with
  | nil => exact iff_of_true rfl (.inl rfl)
  | cons sz sizes ih =>
    rw [copySizes,List.length_cons]
    split_ifs with hj
    · rw [Option.isSome_map,ih]
      constructor
      · rintro (rfl | hle)
        · exact .inr (by rw [List.length_nil]; omega)
        · exact .inr (by omega)
      · rintro (hnil | hle)
        · exact hnil.elim
        · exact .inr (by omega)
    · refine iff_of_false Bool.false_ne_true ?_
      rintro (hnil | hle)
      · exact hnil.elim
      · omega

theorem isSome_fontSizes {sizes : List ℤ} :
    (fontSizes sizes).isSome = true ↔ sizes.head? = some 0 ∨ sizes.length ≤ 64 := by
  unfold fontSizes
  split_ifs with hmany
  · exact iff_of_true rfl (.inl hmany)
  · rw [isSome_copySizes,Nat.zero_add]
    constructor
    · rintro (rfl | hle)
      · exact .inr (Nat.zero_le _)
      · exact .inr hle
    · exact fun h => h.elim (fun h => absurd h hmany) Or.inr

theorem map_entry (fonts : List FltkFont) :
    (fonts.filterMap entry).map Prod.fst = fonts.filterMap storedName := by
  rw [List.map_filterMap]
  refine List.filterMap_congr (fun f _ => ?_)
  rw [entry,Option.map_map]
  exact Option.map_id'

section Stored
variable {δ : Type} (sdbm : Sdbm δ)

/-- The fonts are stored one after another, and counted. -/
theorem registerFonts_eq (fonts : List FltkFont) (fdb : δ) (nfonts : ℕ) :
    (Sized fonts → registerFonts sdbm fonts fdb nfonts =
      some (sdbm.storeAll fdb (fonts.filterMap entry),nfonts + (fonts.filterMap storedName).length)) ∧
    (¬ Sized fonts → registerFonts sdbm fonts fdb nfonts = none) := by
  induction fonts generalizing fdb nfonts with
  | nil => exact ⟨fun _ => rfl,fun h => absurd (fun f hf => absurd hf List.not_mem_nil) h⟩
  | cons f fonts ih =>
    have hskip : storedName f = none → registerFonts sdbm (f :: fonts) fdb nfonts = registerFonts sdbm fonts fdb nfonts := by
      intro hname
      rw [registerFonts]
      cases hn : f.name with
      | none => rfl
      | some n =>
        have hsizes : f.sizes = [] := by
          by_contra hne
          rw [storedName,if_neg hne,hn] at hname
          exact absurd hname (Option.some_ne_none _)
        dsimp only
        rw [if_pos hsizes]
    have hsized : Sized (f :: fonts) ↔ ((storedName f).isSome = true → (fontSizes f.sizes).isSome = true) ∧ Sized fonts :=
      List.forall_mem_cons
    rw [hsized]
    cases hname : storedName f with
    | none =>
      have hentry : entry f = none := by rw [entry,hname]; rfl
      rw [hskip hname,List.filterMap_cons_none hentry,List.filterMap_cons_none hname]
      constructor
      · exact fun h => (ih fdb nfonts).1 h.2
      · exact fun h => (ih fdb nfonts).2 (fun hfonts => h ⟨fun hsome => absurd hsome Bool.false_ne_true,hfonts⟩)
    | some name =>
      have hentry : entry f = some (name,.font ⟨f.face.bytes.take (faceLen - 1),(fontSizes f.sizes).getD [],f.type⟩) := by
        rw [entry,hname]
        rfl
      have hsizes : f.sizes ≠ [] := by
        intro hnil
        rw [storedName,if_pos hnil] at hname
        exact absurd hname (Option.some_ne_none _).symm
      have hstep : registerFonts sdbm (f :: fonts) fdb nfonts = (fontSizes f.sizes).bind (fun sizes =>
          registerFonts sdbm fonts (sdbm.store fdb name (.font ⟨f.face.bytes.take (faceLen - 1),sizes,f.type⟩))
            (nfonts + 1)) := by
        rw [storedName,if_neg hsizes] at hname
        obtain ⟨n,hn,rfl⟩ := Option.map_eq_some_iff.mp hname
        rw [registerFonts,hn]
        dsimp only
        rw [if_neg hsizes]
        rfl
      rw [hstep,List.filterMap_cons_some hentry,List.filterMap_cons_some hname,List.length_cons]
      cases hfont : fontSizes f.sizes with
      | none => exact ⟨fun h => absurd (h.1 rfl) Bool.false_ne_true,fun _ => rfl⟩
      | some sizes =>
        rw [Option.bind_some]
        constructor
        · intro h
          rw [(ih _ _).1 h.2,Nat.add_right_comm,Nat.add_assoc]
          rfl
        · exact fun h => (ih _ _).2 (fun hfonts => h ⟨fun _ => rfl,hfonts⟩)

def dbOf (fonts : List FltkFont) : δ := sdbm.storeAll sdbm.empty
  ((fonts.filterMap entry ++ [(countKey,.count (fonts.filterMap storedName).length)]) ++ [(versionKey,.version)])

theorem initDb_eq_some {fonts : List FltkFont} {db : δ} {nfonts : ℕ} : initDb sdbm fonts = some (db,nfonts) ↔
    Sized fonts ∧ dbOf sdbm fonts = db ∧ (fonts.filterMap storedName).length = nfonts := by
  rw [initDb]
  obtain ⟨hsized,hnot⟩ := registerFonts_eq sdbm fonts sdbm.empty 0
  by_cases h : Sized fonts
  · rw [hsized h,Nat.zero_add]
    change some (sdbm.store (sdbm.store _ _ _) _ _,_) = _ ↔ _
    rw [← sdbm.storeAll_snoc,← sdbm.storeAll_snoc,← dbOf,Option.some_inj,Prod.mk.injEq]
    exact ⟨fun heq => ⟨h,heq⟩,fun heq => heq.2⟩
  · rw [hnot h]
    exact ⟨fun heq => absurd heq (Option.some_ne_none _).symm,fun heq => absurd heq.1 h⟩

end Stored

/-! ## What is visited -/

def Plain (key : List UInt8) : Prop := (0 : UInt8) ∉ key ∧ key.length < faceLen

theorem ofBuf_plain {key : List UInt8} (h : Plain key) : (CString.ofBuf (key.take (faceLen - 1))).bytes = key := by
  have hlen := h.2
  rw [List.take_of_length_le (by omega),CString.ofBuf_eq h.1]

theorem plain_storedName {f : FltkFont} {name : List UInt8} (h : storedName f = some name) : Plain name := by
  rw [storedName] at h
  split_ifs at h with hsizes
  obtain ⟨n,-,rfl⟩ := Option.map_eq_some_iff.mp h
  constructor
  · intro hmem
    obtain ⟨c,hc,hzero⟩ := List.mem_map.mp hmem
    have hc0 : c = 0 := by
      rw [tolower] at hzero
      split_ifs at hzero with hupper
      · rw [isupper,decide_eq_true_eq] at hupper
        have hlow : 65 ≤ c.toNat := hupper.1
        have hhigh : c.toNat ≤ 90 := hupper.2
        have hsum := congrArg UInt8.toNat hzero
        rw [UInt8.toNat_add] at hsum
        simp only [UInt8.reduceToNat] at hsum
        omega
      · exact hzero
    rw [hc0] at hc
    exact n.nulFree (List.mem_of_mem_take hc)
  · rw [strTolower,List.length_map,List.length_take]
    have hface : faceLen = 64 := rfl
    omega

section Visited
variable {δ : Type} (sdbm : Sdbm δ)

/-- The keys of a walk that are no information keys. -/
theorem map_forEachFont {db : δ} (h : ∀ key ∈ sdbm.keys db, Plain key) :
    (forEachFont sdbm db).map (fun callback => callback.1.bytes) =
      (sdbm.keys db).filter (fun key => decide (¬ infoPrefix <+: key)) := by
  have hfetch : ∀ key ∈ sdbm.keys db, (sdbm.fetch db key).isSome = true := fun key hkey => (sdbm.mem_keys db key).mp hkey
  rw [forEachFont]
  generalize sdbm.keys db = keys at h hfetch
  induction keys with
  | nil => rfl
  | cons key keys ih =>
    obtain ⟨hplain,hrest⟩ := List.forall_mem_cons.mp h
    obtain ⟨hsome,hfetched⟩ := List.forall_mem_cons.mp hfetch
    obtain ⟨val,hval⟩ := Option.isSome_iff_exists.mp hsome
    have htail := ih hrest hfetched
    by_cases hinfo : infoPrefix <+: key
    · rw [List.filterMap_cons_none,List.filter_cons_of_neg (by simpa using hinfo),htail]
      simp only [hval,ofBuf_plain hplain,if_pos hinfo]
    · rw [List.filterMap_cons_some (b := (CString.ofBuf (key.take (faceLen - 1)),val)),
        List.filter_cons_of_pos (by simpa using hinfo),List.map_cons,htail,ofBuf_plain hplain]
      simp only [hval,ofBuf_plain hplain,if_neg hinfo]

/-- Sorting changes nothing but the order. -/
theorem map_forEachFontSorted {db : δ} (h : ∀ key ∈ sdbm.keys db, Plain key) :
    ((forEachFontSorted sdbm db).map (fun callback => callback.1.bytes)).Perm
      ((forEachFont sdbm db).map (fun callback => callback.1.bytes)) := by
  have hperm : (ListState.sortedSeq sortFunc ((forEachFont sdbm db).map Prod.fst)).Perm
      ((forEachFont sdbm db).map Prod.fst) := by
    rw [ListState.sortedSeq]
    split_ifs
    · exact List.Perm.refl _
    · exact List.mergeSort_perm _ _
  have hfetch : ∀ sp ∈ ListState.sortedSeq sortFunc ((forEachFont sdbm db).map Prod.fst),
      (sdbm.fetch db sp.bytes).isSome = true := by
    intro sp hsp
    obtain ⟨callback,hcallback,rfl⟩ := List.mem_map.mp (hperm.mem_iff.mp hsp)
    have hmem := List.mem_map_of_mem (f := fun callback : CString × Record => callback.1.bytes) hcallback
    rw [map_forEachFont sdbm h] at hmem
    exact (sdbm.mem_keys db _).mp (List.mem_of_mem_filter hmem)
  have hbytes := hperm.map CString.bytes
  rw [List.map_map] at hbytes
  refine List.Perm.trans (List.Perm.of_eq ?_) hbytes
  rw [forEachFontSorted]
  generalize ListState.sortedSeq sortFunc ((forEachFont sdbm db).map Prod.fst) = names at hfetch
  clear hperm hbytes
  induction names with
  | nil => rfl
  | cons sp names ih =>
    obtain ⟨hsome,hrest⟩ := List.forall_mem_cons.mp hfetch
    obtain ⟨val,hval⟩ := Option.isSome_iff_exists.mp hsome
    rw [List.filterMap_cons_some (b := (sp,val)),List.map_cons,List.map_cons,ih hrest]
    rw [hval]
    rfl

theorem plain_keys (fonts : List FltkFont) : ∀ key ∈ sdbm.keys (dbOf sdbm fonts), Plain key := by
  have hcountKey : Plain countKey := ⟨by decide,by decide⟩
  have hversionKey : Plain versionKey := ⟨by decide,by decide⟩
  intro key hkey
  have hmem := List.mem_dedup.mp (List.mem_of_mem_filter (sdbm.keys_storeAll.mem_iff.mp hkey))
  rw [List.map_append,List.map_append,map_entry] at hmem
  obtain hmem | hversion := List.mem_append.mp hmem
  · obtain hname | hcount := List.mem_append.mp hmem
    · obtain ⟨f,-,hf⟩ := List.mem_filterMap.mp hname
      exact plain_storedName hf
    · obtain rfl := List.mem_singleton.mp hcount
      exact hcountKey
  · obtain rfl := List.mem_singleton.mp hversion
    exact hversionKey

/-- The names that a walk visits: each once, if it is taken and not an information key. -/
theorem visited_perm (fonts : List FltkFont) :
    ((forEachFont sdbm (dbOf sdbm fonts)).map (fun callback => callback.1.bytes)).Perm
      ((fonts.filterMap storedName).dedup.filter (fun key => sdbm.takes key && decide (¬ infoPrefix <+: key))) := by
  rw [map_forEachFont sdbm (plain_keys sdbm fonts)]
  refine (List.perm_ext_iff_of_nodup ((sdbm.nodup_keys _).filter _) ((List.nodup_dedup _).filter _)).mpr (fun key => ?_)
  rw [List.mem_filter,dbOf,sdbm.keys_storeAll.mem_iff,List.mem_filter,List.mem_filter,List.mem_dedup,List.mem_dedup,
    List.map_append,List.map_append,map_entry,Bool.and_eq_true,decide_eq_true_eq]
  constructor
  · rintro ⟨⟨hmem,htakes⟩,hinfo⟩
    refine ⟨?_,htakes,hinfo⟩
    obtain hmem | hversion := List.mem_append.mp hmem
    · obtain hname | hcount := List.mem_append.mp hmem
      · exact hname
      · obtain rfl := List.mem_singleton.mp hcount
        exact absurd (List.prefix_append _ _) hinfo
    · obtain rfl := List.mem_singleton.mp hversion
      exact absurd (List.prefix_append _ _) hinfo
  · exact fun ⟨hname,htakes,hinfo⟩ => ⟨⟨List.mem_append_left _ (List.mem_append_left _ hname),htakes⟩,hinfo⟩

theorem loadCount_dbOf (fonts : List FltkFont) :
    loadCount sdbm (dbOf sdbm fonts) = some ((fonts.filterMap storedName).length : ℤ) := by
  have hversion : sdbm.takes versionKey = true := sdbm.takes_of_ne_nil _ (by decide)
  have hcount : sdbm.takes countKey = true := sdbm.takes_of_ne_nil _ (by decide)
  have hne : countKey ≠ versionKey := by decide
  rw [loadCount,dbOf,sdbm.storeAll_snoc,sdbm.storeAll_snoc,sdbm.fetch_store_self hversion,sdbm.fetch_store_ne hne,
    sdbm.fetch_store_self hcount]

theorem sized_iff {fonts : List FltkFont} : Sized fonts ↔
    ∀ f ∈ fonts, (storedName f).isSome = true → f.sizes.head? = some 0 ∨ f.sizes.length ≤ 64 :=
  forall₂_congr (fun _ _ => imp_congr_right (fun _ => isSome_fontSizes))

/-- The database counts its fonts exactly where these are `Countable`. -/
theorem initDb_iff (fonts : List FltkFont) :
    (∃ db nfonts, initDb sdbm fonts = some (db,nfonts) ∧ Counted sdbm fonts db nfonts) ↔ Countable sdbm fonts := by
  have hvisited := visited_perm sdbm fonts
  have hsorted := (map_forEachFontSorted sdbm (plain_keys sdbm fonts)).trans hvisited
  have hlength : (forEachFont sdbm (dbOf sdbm fonts)).length = (fonts.filterMap storedName).length ↔
      (fonts.filterMap storedName).Nodup ∧ ∀ name ∈ fonts.filterMap storedName,
        (sdbm.takes name && decide (¬ infoPrefix <+: name)) = true := by
    rw [← length_filter_dedup,← hvisited.length_eq,List.length_map]
  constructor
  · rintro ⟨db,nfonts,hinit,hcounted⟩
    obtain ⟨hsized,rfl,rfl⟩ := (initDb_eq_some sdbm).mp hinit
    obtain ⟨hnodup,hall⟩ := hlength.mp hcounted.visits
    refine ⟨sized_iff.mp hsized,hnodup,fun name hname => ?_,fun name hname => ?_⟩
    · exact (Bool.and_eq_true_iff.mp (hall name hname)).1
    · exact of_decide_eq_true (Bool.and_eq_true_iff.mp (hall name hname)).2
  · intro h
    have hall : ∀ name ∈ fonts.filterMap storedName, (sdbm.takes name && decide (¬ infoPrefix <+: name)) = true :=
      fun name hname => Bool.and_eq_true_iff.mpr ⟨h.taken name hname,decide_eq_true (h.noInfo name hname)⟩
    have hvisits := hlength.mpr ⟨h.distinct,hall⟩
    -- a name is visited once, in whatever order
    have honce : ∀ callbacks : List (CString × Record), (callbacks.map (fun callback => callback.1.bytes)).Perm
        ((fonts.filterMap storedName).dedup.filter (fun key => sdbm.takes key && decide (¬ infoPrefix <+: key))) →
        ∀ f ∈ fonts, ∀ name ∈ storedName f, timesVisited name callbacks = 1 := by
      intro callbacks hperm f hf name hname
      have hmem : name ∈ fonts.filterMap storedName := List.mem_filterMap.mpr ⟨f,hf,hname⟩
      rw [timesVisited,hperm.count_eq]
      exact List.count_eq_one_of_mem ((List.nodup_dedup _).filter _)
        (List.mem_filter.mpr ⟨List.mem_dedup.mpr hmem,hall name hmem⟩)
    refine ⟨_,_,(initDb_eq_some sdbm).mpr ⟨sized_iff.mpr h.sizes,rfl,rfl⟩,loadCount_dbOf sdbm fonts,hvisits,
      honce _ hvisited,?_,honce _ hsorted⟩
    have hsame := hsorted.length_eq.trans hvisited.length_eq.symm
    rw [List.length_map,List.length_map] at hsame
    exact hsame.trans hvisits

end Visited

/-! ## A log -/

def fontLog : Sdbm (List (List UInt8 × Record)) where
  toKeyValue := KeyValue.log (List UInt8) Record
  takes_of_ne_nil _ _ := rfl

/-- Two names that differ in case are counted twice and stored once. -/
theorem not_initDb : ¬ ∀ fonts, ∃ db nfonts, initDb fontLog fonts = some (db,nfonts) ∧
    Counted fontLog fonts db nfonts := by
  intro h
  obtain ⟨db,nfonts,hinit,hcounted⟩ := h [⟨some ⟨[65],by decide⟩,CString.empty,0,[0]⟩,⟨some ⟨[97],by decide⟩,CString.empty,0,[0]⟩]
  obtain ⟨-,rfl,rfl⟩ := (initDb_eq_some fontLog).mp hinit
  exact absurd hcounted.visits (by decide)

end Edelib.Font
