import Edelib.Foundation.Answers
import Edelib.Sdbm.Operations

/-! # The database is a finite map

Pairs are fetched, stored and deleted as those of a list without repeated keys, and a database that is closed and opened
again has the pairs that it had. A pair is refused where too many have hashes with the same low bits.
-/
namespace Edelib.Sdbm
open Foundation SlottedPage TextBlock HeapTrie Answers

inductive Op where
  | fetch (key : Datum)
  | delete (key : Datum)
  | store (key val : Datum) (replace : Bool)
  -- the database is closed, and its files are opened
  | reopen (rdonly : Bool)
deriving DecidableEq

inductive Answer where
  | found (val : Option Datum)
  | status (x : ℤ)
  | opened
deriving DecidableEq

def sdbmStep (o : ByteOrder) (db : SDBM) : Op → Option (Answer × SDBM)
  | .fetch key => (sdbmFetch o db key).map (fun r => (.found r.1,r.2))
  | .delete key => (sdbmDelete o db key).map (fun r => (.status r.1,r.2))
  | .store key val replace => (sdbmStore o db key val replace).map (fun r => (.status r.1,r.2))
  | .reopen rdonly => some (.opened,sdbmPrep db.pagf db.dirf rdonly)

/-! ## What it is for -/

structure Table where
  pairs : List Pair
  rdonly : Bool
deriving DecidableEq

def Enters (t : Table) (key val : Datum) (replace : Bool) : Prop :=
  key ≠ [] ∧ t.rdonly = false ∧ key.length + val.length ≤ PAIRMAX ∧ (replace = true ∨ key ∉ t.pairs.map Prod.fst)

/-- The pairs that cannot be told from those of a key by this many bits leave room for a pair of this size. -/
def Room (bits : ℕ) (t : Table) (key : Datum) (need : ℕ) : Prop :=
  Fits ((others key t.pairs).filter (near bits (hashOf key))) need

instance (t : Table) (key val : Datum) (replace : Bool) : Decidable (Enters t key val replace) :=
  inferInstanceAs (Decidable (_ ∧ _ ∧ _ ∧ _))

instance (bits : ℕ) (t : Table) (key : Datum) (need : ℕ) : Decidable (Room bits t key need) :=
  inferInstanceAs (Decidable (Fits _ _))

def tableStep (t : Table) : Op → Answer → Table → Prop
  | .fetch key,x,t' => x = .found (if key = [] then none else t.pairs.lookup key) ∧ t' = t
  | .delete key,x,t' =>
    if key ≠ [] ∧ t.rdonly = false ∧ key ∈ t.pairs.map Prod.fst then
      x = .status 0 ∧ t' = { t with pairs := others key t.pairs }
    else x = .status (-1) ∧ t' = t
  | .store key val replace,x,t' =>
    if Enters t key val replace then
      (x = .status 0 ∧ t' = { t with pairs := (key,val) :: others key t.pairs }) ∨
      -- what was stored under the key is gone even so
      (x = .status (-1) ∧ t' = { t with pairs := others key t.pairs } ∧ ¬ Room SPLTMAX t key (key.length + val.length))
    else if key ≠ [] ∧ t.rdonly = false ∧ key.length + val.length ≤ PAIRMAX then x = .status 1 ∧ t' = t
    else x = .status (-1) ∧ t' = t
  | .reopen rdonly,x,t' => x = .opened ∧ t' = { t with rdonly := rdonly }

/-- The directory stays in one block. -/
def Roomy (t : Table) : Op → Prop
  | .store key val replace => Enters t key val replace → Room 15 t key (key.length + val.length)
  | _ => True

/-! ## The pairs of the files -/

structure Represents (o : ByteOrder) (db : SDBM) (t : Table) (content : Content) : Prop where
  inv : Inv o db content
  held : ∀ pr, pr ∈ t.pairs ↔ Held content pr
  nodup : (t.pairs.map Prod.fst).Nodup
  named : ∀ pr ∈ t.pairs, pr.1 ≠ []
  rdonly : db.rdonly = t.rdonly

def Denotes (o : ByteOrder) (db : SDBM) (t : Table) : Prop := ∃ content, Represents o db t content

variable {o : ByteOrder} {db db' : SDBM} {content content' : Content} {t t' : Table} {pairs : List Pair} {key val : Datum}
  {pr : Pair} {h l q : ℕ}

theorem held_update : Held (Function.update content q pairs) pr ↔ pr ∈ pairs ∨ ∃ p ≠ q, pr ∈ content p := by
  constructor
  · rintro ⟨p,hp⟩
    rw [Function.update_apply] at hp
    split_ifs at hp with hq
    · exact .inl hp
    · exact .inr ⟨p,hq,hp⟩
  · rintro (hp | ⟨p,hq,hp⟩)
    · exact ⟨q,by rwa [Function.update_self]⟩
    · exact ⟨p,by rwa [Function.update_of_ne hq]⟩

/-- A key is taken off its page. -/
theorem Stored.held_others {pagf : List Page} {marks : ℕ → Bool} (hs : Stored o pagf marks content)
    (hl : Leaf marks (hashOf key) l) :
    Held (Function.update content (hashOf key % 2 ^ l) (others key (content (hashOf key % 2 ^ l)))) pr ↔
      Held content pr ∧ pr.1 ≠ key := by
  rw [held_update,mem_others]
  constructor
  · rintro (⟨hmem,hne⟩ | ⟨p,hp,hmem⟩)
    · exact ⟨⟨_,hmem⟩,hne⟩
    · refine ⟨⟨p,hmem⟩,?_⟩
      rintro rfl
      obtain ⟨l',hl',rfl⟩ := hs.routed p pr hmem
      exact hp (by rw [hl.unique hl'])
  · rintro ⟨⟨p,hmem⟩,hne⟩
    by_cases hp : p = hashOf key % 2 ^ l
    · exact .inl ⟨hp ▸ hmem,hne⟩
    · exact .inr ⟨p,hp,hmem⟩

namespace Represents

theorem mem_iff (hr : Represents o db t content) (hl : Leaf (marks db.dirf) (hashOf key) l) :
    (key,val) ∈ t.pairs ↔ (key,val) ∈ content (hashOf key % 2 ^ l) := by
  rw [hr.held,hr.inv.stored.held_iff hl rfl]

theorem lookup_eq (hr : Represents o db t content) (hl : Leaf (marks db.dirf) (hashOf key) l) :
    (content (hashOf key % 2 ^ l)).lookup key = t.pairs.lookup key := by
  refine Option.ext (fun val => ?_)
  rw [lookup_eq_some_iff (hr.inv.stored.nodup _),lookup_eq_some_iff hr.nodup,hr.mem_iff hl]

theorem key_iff (hr : Represents o db t content) (key : Datum) (hl : Leaf (marks db.dirf) (hashOf key) l) :
    key ∈ (content (hashOf key % 2 ^ l)).map Prod.fst ↔ key ∈ t.pairs.map Prod.fst := by
  constructor <;> intro hmem
  · obtain ⟨⟨key',val⟩,hpr,rfl⟩ := List.mem_map.mp hmem
    exact List.mem_map_of_mem ((hr.mem_iff hl).mpr hpr)
  · obtain ⟨⟨key',val⟩,hpr,rfl⟩ := List.mem_map.mp hmem
    exact List.mem_map_of_mem ((hr.mem_iff hl).mp hpr)

/-- What `getpage` did changes no pair. -/
theorem found (hr : Represents o db t content) (hfound : Found o db db' content h l) : Represents o db' t content :=
  ⟨hfound.inv,hr.held,hr.nodup,hr.named,hfound.rdonly.trans hr.rdonly⟩

end Represents

/-! ## Entering a pair -/

theorem Mid.enterPair (key val : Datum) (hmid : Mid o db content (hashOf key) l) (hat : At db (hashOf key) l)
    (hkey : key ∉ (content (hashOf key % 2 ^ l)).map Prod.fst)
    (hnear : Fits ((content (hashOf key % 2 ^ l)).filter (near 15 (hashOf key))) (key.length + val.length)) :
    ∃ x db' content', enterPair o db (sdbmHash key) key val = some (x,db') ∧ Inv o db' content' ∧ db'.rdonly = db.rdonly ∧
      ((x = 0 ∧ ∀ pr, Held content' pr ↔ pr = (key,val) ∨ Held content pr) ∨
       (x = -1 ∧ (∀ pr, Held content' pr ↔ Held content pr) ∧
        ¬ Fits ((content (hashOf key % 2 ^ l)).filter (near (l + SPLTMAX) (hashOf key))) (key.length + val.length))) := by
  -- room on the page, or what is made
  obtain ⟨room,db₁,content₁,hrun,hmade⟩ : ∃ room db₁ content₁,
      (if decide (Fits (content (hashOf key % 2 ^ l)) (key.length + val.length)) then some (true,db)
        else Sdbm.makroom o (sdbmHash key) ((key.length + val.length : ℕ) : ℤ) SPLTMAX db) = some (room,db₁) ∧
      Made o db db₁ content content₁ (hashOf key) l SPLTMAX (key.length + val.length) room := by
    by_cases hfits : Fits (content (hashOf key % 2 ^ l)) (key.length + val.length)
    · rw [decide_eq_true hfits,if_pos rfl]
      exact ⟨true,db,content,rfl,rfl,fun _ => Iff.rfl,⟨l,hmid,fun _ => hfits⟩,fun h => absurd h Bool.noConfusion,
        fun h => absurd h Bool.noConfusion⟩
    · rw [decide_eq_false hfits,if_neg Bool.false_ne_true]
      exact Mid.makroom hmid hat hfits hnear
  obtain ⟨l₁,hmid₁,hfits⟩ := hmade.mid
  have hneed : ((key.length : ℤ) + val.length) = ((key.length + val.length : ℕ) : ℤ) := (Nat.cast_add _ _).symm
  rw [Sdbm.enterPair,hneed,hmid.holds.fits,Option.bind_eq_bind,Option.bind_some,hrun,Option.bind_eq_bind,Option.bind_some]
  cases room with
  | false =>
    have hinv := hmade.inv rfl (fun h => absurd h (by decide))
    refine ⟨_,_,content₁,rfl,⟨hinv.stored,?_,hinv.cache,hinv.fresh⟩,hmade.rdonly,.inr ⟨rfl,hmade.held,hmade.full rfl⟩⟩
    exact ⟨hinv.dir.few,hinv.dir.size,hinv.dir.maxbno,hinv.dir.buffer⟩
  | true =>
    have hroom := hfits rfl
    have hkey₁ : key ∉ (content₁ (hashOf key % 2 ^ l₁)).map Prod.fst := by
      intro hmem
      obtain ⟨pr,hpr,rfl⟩ := List.mem_map.mp hmem
      have hheld := (hmade.held pr).mp ⟨_,hpr⟩
      exact hkey (List.mem_map_of_mem ((hmid.stored.held_iff hmid.leaf rfl).mp hheld))
    rw [Fits] at hroom
    obtain ⟨pag,hput,hpag⟩ := hmid₁.holds.putpair key val (by rw [cost]; omega)
    dsimp only
    rw [if_pos rfl,hput,Option.bind_eq_bind,Option.bind_some]
    have hmid₂ := hmid₁.update hpag (by
      intro pr hpr
      rcases List.mem_append.mp hpr with hpr | hpr
      · exact hmid₁.stored.near_of_mem hmid₁.leaf hpr
      · rw [List.mem_singleton.mp hpr]) (by
      rw [List.map_append,List.map_singleton]
      exact List.nodup_append.mpr ⟨hmid₁.stored.nodup _,List.nodup_singleton _,
        fun k hk k' hk' heq => hkey₁ (by rwa [heq,List.mem_singleton.mp hk'] at hk)⟩)
    refine ⟨_,_,_,rfl,hmid₂.inv,hmade.rdonly,.inl ⟨rfl,fun pr => ?_⟩⟩
    rw [held_update,List.mem_append,List.mem_singleton,← hmade.held]
    constructor
    · rintro ((hpr | hpr) | ⟨p,-,hpr⟩)
      · exact .inr ⟨_,hpr⟩
      · exact .inl hpr
      · exact .inr ⟨p,hpr⟩
    · rintro (hpr | ⟨p,hpr⟩)
      · exact .inl (.inr hpr)
      · by_cases hp : p = hashOf key % 2 ^ l₁
        · exact .inl (.inl (hp ▸ hpr))
        · exact .inr ⟨p,hp,hpr⟩

/-! ## One operation -/

namespace Represents

theorem getpage (hr : Represents o db t content) (key : Datum) :
    ∃ l db', Sdbm.getpage o db (sdbmHash key) = some (true,db') ∧ Found o db db' content (hashOf key) l :=
  hr.inv.getpage (sdbmHash key)

theorem fetch (hr : Represents o db t content) (key : Datum) :
    ∃ db', sdbmFetch o db key = some (if key = [] then none else t.pairs.lookup key,db') ∧ Represents o db' t content := by
  rw [sdbmFetch]
  by_cases hkey : key = []
  · rw [if_pos hkey,if_pos hkey]
    exact ⟨db,rfl,hr⟩
  · obtain ⟨l,db',hget,hfound⟩ := hr.getpage key
    have hr' := hr.found hfound
    rw [if_neg hkey,if_neg hkey,hget,Option.bind_eq_bind,Option.bind_some]
    dsimp only
    rw [if_pos rfl,hfound.mid.holds.getpair,Option.bind_eq_bind,Option.bind_some]
    exact ⟨db',congrArg (fun v => some (v,db')) (hr'.lookup_eq hfound.leaf),hr'⟩

theorem delete (hr : Represents o db t content) (key : Datum) :
    ∃ x db' t', sdbmDelete o db key = some (x,db') ∧ tableStep t (.delete key) (.status x) t' ∧ Denotes o db' t' := by
  rw [sdbmDelete,hr.rdonly]
  by_cases hkey : key = []
  · rw [if_pos hkey]
    exact ⟨-1,db,t,rfl,by rw [tableStep,if_neg (fun h => h.1 hkey)]; exact ⟨rfl,rfl⟩,content,hr⟩
  rw [if_neg hkey]
  cases hrd : t.rdonly with
  | true =>
    have hrefused : ¬ (key ≠ [] ∧ t.rdonly = false ∧ key ∈ t.pairs.map Prod.fst) := by
      rw [hrd]
      exact fun h => Bool.noConfusion h.2.1
    exact ⟨-1,db,t,rfl,by rw [tableStep,if_neg hrefused]; exact ⟨rfl,rfl⟩,content,hr⟩
  | false =>
    obtain ⟨l,db',hget,hfound⟩ := hr.getpage key
    have hr' := hr.found hfound
    have hs := hfound.inv.stored
    obtain ⟨pag,hdel,hpag⟩ := hfound.mid.holds.delpair_others (hs.nodup _) key
    have hiff := hr'.key_iff key hfound.leaf
    rw [if_neg Bool.false_ne_true,hget,Option.bind_eq_bind,Option.bind_some]
    dsimp only
    rw [if_pos rfl,hdel,Option.bind_eq_bind,Option.bind_some]
    dsimp only
    by_cases hmem : key ∈ t.pairs.map Prod.fst
    · rw [decide_eq_true (hiff.mpr hmem),if_pos rfl]
      have hmid := hfound.mid.update hpag (fun pr hpr => hs.near_of_mem hfound.leaf (mem_others.mp hpr).1)
        (nodup_others (hs.nodup _))
      refine ⟨0,_,{ t with pairs := others key t.pairs },rfl,?_,_,hmid.inv,fun pr => ?_,nodup_others hr.nodup,
        fun pr hpr => hr.named pr (mem_others.mp hpr).1,?_⟩
      · rw [tableStep,if_pos ⟨hkey,hrd,hmem⟩]
        exact ⟨rfl,rfl⟩
      · rw [mem_others,hr.held]
        exact (hs.held_others hfound.leaf).symm
      · exact hr'.rdonly
    · rw [decide_eq_false (fun h => hmem (hiff.mp h)),if_neg Bool.false_ne_true]
      refine ⟨-1,db',t,rfl,?_,content,hr'⟩
      rw [tableStep,if_neg (fun h => hmem h.2.2)]
      exact ⟨rfl,rfl⟩

theorem store (hr : Represents o db t content) (key val : Datum) (replace : Bool) (hroomy : Roomy t (.store key val replace)) :
    ∃ x db' t', sdbmStore o db key val replace = some (x,db') ∧ tableStep t (.store key val replace) (.status x) t' ∧
      Denotes o db' t' := by
  rw [sdbmStore,hr.rdonly]
  by_cases hok : key ≠ [] ∧ t.rdonly = false ∧ key.length + val.length ≤ PAIRMAX
  swap
  · have hrefused : ¬ Enters t key val replace := fun h => hok ⟨h.1,h.2.1,h.2.2.1⟩
    refine ⟨-1,db,t,?_,by rw [tableStep,if_neg hrefused,if_neg hok]; exact ⟨rfl,rfl⟩,content,hr⟩
    split_ifs with h₁ h₂ h₃
    · rfl
    · rfl
    · rfl
    · exact absurd ⟨h₁,Bool.eq_false_iff.mpr h₂,by omega⟩ hok
  obtain ⟨hkey,hrd,hsize⟩ := hok
  obtain ⟨l,db',hget,hfound⟩ := hr.getpage key
  have hr' := hr.found hfound
  have hs := hfound.inv.stored
  have hiff := hr'.key_iff key hfound.leaf
  rw [if_neg hkey,hrd,if_neg Bool.false_ne_true,if_neg (by omega),hget,Option.bind_eq_bind,Option.bind_some]
  dsimp only
  rw [if_pos rfl,storePage]
  by_cases hdup : replace = false ∧ key ∈ t.pairs.map Prod.fst
  · -- nothing is changed
    obtain ⟨rfl,hmem⟩ := hdup
    rw [if_neg Bool.false_ne_true,Option.bind_eq_bind,Option.bind_some]
    dsimp only
    rw [if_neg Bool.false_ne_true,hfound.mid.holds.duppair,Option.bind_eq_bind,Option.bind_some,
      decide_eq_true (hiff.mpr hmem),if_pos rfl]
    have hrefused : ¬ Enters t key val false := fun h => h.2.2.2.elim Bool.noConfusion (fun h => h hmem)
    exact ⟨1,db',t,rfl,by rw [tableStep,if_neg hrefused,if_pos ⟨hkey,hrd,hsize⟩]; exact ⟨rfl,rfl⟩,content,hr'⟩
  · have henters : Enters t key val replace := by
      refine ⟨hkey,hrd,hsize,?_⟩
      cases replace with
      | false => exact .inr (fun hmem => hdup ⟨rfl,hmem⟩)
      | true => exact .inl rfl
    -- what was under the key is off the page in either case
    obtain ⟨pag,hpag,hdel⟩ : ∃ pag, Holds o pag (others key (content (hashOf key % 2 ^ l))) ∧
        ∃ found, (if replace then delpair o db'.pagbuf key else some (false,db'.pagbuf)) = some (found,pag) ∧
          (if replace then some false else duppair o pag key) = some false := by
      cases replace with
      | true =>
        obtain ⟨pag,hdel,hpag⟩ := hfound.mid.holds.delpair_others (hs.nodup _) key
        exact ⟨pag,hpag,_,hdel,rfl⟩
      | false =>
        have hnone : key ∉ (content (hashOf key % 2 ^ l)).map Prod.fst := fun h => hdup ⟨rfl,hiff.mp h⟩
        refine ⟨db'.pagbuf,?_,_,rfl,?_⟩
        · rw [others_of_notMem hnone]
          exact hfound.mid.holds
        · rw [if_neg Bool.false_ne_true,hfound.mid.holds.duppair]
          exact congrArg some (decide_eq_false hnone)
    obtain ⟨found,hdel,hdup'⟩ := hdel
    rw [hdel,Option.bind_eq_bind,Option.bind_some]
    dsimp only
    rw [hdup',Option.bind_eq_bind,Option.bind_some,if_neg Bool.false_ne_true]
    have hmid := hfound.mid.update hpag (fun pr hpr => hs.near_of_mem hfound.leaf (mem_others.mp hpr).1)
      (nodup_others (hs.nodup _))
    have hheld : ∀ pr, Held (Function.update content (hashOf key % 2 ^ l) (others key (content (hashOf key % 2 ^ l)))) pr ↔
        pr ∈ others key t.pairs := by
      intro pr
      rw [mem_others,hr.held]
      exact hs.held_others hfound.leaf
    -- the pairs near the key are among those of the table
    have hsub : ∀ bits, ∀ pr ∈ (others key (content (hashOf key % 2 ^ l))).filter (near bits (hashOf key)),
        pr ∈ (others key t.pairs).filter (near bits (hashOf key)) := by
      intro bits pr hpr
      obtain ⟨hmem,hnear⟩ := List.mem_filter.mp hpr
      rw [mem_others] at hmem
      exact List.mem_filter.mpr ⟨mem_others.mpr ⟨(hr.held pr).mpr ⟨_,hmem.1⟩,hmem.2⟩,hnear⟩
    have hnodup : ∀ bits, (((others key (content (hashOf key % 2 ^ l))).filter (near bits (hashOf key))).map Prod.fst).Nodup :=
      fun bits => (nodup_others (hs.nodup _)).sublist (List.filter_sublist.map _)
    obtain ⟨x,db₂,content₂,hrun,hinv,hrdonly,hx⟩ := Mid.enterPair key val hmid
      ⟨hfound.at'.curbit,hfound.at'.hmask⟩ (by
        rw [Function.update_self]
        intro hmem
        obtain ⟨pr,hpr,rfl⟩ := List.mem_map.mp hmem
        exact (mem_others.mp hpr).2 rfl) (by
        rw [Function.update_self]
        exact fits_of_subset (hnodup 15) (hsub 15) (hroomy henters))
    rw [hrun]
    rcases hx with ⟨rfl,hx⟩ | ⟨rfl,hx,hfull⟩
    · refine ⟨0,db₂,{ t with pairs := (key,val) :: others key t.pairs },rfl,
        by rw [tableStep,if_pos henters]; exact .inl ⟨rfl,rfl⟩,content₂,hinv,fun pr => ?_,?_,?_,
        hrdonly.trans hr'.rdonly⟩
      · rw [List.mem_cons,hx,hheld]
      · refine List.nodup_cons.mpr ⟨fun hmem => ?_,nodup_others hr.nodup⟩
        obtain ⟨pr,hpr,heq⟩ := List.mem_map.mp hmem
        exact (mem_others.mp hpr).2 heq
      · intro pr hpr
        rcases List.mem_cons.mp hpr with rfl | hpr
        · exact hkey
        · exact hr.named pr (mem_others.mp hpr).1
    · refine ⟨-1,db₂,{ t with pairs := others key t.pairs },rfl,?_,content₂,hinv,
        fun pr => ?_,nodup_others hr.nodup,fun pr hpr => hr.named pr (mem_others.mp hpr).1,hrdonly.trans hr'.rdonly⟩
      · rw [tableStep,if_pos henters]
        refine .inr ⟨rfl,rfl,fun hroom => hfull ?_⟩
        rw [Function.update_self]
        refine fits_of_subset ((nodup_others (hs.nodup _)).sublist (List.filter_sublist.map _)) (fun pr hpr => ?_) hroom
        obtain ⟨hmem,hnear⟩ := List.mem_filter.mp hpr
        exact hsub SPLTMAX pr (List.mem_filter.mpr
          ⟨hmem,near_iff.mpr (mod_of_le (Nat.le_add_left _ _) (near_iff.mp hnear))⟩)
      · rw [hx,hheld]

theorem reopen (hr : Represents o db t content) (rdonly : Bool) :
    Represents o (sdbmPrep db.pagf db.dirf rdonly) { t with rdonly := rdonly } content := by
  refine ⟨⟨hr.inv.stored,⟨hr.inv.dir.few,hr.inv.dir.size,?_,?_⟩,?_,?_⟩,hr.held,hr.nodup,hr.named,rfl⟩
  · change db.dirf.length * DBLKSIZ * BYTESIZ = db.dirf.length * 32768
    rw [DBLKSIZ,BYTESIZ]
    omega
  · change (if db.dirf = [] then (0 : ℤ) else -1) = 0 ∧ blankDir = db.dirf.headD blankDir ∨
      (if db.dirf = [] then (0 : ℤ) else -1) ≠ 0 ∧ db.dirf ≠ []
    by_cases hnil : db.dirf = []
    · rw [if_pos hnil,hnil]
      exact .inl ⟨rfl,rfl⟩
    · rw [if_neg hnil]
      exact .inr ⟨by decide,hnil⟩
  · intro h l _ hpagbno
    have hne : (-1 : ℤ) ≠ (h % 2 ^ l : ℕ) := by omega
    exact absurd hpagbno hne
  · exact fun _ => holds_blank

end Represents

theorem refines_sdbmStep (o : ByteOrder) : Refines (Denotes o) (sdbmStep o) tableStep Roomy := by
  rintro db t op ⟨content,hr⟩ hroomy
  cases op with
  | fetch key =>
    obtain ⟨db',hrun,hr'⟩ := hr.fetch key
    exact ⟨_,db',t,by rw [sdbmStep,hrun]; rfl,⟨rfl,rfl⟩,content,hr'⟩
  | delete key =>
    obtain ⟨x,db',t',hrun,hstep,hr'⟩ := hr.delete key
    exact ⟨_,db',t',by rw [sdbmStep,hrun]; rfl,hstep,hr'⟩
  | store key val replace =>
    obtain ⟨x,db',t',hrun,hstep,hr'⟩ := hr.store key val replace hroomy
    exact ⟨_,db',t',by rw [sdbmStep,hrun]; rfl,hstep,hr'⟩
  | reopen rdonly => exact ⟨_,_,_,rfl,⟨rfl,rfl⟩,content,hr.reopen rdonly⟩

/-! ## Runs -/

/-- The files of a database that was created. -/
theorem denotes_created (o : ByteOrder) (rdonly : Bool) : Denotes o (sdbmPrep [] [] rdonly) ⟨[],rdonly⟩ := by
  refine ⟨fun _ => [],⟨⟨?_,?_,?_,?_,?_,?_⟩,⟨Nat.zero_le _,?_,?_,.inl ⟨rfl,rfl⟩⟩,?_,?_⟩,?_,List.nodup_nil,
    fun pr hpr => absurd hpr List.not_mem_nil,rfl⟩
  · intro h l hmarked
    exact absurd hmarked (by rw [show (sdbmPrep [] [] rdonly).dirf = [] from rfl,marks_nil]; exact Bool.false_ne_true)
  · intro n hmarked
    exact absurd hmarked (by rw [show (sdbmPrep [] [] rdonly).dirf = [] from rfl,marks_nil]; exact Bool.false_ne_true)
  · exact fun p => holds_blank
  · intro h l hl
    have hroot := hl.unique (leaf_root (fun n => marks_nil n) h)
    rw [hroot,Nat.pow_zero,Nat.mod_one]
    exact Nat.zero_lt_one.trans_le (le_max_left _ _)
  · exact fun p pr hpr => absurd hpr List.not_mem_nil
  · exact fun p => List.nodup_nil
  · exact fun b hb => absurd hb List.not_mem_nil
  · change 0 * DBLKSIZ * BYTESIZ = 0 * 32768
    rw [Nat.zero_mul,Nat.zero_mul,Nat.zero_mul]
  · exact fun h l _ _ => holds_blank
  · exact fun _ => holds_blank
  · exact fun pr => iff_of_false List.not_mem_nil (fun ⟨p,hp⟩ => absurd hp List.not_mem_nil)

def storing : List Op → List Pair
  | [] => []
  | .store key val _ :: ops => (key,val) :: storing ops
  | _ :: ops => storing ops

theorem costs_near_cons (h : ℕ) (op : Op) (ops : List Op) : costs ((storing (op :: ops)).filter (near 15 h)) =
    costs ((storing [op]).filter (near 15 h)) + costs ((storing ops).filter (near 15 h)) := by
  have happend : storing (op :: ops) = storing [op] ++ storing ops := by
    cases op <;> rfl
  rw [happend,List.filter_append,costs_append]

theorem costs_near_others (h : ℕ) (key : Datum) (pairs : List Pair) :
    costs ((others key pairs).filter (near 15 h)) ≤ costs (pairs.filter (near 15 h)) := by
  rw [others,List.filter_comm]
  exact costs_filter_le _ _

/-- What the operations enter is on the pages. -/
theorem costs_tableStep {op : Op} {x : Answer} (h : ℕ) (hstep : tableStep t op x t') :
    costs (t'.pairs.filter (near 15 h)) ≤ costs (t.pairs.filter (near 15 h)) + costs ((storing [op]).filter (near 15 h)) := by
  have hle := fun key => costs_near_others h key t.pairs
  cases op with
  | fetch key =>
    obtain ⟨-,rfl⟩ := hstep
    exact Nat.le_add_right _ _
  | delete key =>
    rw [tableStep] at hstep
    split_ifs at hstep
    · obtain ⟨-,rfl⟩ := hstep
      exact (hle key).trans (Nat.le_add_right _ _)
    · obtain ⟨-,rfl⟩ := hstep
      exact Nat.le_add_right _ _
  | store key val replace =>
    rw [tableStep] at hstep
    split_ifs at hstep
    · obtain ⟨-,rfl⟩ | ⟨-,rfl,-⟩ := hstep
      · have hcons : (key,val) :: others key t.pairs = storing [.store key val replace] ++ others key t.pairs := rfl
        rw [hcons,List.filter_append,costs_append,Nat.add_comm]
        exact Nat.add_le_add_right (hle key) _
      · exact (hle key).trans (Nat.le_add_right _ _)
    · obtain ⟨-,rfl⟩ := hstep
      exact Nat.le_add_right _ _
    · obtain ⟨-,rfl⟩ := hstep
      exact Nat.le_add_right _ _
  | reopen rdonly =>
    obtain ⟨-,rfl⟩ := hstep
    exact Nat.le_add_right _ _

/-- There is room when the pairs whose hashes no split tells apart fit on one page, however many pages the others take. -/
theorem meets_of_fits {ops : List Op} (hfits : ∀ pr ∈ storing ops,
    2 + costs (t.pairs.filter (near 15 (hashOf pr.1))) + costs ((storing ops).filter (near 15 (hashOf pr.1))) ≤ PBLKSIZ) :
    Meets tableStep Roomy t ops := by
  induction ops generalizing t with
  | nil => exact meets_nil
  | cons op ops ih =>
    refine meets_cons ?_ (fun x t' hstep => ih (fun pr hpr => ?_))
    · cases op with
      | store key val replace =>
        intro _
        have hroom : 2 + costs (t.pairs.filter (near 15 (hashOf key))) +
            costs ((storing (.store key val replace :: ops)).filter (near 15 (hashOf key))) ≤ PBLKSIZ :=
          hfits (key,val) List.mem_cons_self
        have hcost : costs ((storing [.store key val replace]).filter (near 15 (hashOf key))) = key.length + val.length + 4 := by
          rw [storing,storing,List.filter_cons_of_pos (by rw [near,decide_eq_true]; rfl)]
          rfl
        have hother := costs_near_others (hashOf key) key t.pairs
        rw [costs_near_cons,hcost] at hroom
        rw [Room,Fits]
        omega
      | _ => trivial
    · have hmem : pr ∈ storing (op :: ops) := by
        cases op with
        | store key val replace => exact List.mem_cons_of_mem _ hpr
        | _ => exact hpr
      have hroom := hfits pr hmem
      have hcosts := costs_tableStep (hashOf pr.1) hstep
      rw [costs_near_cons] at hroom
      omega

/-- Whatever is done with a database that was created, its answers are those of the table. -/
theorem answers_eq_table (o : ByteOrder) (rdonly : Bool) (ops : List Op) (hroomy : Meets tableStep Roomy ⟨[],rdonly⟩ ops) :
    ∃ xs db t, answers (sdbmStep o) (sdbmPrep [] [] rdonly) ops = some (xs,db) ∧
      Allowed tableStep ⟨[],rdonly⟩ ops xs t ∧ Denotes o db t :=
  (refines_sdbmStep o).answers (denotes_created o rdonly) hroomy

/-- Two pairs that one page has no room for: the page is split for the second. One is replaced, and is there when the
files are opened again. -/
theorem answers_eq_table_reopened : ∃ xs db t, answers (sdbmStep .lsbFirst) (sdbmPrep [] [] false)
    [.store [97] (.replicate 600 1) true,.store [98] (.replicate 600 2) false,.store [97] [3] true,.delete [98],
      .reopen true,.fetch [97]] = some (xs,db) ∧
      Allowed tableStep ⟨[],false⟩
        [.store [97] (.replicate 600 1) true,.store [98] (.replicate 600 2) false,.store [97] [3] true,.delete [98],
          .reopen true,.fetch [97]] xs t ∧
      Denotes .lsbFirst db t :=
  answers_eq_table .lsbFirst false _ (meets_of_fits (by decide +kernel))

end Edelib.Sdbm
