import Edelib.Sdbm.Refines
import Mathlib.Data.List.Nodup

/-! # Walking over the database

The keys are returned page by page. Where the data of each key is fetched before the next one is asked for, as the walk
over the fonts does, each pair is met once: the page of the key is in the buffer, so that it stays there.
-/
namespace Edelib.Sdbm
open Foundation SlottedPage TextBlock HeapTrie Answers

section Functions
variable (o : ByteOrder)

def forEachKey : ℕ → Option Datum → SDBM → Option (List (Datum × Option Datum) × SDBM)
  | 0,_,_ => none
  | _ + 1,none,db => some ([],db)
  | rounds + 1,some key,db => do
    let (val,db) ← sdbmFetch o db key
    let (next,db) ← sdbmNextkey o db
    let (rest,db) ← forEachKey rounds next db
    some ((key,val) :: rest,db)

def forEachPair (rounds : ℕ) (db : SDBM) : Option (List (Datum × Option Datum) × SDBM) := do
  let (key,db) ← sdbmFirstkey o db
  forEachKey o rounds key db

end Functions

structure Position (o : ByteOrder) (db : SDBM) (content : Content) : Prop where
  inv : Inv o db content
  holds : Holds o db.pagbuf (content db.blkptr)
  pagbno : db.pagbno = db.blkptr
  pagpos : db.pagpos = db.blkptr + 1 ∨ db.pagf = []

def remaining (db : SDBM) (content : Content) : List Pair :=
  (content db.blkptr).drop db.keyptr ++ (List.range' (db.blkptr + 1) (db.pagf.length - (db.blkptr + 1))).flatMap content

def Next (o : ByteOrder) (content : Content) (todo : List Pair) (rdonly : Bool) (key : Option Datum) (db' : SDBM) : Prop :=
  db'.rdonly = rdonly ∧ match todo with
    | [] => key = none ∧ Inv o db' content
    | pr :: rest => key = some pr.1 ∧ Position o db' content ∧ remaining db' content = rest ∧ pr ∈ content db'.blkptr

variable {o : ByteOrder} {db db' : SDBM} {content : Content} {t : Table} {pr : Pair} {rest : List Pair}

theorem Position.getnext {rounds : ℕ} (hpos : Position o db content) (hrounds : db.pagf.length - (db.blkptr + 1) < rounds) :
    ∃ key db', getnext o rounds db = some (key,db') ∧ Next o content (remaining db content) db.rdonly key db' := by
  induction rounds generalizing db with
  | zero => exact absurd hrounds (Nat.not_lt_zero _)
  | succ rounds ih =>
    have hkeys := hpos.holds.getnkey (Nat.succ_pos db.keyptr)
    have hinv := hpos.inv
    rw [Nat.succ_sub_one,Nat.succ_eq_add_one] at hkeys
    rw [Sdbm.getnext]
    dsimp only
    rw [hkeys,Option.bind_eq_bind,Option.bind_some]
    cases hat : (content db.blkptr)[db.keyptr]? with
    | some pr =>
      obtain ⟨hlt,hget⟩ := List.getElem?_eq_some_iff.mp hat
      have hdrop : (content db.blkptr).drop db.keyptr = pr :: (content db.blkptr).drop (db.keyptr + 1) := by
        rw [List.drop_eq_getElem_cons hlt,hget]
      rw [Option.map_some,Option.isSome_some,if_pos rfl,remaining,hdrop,List.cons_append]
      refine ⟨_,_,rfl,rfl,rfl,⟨⟨hinv.stored,⟨hinv.dir.few,hinv.dir.size,hinv.dir.maxbno,hinv.dir.buffer⟩,hinv.cache,
        hinv.fresh⟩,hpos.holds,hpos.pagbno,hpos.pagpos⟩,rfl,?_⟩
      exact hget ▸ List.getElem_mem hlt
    | none =>
      -- nothing else is on this page, and the next one is read
      have hdrop : (content db.blkptr).drop db.keyptr = [] := List.drop_eq_nil_iff.mpr (List.getElem?_eq_none_iff.mp hat)
      have hstay : ¬ db.pagbno ≠ db.blkptr := not_not.mpr hpos.pagbno
      rw [Option.map_none,Option.isSome_none,if_neg Bool.false_ne_true,if_neg hstay,SDBM.readPage]
      dsimp only
      by_cases hlast : db.pagf.length ≤ db.blkptr + 1
      · have hnone : db.pagf[db.pagpos]? = none := by
          rcases hpos.pagpos with hpagpos | hnil
          · rw [hpagpos,List.getElem?_eq_none_iff]
            exact hlast
          · rw [hnil,List.getElem?_nil]
        have hzero : db.pagf.length - (db.blkptr + 1) = 0 := by omega
        rw [hnone,remaining,hdrop,hzero]
        dsimp only
        rw [if_neg Bool.false_ne_true]
        refine ⟨none,_,rfl,rfl,rfl,hinv.stored,⟨hinv.dir.few,hinv.dir.size,hinv.dir.maxbno,hinv.dir.buffer⟩,?_,hinv.fresh⟩
        -- the number that is kept is that of no page
        intro h l hl hpage
        have hlt := hinv.stored.present h l hl
        have heq : db.blkptr + 1 = h % 2 ^ l := Int.natCast_inj.mp hpage
        omega
      · have hpagpos : db.pagpos = db.blkptr + 1 := by
          rcases hpos.pagpos with hpagpos | hnil
          · exact hpagpos
          · rw [hnil,List.length_nil] at hlast
            omega
        have hlt : db.blkptr + 1 < db.pagf.length := by omega
        have hpage := hinv.stored.holds (db.blkptr + 1)
        rw [List.getD_eq_getElem _ _ hlt] at hpage
        rw [hpagpos,List.getElem?_eq_getElem hlt]
        dsimp only
        rw [if_pos rfl,hpage.chkpage,Option.bind_eq_bind,Option.bind_some,if_pos rfl]
        have hpos' : Position o { db with
            keyptr := 0, blkptr := db.blkptr + 1, pagbno := ((db.blkptr + 1 : ℕ) : ℤ), pagbuf := db.pagf[db.blkptr + 1]
            pagpos := db.blkptr + 1 + 1 } content := by
          refine ⟨⟨hinv.stored,⟨hinv.dir.few,hinv.dir.size,hinv.dir.maxbno,hinv.dir.buffer⟩,?_,?_⟩,hpage,rfl,.inl rfl⟩
          · intro h l hl hpagbno
            have heq : db.blkptr + 1 = h % 2 ^ l := Int.natCast_inj.mp hpagbno
            rw [← heq]
            exact hpage
          · intro hnil
            have hnil : db.pagf = [] := hnil
            rw [hnil,List.length_nil] at hlt
            omega
        have hrest : remaining db content = remaining { db with
            keyptr := 0, blkptr := db.blkptr + 1, pagbno := ((db.blkptr + 1 : ℕ) : ℤ), pagbuf := db.pagf[db.blkptr + 1]
            pagpos := db.blkptr + 1 + 1 } content := by
          have hrange : db.pagf.length - (db.blkptr + 1) = (db.pagf.length - (db.blkptr + 1 + 1)) + 1 := by omega
          rw [remaining,hdrop,hrange,List.range'_succ,List.flatMap_cons]
          rfl
        rw [hrest]
        exact ih hpos' (by change db.pagf.length - (db.blkptr + 1 + 1) < rounds; omega)

theorem Position.nextkey (hpos : Position o db content) :
    ∃ key db', sdbmNextkey o db = some (key,db') ∧ Next o content (remaining db content) db.rdonly key db' :=
  hpos.getnext (by omega)

/-- The data of a key that was returned is fetched from the page in the buffer. -/
theorem Position.fetch (hpos : Position o db content) (hpr : pr ∈ content db.blkptr) (hkey : pr.1 ≠ []) :
    ∃ db', sdbmFetch o db pr.1 = some (some pr.2,db') ∧ Position o db' content ∧ db'.rdonly = db.rdonly ∧
      remaining db' content = remaining db content := by
  obtain ⟨l,db',hget,hfound⟩ := hpos.inv.getpage (sdbmHash pr.1)
  have hs := hfound.inv.stored
  have hpage : db.blkptr = hashOf pr.1 % 2 ^ l := by
    obtain ⟨l',hl',hpage⟩ := hs.routed _ pr hpr
    rw [← hpage,hl'.unique hfound.leaf]
  have hpagbno : db.pagbno = (hashOf pr.1 % 2 ^ l : ℕ) := hpos.pagbno.trans (by rw [hpage])
  have hval : (content (hashOf pr.1 % 2 ^ l)).lookup pr.1 = some pr.2 :=
    (lookup_eq_some_iff (hs.nodup _)).mpr (hpage ▸ hpr)
  have hholds : Holds o db'.pagbuf (content (hashOf pr.1 % 2 ^ l)) := hfound.mid.holds
  refine ⟨db',?_,⟨hfound.inv,?_,?_,?_⟩,hfound.rdonly,?_⟩
  · rw [sdbmFetch,if_neg hkey,hget,Option.bind_eq_bind,Option.bind_some]
    dsimp only
    rw [if_pos rfl,hholds.getpair,hval]
    rfl
  · rw [hfound.blkptr,hpage]
    exact hholds
  · rw [hfound.pagbno,hfound.blkptr,hpage]
    rfl
  · rw [hfound.pagpos hpagbno,hfound.blkptr,hfound.pagf]
    exact hpos.pagpos
  · rw [remaining,remaining,hfound.blkptr,hfound.keyptr,hfound.pagf]

/-- From a key on, the loop meets it and what remains. -/
theorem forEachKey_eq {rounds : ℕ} {todo : List Pair} {rdonly : Bool} {key : Option Datum}
    (hnext : Next o content todo rdonly key db) (hnamed : ∀ pr ∈ todo, pr.1 ≠ []) (hrounds : todo.length < rounds) :
    ∃ db', forEachKey o rounds key db = some (todo.map (fun pr => (pr.1,some pr.2)),db') ∧ Inv o db' content ∧
      db'.rdonly = rdonly := by
  induction rounds generalizing todo key db with
  | zero => exact absurd hrounds (Nat.not_lt_zero _)
  | succ rounds ih =>
    cases todo with
    | nil =>
      obtain ⟨hrdonly,rfl,hinv⟩ := hnext
      exact ⟨db,rfl,hinv,hrdonly⟩
    | cons pr rest =>
      obtain ⟨hrdonly,rfl,hpos,hrest,hmem⟩ := hnext
      obtain ⟨hpr,hnamed⟩ := List.forall_mem_cons.mp hnamed
      obtain ⟨db₁,hfetch,hpos₁,hrdonly₁,hrest₁⟩ := hpos.fetch hmem hpr
      obtain ⟨next,db₂,hrun,hnext⟩ := hpos₁.nextkey
      rw [hrest₁,hrest,hrdonly₁,hrdonly] at hnext
      obtain ⟨db',hloop,hinv,hrdonly'⟩ := ih hnext hnamed (by rw [List.length_cons] at hrounds; omega)
      refine ⟨db',?_,hinv,hrdonly'⟩
      rw [forEachKey,hfetch,Option.bind_eq_bind,Option.bind_some]
      dsimp only
      rw [hrun,Option.bind_eq_bind,Option.bind_some]
      dsimp only
      rw [hloop]
      rfl

/-- The first page is read. -/
theorem Inv.firstkey (hinv : Inv o db content) : ∃ key db', sdbmFirstkey o db = some (key,db') ∧
    Next o content ((List.range (max 1 db.pagf.length)).flatMap content) db.rdonly key db' := by
  have hfirst := hinv.stored.holds 0
  have hdir : DirOk (db.seek 0).readPage.2 ∧ (db.seek 0).readPage.2.pagf = db.pagf ∧
      (db.seek 0).readPage.2.dirf = db.dirf ∧ (db.seek 0).readPage.2.rdonly = db.rdonly ∧
      Holds o (db.seek 0).readPage.2.pagbuf (content 0) ∧
      ((db.seek 0).readPage.2.pagpos = 0 + 1 ∨ db.pagf = []) := by
    have hdir := hinv.dir
    rw [SDBM.readPage,SDBM.seek]
    dsimp only
    cases hpagf : db.pagf with
    | nil =>
      rw [hpagf] at hfirst
      refine ⟨⟨hdir.few,hdir.size,hdir.maxbno,hdir.buffer⟩,rfl,rfl,rfl,?_,.inr rfl⟩
      rw [hfirst.eq_nil_of_blank]
      exact hinv.fresh hpagf
    | cons page rest =>
      rw [hpagf] at hfirst
      exact ⟨⟨hdir.few,hdir.size,hdir.maxbno,hdir.buffer⟩,rfl,rfl,rfl,hfirst,.inl rfl⟩
  obtain ⟨hdir,hpagf,hdirf,hrdonly,hholds,hpagpos⟩ := hdir
  have hstored : Stored o (db.seek 0).readPage.2.pagf (marks (db.seek 0).readPage.2.dirf) content := by
    rw [hpagf,hdirf]
    exact hinv.stored
  have hpos : Position o { (db.seek 0).readPage.2 with pagbno := 0, blkptr := 0, keyptr := 0 } content := by
    refine ⟨⟨hstored,⟨hdir.few,hdir.size,hdir.maxbno,hdir.buffer⟩,?_,?_⟩,hholds,rfl,by rwa [← hpagf] at hpagpos⟩
    · intro h l _ hpagbno
      have heq : 0 = h % 2 ^ l := Int.natCast_inj.mp hpagbno
      rw [← heq]
      exact hholds
    · intro hnil
      have hempty : content 0 = [] := by
        have hnil : (db.seek 0).readPage.2.pagf = [] := hnil
        rw [← hpagf,hnil] at hfirst
        exact hfirst.eq_nil_of_blank
      rwa [hempty] at hholds
  obtain ⟨key,db',hrun,hnext⟩ := hpos.nextkey
  refine ⟨key,db',hrun,?_⟩
  have hall : remaining { (db.seek 0).readPage.2 with pagbno := 0, blkptr := 0, keyptr := 0 } content =
      (List.range (max 1 db.pagf.length)).flatMap content := by
    have hsucc : max 1 db.pagf.length = (db.pagf.length - 1) + 1 := by omega
    rw [remaining,List.range_eq_range',hsucc,List.range'_succ,List.flatMap_cons]
    dsimp only
    rw [hpagf,List.drop_zero]
  rw [hall] at hnext
  exact hrdonly ▸ hnext

/-- The pages have each pair once. -/
theorem Represents.perm (hr : Represents o db t content) :
    ((List.range (max 1 db.pagf.length)).flatMap content).Perm t.pairs := by
  have hs := hr.inv.stored
  have hnodup : ((List.range (max 1 db.pagf.length)).flatMap content).Nodup := by
    refine List.nodup_flatMap.mpr ⟨fun p _ => .of_map Prod.fst (hs.nodup p),?_⟩
    refine List.nodup_range.imp (fun {p q} hne => ?_)
    intro pr hp hq
    obtain ⟨l,hl,rfl⟩ := hs.routed p pr hp
    obtain ⟨l',hl',rfl⟩ := hs.routed q pr hq
    exact hne (by rw [hl.unique hl'])
  refine (List.perm_ext_iff_of_nodup hnodup (.of_map Prod.fst hr.nodup)).mpr (fun pr => ?_)
  rw [hr.held,List.mem_flatMap]
  constructor
  · rintro ⟨p,-,hp⟩
    exact ⟨p,hp⟩
  · rintro ⟨p,hp⟩
    refine ⟨p,List.mem_range.mpr ?_,hp⟩
    by_contra hout
    have hblank := hs.holds p
    rw [List.getD_eq_default _ _ (by omega)] at hblank
    rw [hblank.eq_nil_of_blank] at hp
    cases hp

/-- A walk meets each pair once. -/
theorem Represents.forEachPair (hr : Represents o db t content) {rounds : ℕ} (hrounds : t.pairs.length < rounds) :
    ∃ l db', forEachPair o rounds db = some (l,db') ∧ l.Perm (t.pairs.map (fun pr => (pr.1,some pr.2))) ∧
      Represents o db' t content := by
  obtain ⟨key,db₁,hfirst,hnext⟩ := hr.inv.firstkey
  have hperm := hr.perm
  obtain ⟨db',hloop,hinv,hrdonly⟩ := forEachKey_eq hnext
    (fun pr hpr => hr.named pr (hperm.mem_iff.mp hpr)) (by rw [hperm.length_eq]; exact hrounds)
  refine ⟨_,db',?_,hperm.map _,hinv,hr.held,hr.nodup,hr.named,hrdonly.trans hr.rdonly⟩
  rw [Sdbm.forEachPair,hfirst,Option.bind_eq_bind,Option.bind_some]
  exact hloop

/-- Whatever was done with a database that was created, a walk over it meets each pair of the table once, and changes
none. -/
theorem forEachPair_perm (o : ByteOrder) (rdonly : Bool) (ops : List Op) (hroomy : Meets tableStep Roomy ⟨[],rdonly⟩ ops) :
    ∃ xs db t, answers (sdbmStep o) (sdbmPrep [] [] rdonly) ops = some (xs,db) ∧
      Allowed tableStep ⟨[],rdonly⟩ ops xs t ∧ ∀ rounds, t.pairs.length < rounds →
        ∃ l db', forEachPair o rounds db = some (l,db') ∧ l.Perm (t.pairs.map (fun pr => (pr.1,some pr.2))) ∧
          Denotes o db' t := by
  obtain ⟨xs,db,t,hrun,hallowed,content,hr⟩ := (refines_sdbmStep o).answers (denotes_created o rdonly) hroomy
  refine ⟨xs,db,t,hrun,hallowed,fun rounds hrounds => ?_⟩
  obtain ⟨l,db',hwalk,hperm,hr'⟩ := hr.forEachPair hrounds
  exact ⟨l,db',hwalk,hperm,content,hr'⟩

/-- The two pairs are on two pages. -/
theorem forEachPair_perm_stored : ∃ xs db t, answers (sdbmStep .lsbFirst) (sdbmPrep [] [] false)
    [.store [97] (.replicate 600 1) true,.store [98] (.replicate 600 2) true] = some (xs,db) ∧
      Allowed tableStep ⟨[],false⟩
        [.store [97] (.replicate 600 1) true,.store [98] (.replicate 600 2) true] xs t ∧ ∀ rounds, t.pairs.length < rounds →
        ∃ l db', forEachPair .lsbFirst rounds db = some (l,db') ∧ l.Perm (t.pairs.map (fun pr => (pr.1,some pr.2))) ∧
          Denotes .lsbFirst db' t :=
  forEachPair_perm .lsbFirst false _ (meets_of_fits (by decide +kernel))

end Edelib.Sdbm
