import Edelib.Sdbm.Stored

/-! # What the database routines do

Between operations the pairs are in the file. While a page is being split they are in the file and in the buffer.
-/
namespace Edelib.Sdbm
open Foundation SlottedPage TextBlock HeapTrie

/-- What holds between operations: the buffer has the page whose number is kept, if that is a page of the trie. -/
structure Inv (o : ByteOrder) (db : SDBM) (content : Content) : Prop where
  stored : Stored o db.pagf (marks db.dirf) content
  dir : DirOk db
  cache : ∀ h l, Leaf (marks db.dirf) h l → db.pagbno = (h % 2 ^ l : ℕ) → Holds o db.pagbuf (content (h % 2 ^ l))
  fresh : db.pagf = [] → Holds o db.pagbuf []

structure Mid (o : ByteOrder) (db : SDBM) (content : Content) (h l : ℕ) : Prop where
  stored : Stored o (putBlock blank db.pagf (h % 2 ^ l) db.pagbuf) (marks db.dirf) content
  leaf : Leaf (marks db.dirf) h l
  pagbno : db.pagbno = (h % 2 ^ l : ℕ)
  dir : DirOk db

structure At (db : SDBM) (h l : ℕ) : Prop where
  curbit : db.curbit = node h l
  hmask : db.hmask = mask l

variable {o : ByteOrder} {db db' : SDBM} {content : Content} {pairs : List Pair} {key val : Datum} {h l : ℕ}
  {hash : BitVec 64} {need : ℕ}

namespace Mid

theorem toNat_pagbno (hmid : Mid o db content h l) : db.pagbno.toNat = h % 2 ^ l := by
  rw [hmid.pagbno,Int.toNat_natCast]

theorem holds (hmid : Mid o db content h l) : Holds o db.pagbuf (content (h % 2 ^ l)) := by
  have hpage := hmid.stored.holds (h % 2 ^ l)
  rwa [getD_putBlock,if_pos rfl] at hpage

/-- Other pairs in the buffer, which belong on its page. -/
theorem update (hmid : Mid o db content h l) {pag : Page} (hpag : Holds o pag pairs)
    (hnear : ∀ pr ∈ pairs, hashOf pr.1 % 2 ^ l = h % 2 ^ l) (hnodup : (pairs.map Prod.fst).Nodup) :
    Mid o { db with pagbuf := pag } (Function.update content (h % 2 ^ l) pairs) h l := by
  refine ⟨?_,hmid.leaf,hmid.pagbno,⟨hmid.dir.few,hmid.dir.size,hmid.dir.maxbno,hmid.dir.buffer⟩⟩
  have hwritten := hmid.stored.write hmid.leaf hpag hnear hnodup
  rwa [putBlock_putBlock] at hwritten

/-- The page is written. -/
theorem inv (hmid : Mid o db content h l) : Inv o (db.writePage db.pagbno.toNat db.pagbuf) content := by
  rw [hmid.toNat_pagbno]
  refine ⟨hmid.stored,⟨hmid.dir.few,hmid.dir.size,hmid.dir.maxbno,hmid.dir.buffer⟩,?_,?_⟩
  · intro h' l' hl' hpage
    have heq : h % 2 ^ l = h' % 2 ^ l' := by
      have := hmid.pagbno.symm.trans hpage
      exact_mod_cast this
    rw [← heq]
    exact hmid.holds
  · exact fun hnil => absurd hnil (putBlock_ne_nil _ _ _ _)

end Mid

/-- A page that was read is written as it is. -/
theorem Inv.mid (hinv : Inv o db content) (hl : Leaf (marks db.dirf) h l) (hpagbno : db.pagbno = (h % 2 ^ l : ℕ)) :
    Mid o db content h l := by
  refine ⟨?_,hl,hpagbno,hinv.dir⟩
  have hwritten := hinv.stored.write hl (hinv.cache h l hl hpagbno) (fun pr hpr => hinv.stored.near_of_mem hl hpr)
    (hinv.stored.nodup _)
  rwa [Function.update_eq_self] at hwritten

/-! ## Finding the page of a hash -/

theorem Inv.cached (hinv : Inv o db content) : Inv o db.cached content :=
  ⟨hinv.stored,hinv.dir.cached,hinv.cache,hinv.fresh⟩

/-- What `getpage` found: the state is as it was but for the buffers, and a page that was there is not read again. -/
structure Found (o : ByteOrder) (db db' : SDBM) (content : Content) (h l : ℕ) : Prop where
  inv : Inv o db' content
  leaf : Leaf (marks db'.dirf) h l
  pagbno : db'.pagbno = (h % 2 ^ l : ℕ)
  at' : At db' h l
  pagf : db'.pagf = db.pagf
  rdonly : db'.rdonly = db.rdonly
  blkptr : db'.blkptr = db.blkptr
  keyptr : db'.keyptr = db.keyptr
  pagpos : db.pagbno = (h % 2 ^ l : ℕ) → db'.pagpos = db.pagpos

theorem Found.mid (hfound : Found o db db' content h l) : Mid o db' content h l := hfound.inv.mid hfound.leaf hfound.pagbno

/-- The trie leads to a leaf. -/
theorem Inv.walk (hinv : Inv o db content) (hash : BitVec 64) : ∃ l db', l ≤ 15 ∧ Leaf (marks db.dirf) hash.toNat l ∧
    walk hash 31 0 0 db = some (l,node hash.toNat l,db') ∧ (db' = db ∨ db' = db.cached) := by
  obtain ⟨l,hl⟩ := hinv.stored.exists_leaf hash.toNat
  have hlevel := hinv.stored.level_le hl
  obtain ⟨db',hwalk,hdb'⟩ := hinv.dir.walk hl (Nat.zero_le l) (by omega : l - 0 ≤ 31)
  exact ⟨l,db',hlevel,hl,hwalk,hdb'⟩

theorem Inv.getpage (hinv : Inv o db content) (hash : BitVec 64) :
    ∃ l db', getpage o db hash = some (true,db') ∧ Found o db db' content hash.toNat l := by
  obtain ⟨l,db₁,hlevel,hl,hwalk,hdb₁⟩ := hinv.walk hash
  have hinv₁ : Inv o db₁ content := by
    rcases hdb₁ with rfl | rfl
    · exact hinv
    · exact hinv.cached
  obtain ⟨hdirf,hpagf,hrdonly,hblkptr,hkeyptr,hpagpos,hpagbno⟩ : db₁.dirf = db.dirf ∧ db₁.pagf = db.pagf ∧
      db₁.rdonly = db.rdonly ∧ db₁.blkptr = db.blkptr ∧ db₁.keyptr = db.keyptr ∧ db₁.pagpos = db.pagpos ∧
      db₁.pagbno = db.pagbno := by
    rcases hdb₁ with rfl | rfl <;> exact ⟨rfl,rfl,rfl,rfl,rfl,rfl,rfl⟩
  rw [← hdirf] at hl
  have hdir₂ : ∀ {db₂ : SDBM}, db₂.dirf = db₁.dirf → db₂.maxbno = db₁.maxbno → db₂.dirbno = db₁.dirbno →
      db₂.dirbuf = db₁.dirbuf → DirOk db₂ := by
    intro db₂ h₁ h₂ h₃ h₄
    have hdir := hinv₁.dir
    exact ⟨h₁ ▸ hdir.few,h₁ ▸ hdir.size,by rw [h₁,h₂]; exact hdir.maxbno,by rw [h₁,h₃,h₄]; exact hdir.buffer⟩
  have hpagb : (hash &&& mask l).toNat = hash.toNat % 2 ^ l := toNat_and_mask (by omega)
  refine ⟨l,?_⟩
  rw [Sdbm.getpage,hwalk,Option.bind_eq_bind,Option.bind_some]
  dsimp only
  rw [hpagb]
  by_cases hcached : ((hash.toNat % 2 ^ l : ℕ) : ℤ) = db₁.pagbno
  · rw [if_neg (not_not.mpr hcached)]
    exact ⟨_,rfl,⟨hinv₁.stored,hdir₂ rfl rfl rfl rfl,hinv₁.cache,hinv₁.fresh⟩,hl,hcached.symm,⟨rfl,rfl⟩,hpagf,hrdonly,
      hblkptr,hkeyptr,fun _ => hpagpos⟩
  · rw [if_pos hcached]
    -- a fresh file has no page to read, and the buffer is empty
    have hread : ∃ page pos, ({ db₁ with curbit := node hash.toNat l, hmask := mask l }.seek (hash.toNat % 2 ^ l)).readPage.2 =
        { db₁ with curbit := node hash.toNat l, hmask := mask l, pagpos := pos, pagbuf := page } ∧
        Holds o page (content (hash.toNat % 2 ^ l)) ∧ (db₁.pagf = [] → Holds o page []) := by
      have hpresent := hinv₁.stored.present _ _ hl
      have hholds := hinv₁.stored.holds (hash.toNat % 2 ^ l)
      rw [SDBM.readPage,SDBM.seek]
      dsimp only
      cases hpage : db₁.pagf[hash.toNat % 2 ^ l]? with
      | some page =>
        rw [List.getD_eq_getElem?_getD,hpage] at hholds
        refine ⟨page,_,rfl,hholds,fun hnil => ?_⟩
        rw [hnil,List.getElem?_nil] at hpage
        cases hpage
      | none =>
        have hout := List.getElem?_eq_none_iff.mp hpage
        have hnil : db₁.pagf = [] := List.length_eq_zero_iff.mp (by omega)
        rw [List.getD_eq_getElem?_getD,hpage,Option.getD_none] at hholds
        refine ⟨db₁.pagbuf,_,rfl,?_,fun _ => hinv₁.fresh hnil⟩
        rw [hholds.eq_nil_of_blank]
        exact hinv₁.fresh hnil
    obtain ⟨page,pos,hread,hpage,hfresh⟩ := hread
    rw [hread]
    dsimp only
    rw [hpage.chkpage,Option.bind_eq_bind,Option.bind_some,if_pos rfl]
    refine ⟨_,rfl,⟨hinv₁.stored,hdir₂ rfl rfl rfl rfl,?_,hfresh⟩,hl,rfl,⟨rfl,rfl⟩,hpagf,hrdonly,hblkptr,hkeyptr,
      fun heq => absurd (hpagbno.trans heq).symm hcached⟩
    intro h' l' hl' hpage'
    have heq : hash.toNat % 2 ^ l = h' % 2 ^ l' := Int.natCast_inj.mp hpage'
    rw [← heq]
    exact hpage

/-! ## Making room -/

/-- A page is split once, and the page of the incoming pair is in the buffer. -/
theorem Mid.splitPage (hmid : Mid o db content hash.toNat l) (hat : At db hash.toNat l) (hlevel : l ≤ 14) :
    ∃ db', splitPage o db hash = some db' ∧ At db' hash.toNat l ∧ db'.rdonly = db.rdonly ∧
      Mid o db' (splitContent content (hash.toNat % 2 ^ l) l) hash.toNat (l + 1) := by
  obtain ⟨pag,new,hspl,hpag,hnew⟩ := hmid.holds.splpage (db.hmask + 1)
  have hpos : 0 < 2 ^ l := Nat.two_pow_pos l
  have hbit : hasBit (db.hmask + 1) = fun pr => (hashOf pr.1).testBit l := by
    rw [hat.hmask]
    exact funext (hasBit_mask_succ (by omega))
  rw [hbit] at hpag hnew
  have hnewp : ((hash &&& db.hmask) ||| (db.hmask + 1)).toNat = hash.toNat % 2 ^ l + 2 ^ l := by
    rw [hat.hmask]
    exact toNat_newp (by omega)
  have hgoes : hash &&& (db.hmask + 1) ≠ 0 ↔ hash.toNat.testBit l = true := by
    rw [hat.hmask]
    exact and_mask_succ_ne_zero (by omega)
  have hnode : node hash.toNat l + 1 < 2 ^ 15 := by
    have hbound := (node_bounds hash.toNat l).2
    have hpow : 2 ^ (l + 1) ≤ 2 ^ 15 := Nat.pow_le_pow_right (by decide) (by omega)
    omega
  rw [Sdbm.splitPage,hspl,Option.bind_eq_bind,Option.bind_some]
  dsimp only
  rw [hnewp,hmid.toNat_pagbno]
  -- the page that is not the pair's is written
  obtain ⟨db₁,hdb₁,hdirf,hcurbit,hhmask,hrdonly,hdir₁,hpagbno,hlength,hpages⟩ : ∃ db₁, (if hash &&& (db.hmask + 1) ≠ 0 then
      { db.writePage (hash.toNat % 2 ^ l) pag with pagbno := ((hash.toNat % 2 ^ l + 2 ^ l : ℕ) : ℤ), pagbuf := new }
      else { db.writePage (hash.toNat % 2 ^ l + 2 ^ l) new with pagbuf := pag }) = db₁ ∧ db₁.dirf = db.dirf ∧
      db₁.curbit = db.curbit ∧ db₁.hmask = db.hmask ∧ db₁.rdonly = db.rdonly ∧ DirOk db₁ ∧
      db₁.pagbno = (hash.toNat % 2 ^ (l + 1) : ℕ) ∧
      (putBlock blank db₁.pagf (hash.toNat % 2 ^ (l + 1)) db₁.pagbuf).length =
        max (putBlock blank db.pagf (hash.toNat % 2 ^ l) db.pagbuf).length (hash.toNat % 2 ^ l + 2 ^ l + 1) ∧
      ∀ p, (putBlock blank db₁.pagf (hash.toNat % 2 ^ (l + 1)) db₁.pagbuf).getD p blank =
        if p = hash.toNat % 2 ^ l then pag else if p = hash.toNat % 2 ^ l + 2 ^ l then new
        else (putBlock blank db.pagf (hash.toNat % 2 ^ l) db.pagbuf).getD p blank := by
    have hdir : ∀ db₂ : SDBM, db₂.dirf = db.dirf → db₂.maxbno = db.maxbno → db₂.dirbno = db.dirbno →
        db₂.dirbuf = db.dirbuf → DirOk db₂ := by
      intro db₂ h₁ h₂ h₃ h₄
      have hdir := hmid.dir
      exact ⟨h₁ ▸ hdir.few,h₁ ▸ hdir.size,by rw [h₁,h₂]; exact hdir.maxbno,by rw [h₁,h₃,h₄]; exact hdir.buffer⟩
    rw [mod_succ]
    by_cases htop : hash &&& (db.hmask + 1) ≠ 0
    · rw [if_pos htop,if_pos (hgoes.mp htop)]
      refine ⟨_,rfl,rfl,rfl,rfl,rfl,hdir _ rfl rfl rfl rfl,rfl,?_,fun p => ?_⟩
      · simp only [SDBM.writePage,length_putBlock]
      · simp only [SDBM.writePage,getD_putBlock]
        split_ifs <;> first | rfl | omega
    · rw [if_neg htop,if_neg (fun hb => htop (hgoes.mpr hb)),Nat.add_zero]
      refine ⟨_,rfl,rfl,rfl,rfl,rfl,hdir _ rfl rfl rfl rfl,hmid.pagbno,?_,fun p => ?_⟩
      · simp only [SDBM.writePage,length_putBlock]
        omega
      · simp only [SDBM.writePage,getD_putBlock]
        split_ifs <;> rfl
  rw [hdb₁,hcurbit,hat.curbit]
  -- the bit of the leaf is set
  obtain ⟨blk,hset,hblk,hmarks⟩ := hdir₁.setdbit hnode
  rw [hdirf] at hmarks
  rw [hset]
  refine ⟨_,rfl,⟨?_,?_⟩,?_,?_,?_,hpagbno,?_⟩
  · exact hcurbit.trans hat.curbit
  · exact hhmask.trans hat.hmask
  · exact hrdonly
  · have hsplit := hmid.stored.split hmid.leaf hlevel hpag hnew hlength hpages
    rw [← hmarks] at hsplit
    exact hsplit
  · have hbelow := hmid.leaf.below hmid.stored.closed rfl
    rw [← hmarks] at hbelow
    exact hbelow
  · exact ⟨le_rfl,fun b hb => List.mem_singleton.mp hb ▸ hblk,(Nat.one_mul 32768).symm,.inl ⟨rfl,rfl⟩⟩

/-- The search goes on where it would have, and the page is written. -/
theorem Mid.descend (hmid : Mid o db content hash.toNat (l + 1)) (hat : At db hash.toNat l) (hlevel : l ≤ 14) :
    Mid o (descend db hash) content hash.toNat (l + 1) ∧ At (descend db hash) hash.toNat (l + 1) ∧
      Inv o (descend db hash) content := by
  have hgoes : hash &&& (db.hmask + 1) ≠ 0 ↔ hash.toNat.testBit l = true := by
    rw [hat.hmask]
    exact and_mask_succ_ne_zero (by omega)
  have hmid' : Mid o { db with
      curbit := 2 * db.curbit + (if hash &&& (db.hmask + 1) ≠ 0 then 2 else 1)
      hmask := db.hmask ||| (db.hmask + 1) } content hash.toNat (l + 1) :=
    ⟨hmid.stored,hmid.leaf,hmid.pagbno,⟨hmid.dir.few,hmid.dir.size,hmid.dir.maxbno,hmid.dir.buffer⟩⟩
  have hinv := hmid'.inv
  refine ⟨hinv.mid hmid.leaf hmid.pagbno,⟨?_,?_⟩,hinv⟩
  · change 2 * db.curbit + (if hash &&& (db.hmask + 1) ≠ 0 then 2 else 1) = node hash.toNat (l + 1)
    rw [node,hat.curbit]
    simp only [hgoes]
  · change db.hmask ||| (db.hmask + 1) = mask (l + 1)
    rw [hat.hmask]
    exact mask_or (by omega)

def Fits (pairs : List Pair) (need : ℕ) : Prop := 2 + costs pairs + (need + 4) ≤ PBLKSIZ

instance (pairs : List Pair) (need : ℕ) : Decidable (Fits pairs need) := inferInstanceAs (Decidable (_ ≤ _))

theorem Holds.fits {pag : Page} (hpag : Holds o pag pairs) (need : ℕ) :
    Sdbm.fitpair o pag need = some (decide (Fits pairs need)) := hpag.fitpair need

theorem fits_of_subset {l₁ l₂ : List Pair} (hnodup : (l₁.map Prod.fst).Nodup) (hsub : ∀ pr ∈ l₁, pr ∈ l₂)
    (hfits : Fits l₂ need) : Fits l₁ need := by
  have hle := costs_le_of_subset hnodup hsub
  rw [Fits] at hfits ⊢
  omega

/-- What `makroom` leaves: a page with room, or pairs with so many bits in common that there is none. -/
structure Made (o : ByteOrder) (db db' : SDBM) (content content' : Content) (h l smax need : ℕ) (room : Bool) : Prop where
  rdonly : db'.rdonly = db.rdonly
  held : ∀ pr, Held content' pr ↔ Held content pr
  mid : ∃ l', Mid o db' content' h l' ∧ (room = true → Fits (content' (h % 2 ^ l')) need)
  full : room = false → ¬ Fits ((content (h % 2 ^ l)).filter (near (l + smax) h)) need
  inv : room = false → (smax = 0 → Inv o db content) → Inv o db' content'

theorem Mid.makroom {smax : ℕ} (hmid : Mid o db content hash.toNat l) (hat : At db hash.toNat l)
    (hfull : ¬ Fits (content (hash.toNat % 2 ^ l)) need)
    (hnear : Fits ((content (hash.toNat % 2 ^ l)).filter (near 15 hash.toNat)) need) :
    ∃ room db' content', makroom o hash need smax db = some (room,db') ∧
      Made o db db' content content' hash.toNat l smax need room := by
  induction smax generalizing db content l with
  | zero =>
    refine ⟨false,db,content,rfl,rfl,fun _ => Iff.rfl,⟨l,hmid,fun h => absurd h Bool.false_ne_true⟩,fun _ => ?_,
      fun _ h => h rfl⟩
    have hall : (content (hash.toNat % 2 ^ l)).filter (near (l + 0) hash.toNat) = content (hash.toNat % 2 ^ l) :=
      List.filter_eq_self.mpr (fun pr hpr => near_iff.mpr (hmid.stored.near_of_mem hmid.leaf hpr))
    rwa [hall]
  | succ smax ih =>
    -- a page that is full has pairs that can be told apart
    have hlevel : l ≤ 14 := by
      by_contra hgt
      have hall : (content (hash.toNat % 2 ^ l)).filter (near 15 hash.toNat) = content (hash.toNat % 2 ^ l) :=
        List.filter_eq_self.mpr (fun pr hpr =>
          near_iff.mpr (mod_of_le (by omega) (hmid.stored.near_of_mem hmid.leaf hpr)))
      rw [hall] at hnear
      exact hfull hnear
    obtain ⟨db₁,hsplit,hat₁,hrdonly,hmid₁⟩ := hmid.splitPage hat hlevel
    have hheld : ∀ pr, Held (splitContent content (hash.toNat % 2 ^ l) l) pr ↔ Held content pr :=
      fun pr => hmid.stored.held_split hmid.leaf
    have hmod := hmid.stored.splitContent_mod_succ hmid.leaf
    -- what has more bits in common has this one in common
    have hfilter : ∀ k, l + 1 ≤ k → (splitContent content (hash.toNat % 2 ^ l) l (hash.toNat % 2 ^ (l + 1))).filter
        (near k hash.toNat) = (content (hash.toNat % 2 ^ l)).filter (near k hash.toNat) := by
      intro k hk
      rw [hmod,List.filter_filter]
      refine List.filter_congr (fun pr _ => ?_)
      cases hnear : near k hash.toNat pr with
      | false => rfl
      | true => exact near_iff.mpr (mod_of_le hk (near_iff.mp hnear))
    rw [Sdbm.makroom,hsplit,Option.bind_eq_bind,Option.bind_some,hmid₁.holds.fits,Option.bind_eq_bind,
      Option.bind_some]
    by_cases hfits : Fits (splitContent content (hash.toNat % 2 ^ l) l (hash.toNat % 2 ^ (l + 1))) need
    · rw [decide_eq_true hfits,if_pos rfl]
      exact ⟨true,db₁,_,rfl,hrdonly,hheld,⟨l + 1,hmid₁,fun _ => hfits⟩,fun h => absurd h Bool.noConfusion,
        fun h => absurd h Bool.noConfusion⟩
    · rw [decide_eq_false hfits,if_neg Bool.false_ne_true]
      obtain ⟨hmid₂,hat₂,hinv₂⟩ := hmid₁.descend hat₁ hlevel
      obtain ⟨room,db',content',hrun,hmade⟩ := ih hmid₂ hat₂ hfits (by rw [hfilter 15 (by omega)]; exact hnear)
      refine ⟨room,db',content',hrun,hmade.rdonly.trans hrdonly,fun pr => (hmade.held pr).trans (hheld pr),hmade.mid,?_,
        fun hroom _ => hmade.inv hroom (fun _ => hinv₂)⟩
      intro hroom
      have hnot := hmade.full hroom
      rwa [hfilter _ (by omega),Nat.add_right_comm,Nat.add_assoc] at hnot

end Edelib.Sdbm
