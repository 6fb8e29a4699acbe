import Edelib.Foundation.HeapTrie
import Edelib.Sdbm.Database
import Mathlib.Data.Nat.Bitwise

/-! # The directory is a trie

The bits of the directory file mark the inner nodes of a binary trie, as long as they are in its first block. `getpage`
goes down to the leaf of a hash, and a bit that is set marks a node.
-/
namespace Edelib.Sdbm
open Foundation SlottedPage TextBlock HeapTrie

def marks (dirf : List TextBlock.Block) (n : ℕ) : Bool := ((dirf.headD blankDir).getD (n / 8) 0).toNat.testBit (n % 8)

/-- A directory of one block at most, and what is known of it. -/
structure DirOk (db : SDBM) : Prop where
  few : db.dirf.length ≤ 1
  size : ∀ b ∈ db.dirf, b.length = DBLKSIZ
  maxbno : db.maxbno = db.dirf.length * 32768
  buffer : db.dirbno = 0 ∧ db.dirbuf = db.dirf.headD blankDir ∨ db.dirbno ≠ 0 ∧ db.dirf ≠ []

def SDBM.cached (db : SDBM) : SDBM := { db with dirbuf := db.dirf.headD blankDir, dirbno := 0 }

variable {db db' : SDBM} {dirf : List TextBlock.Block} {h l n : ℕ} {hash : BitVec 64}

theorem marks_nil (n : ℕ) : marks [] n = false := by
  have hzero : (blankDir.getD (n / 8) 0) = 0 := by
    rw [List.getD_eq_getElem?_getD,blankDir,List.getElem?_replicate]
    split_ifs <;> rfl
  rw [marks,List.headD_nil,hzero]
  exact Nat.zero_testBit _

theorem marks_of_le (hsize : ∀ b ∈ dirf, b.length = DBLKSIZ) (hn : 32768 ≤ n) : marks dirf n = false := by
  have hlength : (dirf.headD blankDir).length = 4096 := by
    cases dirf with
    | nil => exact List.length_replicate
    | cons b rest => exact hsize b List.mem_cons_self
  have hout : (dirf.headD blankDir).length ≤ n / 8 := by omega
  rw [marks,List.getD_eq_default _ _ hout]
  exact Nat.zero_testBit _

namespace DirOk

theorem length_headD (hdir : DirOk db) : (db.dirf.headD blankDir).length = 4096 := by
  cases hdirf : db.dirf with
  | nil => exact List.length_replicate
  | cons b rest => exact hdir.size b (by rw [hdirf]; exact List.mem_cons_self)

theorem cached (hdir : DirOk db) : DirOk db.cached := ⟨hdir.few,hdir.size,hdir.maxbno,.inl ⟨rfl,rfl⟩⟩

theorem atDir (hdir : DirOk db) : db.atDir 0 = db.cached := by
  rw [SDBM.atDir,SDBM.cached]
  rcases hdir.buffer with ⟨hbno,hbuf⟩ | ⟨hbno,hne⟩
  · rw [if_neg (by rw [hbno]; decide),← hbuf,← hbno]
  · rw [if_pos (by exact_mod_cast Ne.symm hbno),SDBM.readDir]
    cases hdirf : db.dirf with
    | nil => exact absurd hdirf hne
    | cons b rest => rfl

theorem getdbit (hdir : DirOk db) (hn : n < 32768) : db.getdbit n = (marks db.dirf n,db.cached) := by
  have hblock : n / BYTESIZ / DBLKSIZ = 0 := by
    rw [BYTESIZ,DBLKSIZ]
    omega
  have hbyte : n / BYTESIZ % DBLKSIZ = n / 8 := by
    rw [BYTESIZ,DBLKSIZ]
    omega
  rw [SDBM.getdbit,hblock,hbyte,hdir.atDir]
  rfl

/-- The trie goes on below a node that is marked. -/
theorem goesOn (hdir : DirOk db) (n : ℕ) : ∃ db', goesOn db n = (marks db.dirf n,db') ∧ (db' = db ∨ db' = db.cached) := by
  rw [Sdbm.goesOn]
  have hmax := hdir.maxbno
  by_cases hlt : n < db.maxbno
  · have hfew := hdir.few
    rw [if_pos hlt,hdir.getdbit (by omega)]
    exact ⟨_,rfl,.inr rfl⟩
  · rw [if_neg hlt]
    refine ⟨db,?_,.inl rfl⟩
    congr 1
    cases hdirf : db.dirf with
    | nil => rw [marks_nil]
    | cons b rest =>
      rw [hdirf,List.length_cons] at hmax
      rw [← hdirf,marks_of_le hdir.size (by omega)]

theorem walk (hdir : DirOk db) (hl : Leaf (marks db.dirf) hash.toNat l) {i steps : ℕ} (hi : i ≤ l) (hsteps : l - i ≤ steps) :
    ∃ db', walk hash steps i (node hash.toNat i) db = some (l,node hash.toNat l,db') ∧ (db' = db ∨ db' = db.cached) := by
  induction steps generalizing i db with
  | zero =>
    obtain rfl : i = l := by omega
    obtain ⟨db',hgoes,hdb'⟩ := hdir.goesOn (node hash.toNat i)
    rw [Sdbm.walk,hgoes,hl.unmarked]
    exact ⟨db',rfl,hdb'⟩
  | succ steps ih =>
    obtain ⟨db₁,hgoes,hdb₁⟩ := hdir.goesOn (node hash.toNat i)
    rw [Sdbm.walk,hgoes]
    rcases Nat.eq_or_lt_of_le hi with rfl | hlt
    · rw [hl.unmarked]
      exact ⟨db₁,rfl,hdb₁⟩
    · rw [hl.above i hlt]
      have hdir₁ : DirOk db₁ := by
        rcases hdb₁ with rfl | rfl
        · exact hdir
        · exact hdir.cached
      have hdirf₁ : db₁.dirf = db.dirf := by
        rcases hdb₁ with rfl | rfl <;> rfl
      obtain ⟨db',hrun,hdb'⟩ := ih hdir₁ (by rw [hdirf₁]; exact hl) hlt (by omega)
      refine ⟨db',hrun,?_⟩
      rcases hdb₁ with rfl | rfl
      · exact hdb'
      · exact .inr (hdb'.elim id id)

end DirOk

/-! ## Setting a bit -/

theorem testBit_set_byte {blk : TextBlock.Block} (hlength : blk.length = 4096) (hn : n < 32768) (m : ℕ) :
    ((blk.set (n / 8) (UInt8.ofNat ((blk.getD (n / 8) 0).toNat ||| 2 ^ (n % 8)))).getD (m / 8) 0).toNat.testBit (m % 8) =
      (decide (m = n) || (blk.getD (m / 8) 0).toNat.testBit (m % 8)) := by
  have hlt : n / 8 < blk.length := by omega
  by_cases hbyte : m / 8 = n / 8
  · have hor : (blk.getD (n / 8) 0).toNat ||| 2 ^ (n % 8) < 2 ^ 8 :=
      Nat.or_lt_two_pow (blk.getD (n / 8) 0).toNat_lt (Nat.pow_lt_pow_right (by decide) (by omega))
    have hmn : decide (m = n) = decide (n % 8 = m % 8) := decide_eq_decide.mpr (by constructor <;> intro h <;> omega)
    rw [hbyte,List.getD_eq_getElem _ _ (by rw [List.length_set]; exact hlt),List.getElem_set_self,
      UInt8.toNat_ofNat_of_lt' hor,Nat.testBit_or,Nat.testBit_two_pow,hmn,Bool.or_comm]
  · have hne : m ≠ n := fun heq => hbyte (by rw [heq])
    rw [decide_eq_false hne,Bool.false_or,List.getD_eq_getElem?_getD,List.getElem?_set_ne (Ne.symm hbyte),
      ← List.getD_eq_getElem?_getD]

theorem DirOk.setdbit (hdir : DirOk db) (hn : n + 1 < 2 ^ 15) : ∃ blk, db.setdbit n =
    { db.cached with dirbuf := blk, maxbno := 32768, dirf := [blk] } ∧ blk.length = 4096 ∧
      marks [blk] = mark (marks db.dirf) n := by
  have hblock : n / BYTESIZ / DBLKSIZ = 0 := by
    rw [BYTESIZ,DBLKSIZ]
    omega
  have hbyte : n / BYTESIZ % DBLKSIZ = n / 8 := by
    rw [BYTESIZ,DBLKSIZ]
    omega
  have hlength := hdir.length_headD
  have hmax := hdir.maxbno
  refine ⟨(db.dirf.headD blankDir).set (n / 8)
    (UInt8.ofNat (((db.dirf.headD blankDir).getD (n / 8) 0).toNat ||| 2 ^ (n % 8))),?_,?_,?_⟩
  · rw [SDBM.setdbit,hblock,hbyte,hdir.atDir]
    have hbits : DBLKSIZ * BYTESIZ = 32768 := by
      rw [DBLKSIZ,BYTESIZ]
    have hnew : SDBM.grown db.maxbno n = 32768 := by
      have hfew := hdir.few
      rw [SDBM.grown,hbits]
      split_ifs <;> omega
    have hput : ∀ blk, putBlock blankDir db.dirf 0 blk = [blk] := by
      intro blk
      rw [putBlock]
      have hfew := hdir.few
      cases hdirf : db.dirf with
      | nil => rfl
      | cons b rest =>
        rw [hdirf,List.length_cons] at hfew
        obtain rfl : rest = [] := List.length_eq_zero_iff.mp (by omega)
        rfl
    have hmod : n % BYTESIZ = n % 8 := rfl
    simp only [SDBM.cached,hnew,hput,hmod]
  · rw [List.length_set,hlength]
  · funext m
    have hbit := testBit_set_byte hlength (by omega : n < 32768) m
    rw [marks,List.headD_cons,hbit]
    by_cases hm : m = n
    · rw [hm,decide_eq_true rfl,Bool.true_or,mark_self]
    · rw [decide_eq_false hm,Bool.false_or,mark_of_ne hm]
      rfl

/-! ## Masks -/

theorem toNat_mask (hl : l < 64) : (mask l).toNat = 2 ^ l - 1 := by
  have hlt : 2 ^ l < 2 ^ 64 := Nat.pow_lt_pow_right (by decide) hl
  rw [mask,BitVec.toNat_ofNat,Nat.mod_eq_of_lt (by omega)]

theorem toNat_mask_succ (hl : l < 64) : (mask l + 1).toNat = 2 ^ l := by
  have hlt : 2 ^ l < 2 ^ 64 := Nat.pow_lt_pow_right (by decide) hl
  have hpos : 0 < 2 ^ l := Nat.two_pow_pos l
  rw [BitVec.toNat_add,toNat_mask hl]
  have hone : (1 : BitVec 64).toNat = 1 := rfl
  rw [hone,Nat.sub_add_cancel hpos,Nat.mod_eq_of_lt hlt]

theorem toNat_and_mask (hl : l < 64) : (hash &&& mask l).toNat = hash.toNat % 2 ^ l := by
  rw [BitVec.toNat_and,toNat_mask hl,Nat.and_two_pow_sub_one_eq_mod]

theorem and_mask_succ_ne_zero (hl : l < 64) : hash &&& (mask l + 1) ≠ 0 ↔ hash.toNat.testBit l = true := by
  have hzero : hash &&& (mask l + 1) = 0 ↔ (hash &&& (mask l + 1)).toNat = 0 := by
    rw [← BitVec.toNat_inj]
    rfl
  rw [Ne,hzero,BitVec.toNat_and,toNat_mask_succ hl,Nat.and_two_pow]
  cases hash.toNat.testBit l with
  | false => simp
  | true =>
    have hpos : 0 < 2 ^ l := Nat.two_pow_pos l
    simp

theorem toNat_newp (hl : l < 64) : ((hash &&& mask l) ||| (mask l + 1)).toNat = hash.toNat % 2 ^ l + 2 ^ l := by
  have hlt : hash.toNat % 2 ^ l < 2 ^ l := Nat.mod_lt _ (Nat.two_pow_pos l)
  rw [BitVec.toNat_or,toNat_and_mask hl,toNat_mask_succ hl,Nat.or_comm,Nat.add_comm]
  have := (Nat.two_pow_add_eq_or_of_lt hlt 1).symm
  rwa [Nat.mul_one] at this

theorem mask_or (hl : l + 1 < 64) : mask l ||| (mask l + 1) = mask (l + 1) := by
  have hpos : 0 < 2 ^ l := Nat.two_pow_pos l
  have hlt : 2 ^ l - 1 < 2 ^ l := by omega
  apply BitVec.eq_of_toNat_eq
  rw [BitVec.toNat_or,toNat_mask (by omega),toNat_mask_succ (by omega),toNat_mask hl,Nat.or_comm,Nat.pow_succ]
  have := (Nat.two_pow_add_eq_or_of_lt hlt 1).symm
  rw [Nat.mul_one] at this
  rw [this]
  omega

end Edelib.Sdbm
