import Edelib.Foundation.Bytes
import Edelib.Foundation.TextBlock

/-! # Pages with words at the front and data at the back

A page begins with words of two bytes and ends with data; what is between them is free. Data is put in front of the
data that is there, and words behind the words. No access reaches a byte outside of the page.
-/
namespace Edelib.Foundation.SlottedPage
open TextBlock

abbrev Page := TextBlock.Block

variable (o : ByteOrder)

def bytesOf (x : ℤ) : List UInt8 := o.bytes16 (BitVec.ofInt 16 x)

def words (ws : List ℤ) : Page := ws.flatMap (bytesOf o)

def load (p : Page) (off n : ℤ) : Option (List UInt8) :=
  if 0 ≤ off ∧ 0 ≤ n ∧ off + n ≤ p.length then some ((p.drop off.toNat).take n.toNat) else none

def memcpy (p : Page) (off : ℤ) (bs : List UInt8) : Option Page := if 0 ≤ off then store p off.toNat bs else none

def word (p : Page) (i : ℕ) : Option ℤ := (load p (2 * i) 2).map (fun bs => (o.card16 bs).toInt)

def setWord (p : Page) (i : ℕ) (x : ℤ) : Option Page := memcpy p (2 * i) (bytesOf o x)

/-- Bytes are moved to the place before `dst` from that before `src`, the last one first. -/
def moveDown : ℕ → ℤ → ℤ → Page → Option Page
  | 0,_,_,p => some p
  | m + 1,dst,src,p => do
    let b ← load p (src - 1) 1
    let p ← memcpy p (dst - 1) b
    moveDown m (dst - 1) (src - 1) p

/-- A number of the type `short`. -/
def IsShort (x : ℤ) : Prop := -32768 ≤ x ∧ x < 32768

structure Laid (p : Page) (ws : List ℤ) (free data : Page) : Prop where
  eq : p = words o ws ++ (free ++ data)
  short : ∀ x ∈ ws, IsShort x

variable {o} {p : Page} {ws ws' : List ℤ} {free data : Page} {x : ℤ}

@[simp] theorem length_bytesOf (x : ℤ) : (bytesOf o x).length = 2 := ByteOrder.length_bytes16 o _

@[simp] theorem length_words (ws : List ℤ) : (words o ws).length = 2 * ws.length := by
  induction ws with
  | nil => rfl
  | cons x ws ih =>
    rw [words,List.flatMap_cons,List.length_append,length_bytesOf,← words,ih,List.length_cons]
    omega

theorem words_append (ws ws' : List ℤ) : words o (ws ++ ws') = words o ws ++ words o ws' := List.flatMap_append

theorem card_bytesOf (h : IsShort x) : (o.card16 (bytesOf o x)).toInt = x := by
  rw [bytesOf,ByteOrder.card16_bytes16]
  exact BitVec.toInt_ofInt_eq_self (by decide) h.1 h.2

/-! ## Accesses inside the page -/

theorem load_append (a b c : List UInt8) {n : ℤ} (hn : n = b.length) : load (a ++ (b ++ c)) a.length n = some b := by
  subst hn
  have hlen : (a.length : ℤ) + b.length ≤ (a ++ (b ++ c)).length := by
    rw [List.length_append,List.length_append]
    omega
  rw [load,if_pos ⟨by omega,by omega,hlen⟩,Int.toNat_natCast,Int.toNat_natCast,List.drop_left,List.take_left]

theorem memcpy_append (a b c bs : List UInt8) (h : bs.length = b.length) :
    memcpy (a ++ (b ++ c)) a.length bs = some (a ++ (bs ++ c)) := by
  have hlen : a.length + bs.length ≤ (a ++ (b ++ c)).length := by
    rw [List.length_append,List.length_append]
    omega
  have hdrop : (a ++ (b ++ c)).drop (a.length + bs.length) = c := by
    rw [h,← List.append_assoc,← List.length_append,List.drop_left]
  rw [memcpy,if_pos (by omega),Int.toNat_natCast,store,if_pos hlen,List.take_left,hdrop,List.append_assoc]

theorem length_memcpy {off : ℤ} {bs : List UInt8} {p' : Page} (h : memcpy p off bs = some p') : p'.length = p.length := by
  rw [memcpy,store] at h
  split_ifs at h with hoff hlen
  cases h
  rw [List.length_append,List.length_append,List.length_take,List.length_drop]
  omega

namespace Laid

theorem length (h : Laid o p ws free data) : p.length = 2 * ws.length + free.length + data.length := by
  rw [h.eq,List.length_append,List.length_append,length_words,Nat.add_assoc]

/-- The words at an index, before and behind it. -/
theorem split (h : Laid o p ws free data) {i : ℕ} (hi : i < ws.length) :
    p = words o (ws.take i) ++ (bytesOf o ws[i] ++ (words o (ws.drop (i + 1)) ++ (free ++ data))) := by
  have hws : ws = ws.take i ++ (ws[i] :: ws.drop (i + 1)) := by
    rw [← List.drop_eq_getElem_cons hi,List.take_append_drop]
  conv_lhs => rw [h.eq,hws,words_append]
  rw [List.append_assoc]
  congr 1
  rw [← List.append_assoc (bytesOf o ws[i])]
  rfl

theorem length_take_words {i : ℕ} (hi : i < ws.length) : ((words o (ws.take i)).length : ℤ) = 2 * i := by
  rw [length_words,List.length_take,Nat.min_eq_left (Nat.le_of_lt hi)]
  omega

theorem word (h : Laid o p ws free data) {i : ℕ} (hi : i < ws.length) : word o p i = some ws[i] := by
  have hload : load p (2 * i) 2 = some (bytesOf o ws[i]) := by
    rw [h.split hi,← length_take_words (o := o) hi]
    exact load_append _ _ _ (by rw [length_bytesOf]; rfl)
  rw [SlottedPage.word,hload,Option.map_some,card_bytesOf (h.short _ (List.getElem_mem hi))]

theorem word_of_getElem? (h : Laid o p ws free data) {i : ℕ} (hx : ws[i]? = some x) : SlottedPage.word o p i = some x := by
  obtain ⟨hi,rfl⟩ := List.getElem?_eq_some_iff.mp hx
  exact h.word hi

theorem setWord (h : Laid o p ws free data) {i : ℕ} (hi : i < ws.length) (hx : IsShort x) :
    ∃ p', setWord o p i x = some p' ∧ Laid o p' (ws.set i x) free data := by
  have hstored := memcpy_append (words o (ws.take i)) (bytesOf o ws[i]) (words o (ws.drop (i + 1)) ++ (free ++ data))
    (bytesOf o x) (by rw [length_bytesOf,length_bytesOf])
  rw [← h.split hi,length_take_words hi] at hstored
  refine ⟨_,hstored,?_,?_⟩
  · rw [List.set_eq_take_append_cons_drop,if_pos hi,words_append,List.append_assoc]
    congr 1
    rw [← List.append_assoc]
    rfl
  · intro y hy
    rcases List.mem_or_eq_of_mem_set hy with hy | rfl
    · exact h.short y hy
    · exact hx

/-- A word behind the words takes two bytes of what is free. -/
theorem pushWord (h : Laid o p ws free data) (hfree : 2 ≤ free.length) (hx : IsShort x) :
    ∃ p', SlottedPage.setWord o p ws.length x = some p' ∧ Laid o p' (ws ++ [x]) (free.drop 2) data := by
  have hlen : (bytesOf o x).length = (free.take 2).length := by
    rw [length_bytesOf,List.length_take,Nat.min_eq_left hfree]
  have hstored := memcpy_append (words o ws) (free.take 2) (free.drop 2 ++ data) (bytesOf o x) hlen
  rw [← List.append_assoc (free.take 2),List.take_append_drop,← h.eq,length_words,Nat.cast_mul] at hstored
  refine ⟨_,hstored,?_,?_⟩
  · rw [words_append,List.append_assoc]
    congr 2
    exact (List.append_nil _).symm
  · intro y hy
    rcases List.mem_append.mp hy with hy | hy
    · exact h.short y hy
    · exact List.mem_singleton.mp hy ▸ hx

/-- Data in front of the data takes the end of what is free. -/
theorem pushData (h : Laid o p ws free data) (bs : List UInt8) (hfree : bs.length ≤ free.length) :
    ∃ p', memcpy p (p.length - data.length - bs.length) bs = some p' ∧
      Laid o p' ws (free.take (free.length - bs.length)) (bs ++ data) := by
  have hback : bs.length = (free.drop (free.length - bs.length)).length := by
    rw [List.length_drop]
    omega
  have hstored := memcpy_append (words o ws ++ free.take (free.length - bs.length)) (free.drop (free.length - bs.length))
    data bs hback
  have hp : words o ws ++ free.take (free.length - bs.length) ++ (free.drop (free.length - bs.length) ++ data) = p := by
    rw [List.append_assoc,← List.append_assoc (free.take _),List.take_append_drop,← h.eq]
  have hoff : ((words o ws ++ free.take (free.length - bs.length)).length : ℤ) = p.length - data.length - bs.length := by
    rw [h.length,List.length_append,length_words,List.length_take]
    omega
  rw [hp,hoff] at hstored
  exact ⟨_,hstored,by rw [List.append_assoc],h.short⟩

/-- A part of the data. -/
theorem loadData {a b c : List UInt8} (h : Laid o p ws free (a ++ (b ++ c))) :
    load p (p.length - c.length - b.length) b.length = some b := by
  have hp : p = (words o ws ++ free ++ a) ++ (b ++ c) := by
    rw [h.eq,List.append_assoc,List.append_assoc]
  have hoff : ((words o ws ++ free ++ a).length : ℤ) = p.length - c.length - b.length := by
    simp only [hp,List.length_append]
    omega
  rw [← hoff]
  conv_lhs => rw [hp]
  exact load_append _ b c rfl

/-- The last words can be given up. -/
theorem dropWords (h : Laid o p (ws ++ ws') free data) : Laid o p ws (words o ws' ++ free) data := by
  refine ⟨?_,fun x hx => h.short x (List.mem_append_left _ hx)⟩
  rw [h.eq,words_append,List.append_assoc,List.append_assoc]

/-- The first of the data can be given up. -/
theorem dropData {a : List UInt8} (h : Laid o p ws free (a ++ data)) : Laid o p ws (free ++ a) data :=
  ⟨by rw [h.eq,List.append_assoc],h.short⟩

end Laid

/-! ## Closing a gap -/

theorem moveDown_append (a m g c : List UInt8) : ∃ x, x.length = g.length ∧
    moveDown m.length (a ++ (m ++ g)).length (a ++ m).length (a ++ (m ++ (g ++ c))) = some (a ++ (x ++ (m ++ c))) := by
  induction m using List.reverseRecOn generalizing g c with
  | nil => exact ⟨g,rfl,rfl⟩
  | append_singleton m b ih =>
    -- the gap moves by one byte: what was before it is behind it
    obtain ⟨g',b',hg⟩ : ∃ g' b', [b] ++ g = g' ++ [b'] := by
      rcases List.eq_nil_or_concat ([b] ++ g) with h | ⟨g',b',h⟩
      · cases h
      · exact ⟨g',b',h.trans List.concat_eq_append⟩
    have hlen : g'.length = g.length := by
      have := congrArg List.length hg
      rw [List.length_append,List.length_append,List.length_singleton,List.length_singleton] at this
      omega
    obtain ⟨x,hx,hmoved⟩ := ih g' (b :: c)
    refine ⟨x,hx.trans hlen,?_⟩
    have hload : load (a ++ (m ++ [b] ++ (g ++ c))) ((a ++ m).length : ℕ) 1 = some [b] := by
      have := load_append (a ++ m) [b] (g ++ c) (n := 1) rfl
      simpa only [List.append_assoc] using this
    have hstore : memcpy (a ++ (m ++ [b] ++ (g ++ c))) ((a ++ (m ++ g')).length : ℕ) [b] =
        some (a ++ (m ++ (g' ++ (b :: c)))) := by
      have hp : a ++ (m ++ [b] ++ (g ++ c)) = (a ++ (m ++ g')) ++ ([b'] ++ c) := by
        have : [b] ++ (g ++ c) = g' ++ ([b'] ++ c) := by
          rw [← List.append_assoc,hg,List.append_assoc]
        simp only [List.append_assoc] at this ⊢
        rw [this]
      have := memcpy_append (a ++ (m ++ g')) [b'] c [b] rfl
      rw [hp,this]
      simp only [List.append_assoc,List.singleton_append]
    have hsrc : ((a ++ (m ++ [b])).length : ℤ) - 1 = ((a ++ m).length : ℕ) := by
      simp only [List.length_append,List.length_singleton]
      omega
    have hdst : ((a ++ (m ++ [b] ++ g)).length : ℤ) - 1 = ((a ++ (m ++ g')).length : ℕ) := by
      simp only [List.length_append,List.length_singleton]
      omega
    rw [List.length_append,List.length_singleton,moveDown,hsrc,hdst,hload,Option.bind_eq_bind,Option.bind_some,hstore,
      Option.bind_some,hmoved]
    simp only [List.append_assoc,List.singleton_append]

/-- The data before a gap is moved to its end. -/
theorem Laid.moveDown {m g c : List UInt8} (h : Laid o p ws free (m ++ (g ++ c))) : ∃ p' x, x.length = g.length ∧
    moveDown m.length (p.length - c.length) (p.length - c.length - g.length) p = some p' ∧
      Laid o p' ws (free ++ x) (m ++ c) := by
  obtain ⟨x,hx,hmoved⟩ := moveDown_append (words o ws ++ free) m g c
  have hp : words o ws ++ free ++ (m ++ (g ++ c)) = p := by
    rw [h.eq,List.append_assoc]
  have hlen := congrArg List.length hp
  simp only [List.length_append] at hlen
  have hdst : ((words o ws ++ free ++ (m ++ g)).length : ℤ) = p.length - c.length := by
    simp only [List.length_append]
    omega
  have hsrc : ((words o ws ++ free ++ m).length : ℤ) = p.length - c.length - g.length := by
    simp only [List.length_append]
    omega
  rw [hp,hdst,hsrc] at hmoved
  exact ⟨_,x,hx,hmoved,by simp only [List.append_assoc],h.short⟩

end Edelib.Foundation.SlottedPage
