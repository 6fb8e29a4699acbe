import Edelib.Sdbm.Page
import Mathlib.Algebra.Order.BigOperators.Group.List
import Mathlib.Tactic.Ring

/-! # What the page routines do to the pairs of a page

Each routine is one on lists: a pair is put behind the others, the first with its key is looked up or deleted, and a
page is split in two by a bit of the hash. No routine leaves the page where there is room.
-/
namespace Edelib.Sdbm
open Foundation SlottedPage

variable {o : ByteOrder} {pag : Page} {pairs l₁ l₂ : List Pair} {key val : Datum}

/-! ## The format -/

theorem packed_append (l₁ l₂ : List Pair) : packed (l₁ ++ l₂) = packed l₂ ++ packed l₁ := by
  induction l₁ with
  | nil => rw [packed,List.append_nil,List.nil_append]
  | cons p l₁ ih =>
    obtain ⟨key,val⟩ := p
    rw [List.cons_append,packed,packed,ih,List.append_assoc]

theorem offsets_append (off : ℤ) (l₁ l₂ : List Pair) :
    offsets off (l₁ ++ l₂) = offsets off l₁ ++ offsets (off - (packed l₁).length) l₂ := by
  induction l₁ generalizing off with
  | nil => rw [packed,List.length_nil,Nat.cast_zero,sub_zero]; rfl
  | cons p l₁ ih =>
    obtain ⟨key,val⟩ := p
    have hoff : off - key.length - val.length - (packed l₁).length = off - (packed ((key,val) :: l₁)).length := by
      rw [packed,List.length_append,List.length_append]
      omega
    rw [List.cons_append,offsets,offsets,ih,hoff]
    rfl

@[simp] theorem length_offsets (off : ℤ) (pairs : List Pair) : (offsets off pairs).length = 2 * pairs.length := by
  induction pairs generalizing off with
  | nil => rfl
  | cons p pairs ih =>
    obtain ⟨key,val⟩ := p
    rw [offsets,List.length_cons,List.length_cons,ih,List.length_cons]
    omega

def place (pairs : List Pair) : ℤ := PBLKSIZ - (packed pairs).length

theorem place_nil : place [] = PBLKSIZ := by
  rw [place,packed,List.length_nil,Nat.cast_zero,sub_zero]

theorem place_snoc : place (pairs ++ [(key,val)]) = place pairs - key.length - val.length := by
  rw [place,place,packed_append,packed,packed,List.nil_append,List.length_append,List.length_append]
  push_cast
  ring

theorem mem_offsets {off x : ℤ} (hx : x ∈ offsets off pairs) : off - (packed pairs).length ≤ x ∧ x ≤ off := by
  induction pairs generalizing off with
  | nil => cases hx
  | cons p pairs ih =>
    obtain ⟨key,val⟩ := p
    rw [packed,List.length_append,List.length_append]
    rw [offsets] at hx
    rcases List.mem_cons.mp hx with rfl | hx
    · omega
    rcases List.mem_cons.mp hx with rfl | hx
    · omega
    · have := ih hx
      omega

theorem costs_eq (pairs : List Pair) : costs pairs = (packed pairs).length + 4 * pairs.length := by
  induction pairs with
  | nil => rfl
  | cons p pairs ih =>
    rw [costs,List.map_cons,List.sum_cons,← costs,ih,cost,packed,List.length_append,List.length_append,List.length_cons]
    omega

theorem costs_append (l₁ l₂ : List Pair) : costs (l₁ ++ l₂) = costs l₁ + costs l₂ := by
  rw [costs,List.map_append,List.sum_append]
  rfl

/-- Shifting every offset. -/
theorem map_offsets (off zoo : ℤ) (pairs : List Pair) : (offsets off pairs).map (· + zoo) = offsets (off + zoo) pairs := by
  induction pairs generalizing off with
  | nil => rfl
  | cons p pairs ih =>
    obtain ⟨key,val⟩ := p
    have hkey : off - key.length + zoo = off + zoo - key.length := by ring
    have hval : off - key.length - val.length + zoo = off + zoo - key.length - val.length := by ring
    rw [offsets,List.map_cons,List.map_cons,ih,offsets,hkey,hval]

namespace Holds

/-- The count, the offsets and the pairs fit. -/
theorem room (h : Holds o pag pairs) : 2 + costs pairs ≤ PBLKSIZ := by
  obtain ⟨free,hlaid⟩ := h.laid
  have hlen := hlaid.length
  have hcosts := costs_eq pairs
  rw [h.length,List.length_cons,length_offsets] at hlen
  omega

theorem ino_zero (h : Holds o pag pairs) : ino o pag 0 = some (2 * (pairs.length : ℤ)) := by
  obtain ⟨free,hlaid⟩ := h.laid
  rw [ino,if_pos le_rfl]
  exact hlaid.word_of_getElem? rfl

/-- The offset of a word, by its place among the offsets. -/
theorem ino_succ (h : Holds o pag pairs) {i x : ℤ} (j : ℕ) (hi : i = j + 1) (hx : (offsets PBLKSIZ pairs)[j]? = some x) :
    ino o pag i = some x := by
  obtain ⟨free,hlaid⟩ := h.laid
  have htoNat : i.toNat = j + 1 := by omega
  rw [ino,if_pos (by omega),htoNat]
  exact hlaid.word_of_getElem? hx

theorem ino_key (h : Holds o pag (l₁ ++ (key,val) :: l₂)) :
    ino o pag (2 * l₁.length + 1) = some (place l₁ - key.length) := by
  refine h.ino_succ (2 * l₁.length) (by omega) ?_
  rw [offsets_append,List.getElem?_append_right (by rw [length_offsets]),length_offsets,Nat.sub_self]
  rfl

theorem ino_val (h : Holds o pag (l₁ ++ (key,val) :: l₂)) :
    ino o pag (2 * l₁.length + 2) = some (place l₁ - key.length - val.length) := by
  refine h.ino_succ (2 * l₁.length + 1) (by omega) ?_
  rw [offsets_append,List.getElem?_append_right (by rw [length_offsets]; omega),length_offsets,Nat.add_sub_cancel_left]
  rfl

/-- Where the pairs so far begin. -/
theorem ino_before (h : Holds o pag (l₁ ++ l₂)) (hne : l₁ ≠ []) : ino o pag (2 * l₁.length) = some (place l₁) := by
  obtain rfl | ⟨l,⟨key,val⟩,rfl⟩ := List.eq_nil_or_concat l₁
  · exact absurd rfl hne
  · rw [List.concat_eq_append] at h ⊢
    rw [List.append_assoc] at h
    have hval := h.ino_val
    rw [← place_snoc] at hval
    have hi : (2 * ((l ++ [(key,val)]).length : ℤ)) = 2 * l.length + 2 := by
      rw [List.length_append,List.length_singleton]
      push_cast
      ring
    rw [hi,hval]

theorem endOfFree (h : Holds o pag pairs) :
    endOfFree o pag (2 * pairs.length) = some (place pairs) := by
  rw [Sdbm.endOfFree]
  cases hpairs : pairs with
  | nil => rw [if_neg (by simp),place_nil]
  | cons p rest =>
    rw [if_pos (by rw [List.length_cons]; omega),← hpairs]
    have h' : Holds o pag (pairs ++ []) := by rwa [List.append_nil]
    exact h'.ino_before (by rw [hpairs]; exact List.cons_ne_nil _ _)

theorem load_key (h : Holds o pag (l₁ ++ (key,val) :: l₂)) :
    load pag (place l₁ - key.length) key.length = some key := by
  obtain ⟨free,hlaid⟩ := h.laid
  have hdata : packed (l₁ ++ (key,val) :: l₂) = (packed l₂ ++ val) ++ (key ++ packed l₁) := by
    rw [packed_append,packed]
    simp only [List.append_assoc]
  rw [hdata] at hlaid
  have := hlaid.loadData
  rwa [h.length] at this

theorem load_val (h : Holds o pag (l₁ ++ (key,val) :: l₂)) :
    load pag (place l₁ - key.length - val.length) val.length = some val := by
  obtain ⟨free,hlaid⟩ := h.laid
  have hdata : packed (l₁ ++ (key,val) :: l₂) = packed l₂ ++ (val ++ (key ++ packed l₁)) := by
    rw [packed_append,packed]
    simp only [List.append_assoc]
  have hoff : place l₁ - key.length - val.length = PBLKSIZ - (key ++ packed l₁).length - val.length := by
    rw [place,List.length_append]
    push_cast
    ring
  rw [hdata] at hlaid
  have := hlaid.loadData
  rwa [h.length,← hoff] at this

end Holds

/-! ## Room, and putting a pair -/

theorem Holds.fitpair (h : Holds o pag pairs) (need : ℕ) :
    fitpair o pag need = some (decide (2 + costs pairs + (need + 4) ≤ PBLKSIZ)) := by
  have hcosts := costs_eq pairs
  rw [Sdbm.fitpair,h.ino_zero,Option.bind_eq_bind,Option.bind_some,h.endOfFree,Option.bind_some]
  have hplace : place pairs = PBLKSIZ - (packed pairs).length := rfl
  refine congrArg some (decide_eq_decide.mpr ?_)
  constructor <;> intro hfit <;> omega

theorem Holds.putpair (h : Holds o pag pairs) (key val : Datum) (hroom : 2 + costs pairs + cost (key,val) ≤ PBLKSIZ) :
    ∃ pag', putpair o pag key val = some pag' ∧ Holds o pag' (pairs ++ [(key,val)]) := by
  have hlength := h.length
  obtain ⟨free,hlaid⟩ := h.laid
  have hcosts := costs_eq pairs
  have hlen := hlaid.length
  rw [hlength,List.length_cons,length_offsets] at hlen
  rw [cost] at hroom
  dsimp only at hroom
  have hsize : PBLKSIZ = 1024 := rfl
  have hplace : place pairs = PBLKSIZ - (packed pairs).length := rfl
  have hcount : ((2 * pairs.length : ℤ) :: offsets PBLKSIZ pairs).length = 2 * pairs.length + 1 := by
    rw [List.length_cons,length_offsets]
  -- the key, its offset, the data, its offset
  obtain ⟨p₁,hp₁,hlaid₁⟩ := hlaid.pushData key (by omega)
  have hlength₁ := length_memcpy hp₁
  obtain ⟨p₂,hp₂,hlaid₂⟩ := hlaid₁.pushWord (x := place pairs - key.length)
    (by rw [List.length_take]; omega) (by constructor <;> omega)
  have hlength₂ := length_memcpy hp₂
  obtain ⟨p₃,hp₃,hlaid₃⟩ := hlaid₂.pushData val
    (by rw [List.length_drop,List.length_take]; omega)
  have hlength₃ := length_memcpy hp₃
  obtain ⟨p₄,hp₄,hlaid₄⟩ := hlaid₃.pushWord (x := place pairs - key.length - val.length)
    (by rw [List.length_take,List.length_drop,List.length_take]; omega) (by constructor <;> omega)
  have hlength₄ := length_memcpy hp₄
  obtain ⟨p₅,hp₅,hlaid₅⟩ := hlaid₄.setWord (i := 0) (x := 2 * pairs.length + 2) (by simp) (by constructor <;> omega)
  have hlength₅ := length_memcpy hp₅
  refine ⟨p₅,?_,?_,?_⟩
  · have hoff₁ : ((pag.length : ℤ) - (packed pairs).length - key.length) = place pairs - key.length := by
      rw [hlength,place]
    have hoff₃ : ((p₂.length : ℤ) - (key ++ packed pairs).length - val.length) =
        place pairs - key.length - val.length := by
      rw [hlength₂,hlength₁,hlength,place,List.length_append]
      push_cast
      ring
    rw [hoff₁] at hp₁
    rw [hoff₃] at hp₃
    have hset₂ : setIno o p₁ (2 * pairs.length + 1) (place pairs - key.length) = some p₂ := by
      rw [setIno,if_pos (by omega)]
      have : ((2 * pairs.length + 1 : ℤ)).toNat = ((2 * pairs.length : ℤ) :: offsets PBLKSIZ pairs).length := by
        rw [hcount]
        omega
      rw [this]
      exact hp₂
    have hset₄ : setIno o p₃ (2 * pairs.length + 2) (place pairs - key.length - val.length) = some p₄ := by
      rw [setIno,if_pos (by omega)]
      have : ((2 * pairs.length + 2 : ℤ)).toNat = (((2 * pairs.length : ℤ) :: offsets PBLKSIZ pairs) ++
          [place pairs - key.length]).length := by
        rw [List.length_append,hcount,List.length_singleton]
        omega
      rw [this]
      exact hp₄
    have hcount₄ : ino o p₄ 0 = some (2 * (pairs.length : ℤ)) := by
      rw [ino,if_pos le_rfl]
      exact hlaid₄.word_of_getElem? rfl
    simp only [Sdbm.putpair,Option.bind_eq_bind,h.ino_zero,Option.bind_some,h.endOfFree,hp₁,hset₂,hp₃,hset₄,hcount₄]
    rw [setIno,if_pos le_rfl]
    exact hp₅
  · rw [hlength₅,hlength₄,hlength₃,hlength₂,hlength₁,hlength]
  · have hwords : (2 * (pairs ++ [(key,val)]).length : ℤ) :: offsets PBLKSIZ (pairs ++ [(key,val)]) =
        ((((2 * pairs.length : ℤ) :: offsets PBLKSIZ pairs) ++ [place pairs - key.length]) ++
          [place pairs - key.length - val.length]).set 0 (2 * pairs.length + 2) := by
      rw [offsets_append,List.length_append,List.length_singleton]
      simp only [List.cons_append,List.set_cons_zero,offsets,List.append_assoc,List.nil_append]
      congr 1
    have hdata : packed (pairs ++ [(key,val)]) = val ++ (key ++ packed pairs) := by
      rw [packed_append,packed,packed,List.nil_append,List.append_assoc]
    rw [hwords,hdata]
    exact ⟨_,hlaid₅⟩

/-! ## Looking for a key -/

def slot (before : ℕ) (found : Option ℕ) : ℤ := found.elim 0 (fun j => 2 * ((before + j : ℕ) : ℤ) + 1)

theorem slot_some (before j : ℕ) : slot before (some j) = 2 * ((before + j : ℕ) : ℤ) + 1 := rfl

theorem slot_map_succ (before : ℕ) (found : Option ℕ) : slot before (found.map (· + 1)) = slot (before + 1) found := by
  cases found with
  | none => rfl
  | some j => rw [Option.map_some,slot_some,slot_some,Nat.add_right_comm,Nat.add_assoc]

theorem Holds.seepairLoop (h : Holds o pag (l₁ ++ l₂)) (key : Datum) :
    seepairLoop o pag key l₂.length (2 * l₁.length + 1) (place l₁) =
      some (slot l₁.length (l₂.findIdx? (fun p => p.1 == key))) := by
  induction l₂ generalizing l₁ with
  | nil => rfl
  | cons p l₂ ih =>
    obtain ⟨k,v⟩ := p
    rw [List.length_cons,Sdbm.seepairLoop,h.ino_key,Option.bind_eq_bind,Option.bind_some]
    have hfound : (if (key.length : ℤ) = place l₁ - (place l₁ - k.length) then
        (load pag (place l₁ - k.length) key.length).map (· == key) else some false) = some (k == key) := by
      by_cases hlen : key.length = k.length
      · rw [if_pos (by omega),hlen,h.load_key]
        rfl
      · rw [if_neg (by omega)]
        have hne : k ≠ key := by
          rintro rfl
          exact hlen rfl
        rw [beq_eq_false_iff_ne.mpr hne]
    rw [hfound,Option.bind_eq_bind,Option.bind_some,List.findIdx?_cons]
    cases hk : k == key with
    | true =>
      rw [if_pos rfl,if_pos rfl]
      rfl
    | false =>
      have hval : ino o pag (2 * l₁.length + 1 + 1) = some (place l₁ - k.length - v.length) := by
        rw [add_assoc]
        exact h.ino_val
      have hnext : Holds o pag ((l₁ ++ [(k,v)]) ++ l₂) := by
        rw [List.append_assoc]
        exact h
      have hrest := ih hnext
      have hi : (2 * ((l₁ ++ [(k,v)]).length : ℤ) + 1) = 2 * l₁.length + 1 + 2 := by
        rw [List.length_append,List.length_singleton]
        push_cast
        ring
      rw [hi,place_snoc] at hrest
      rw [if_neg Bool.false_ne_true,if_neg Bool.false_ne_true,hval,Option.bind_some,hrest,slot_map_succ,List.length_append,
        List.length_singleton]

theorem Holds.seepair (h : Holds o pag pairs) (key : Datum) : seepair o pag (2 * pairs.length) key =
    some (slot 0 (pairs.findIdx? (fun p => p.1 == key))) := by
  have hloop := Holds.seepairLoop (List.nil_append pairs ▸ h : Holds o pag ([] ++ pairs)) key
  have hrounds : ((2 * pairs.length : ℤ) / 2).toNat = pairs.length := by omega
  rw [place_nil,List.length_nil,Nat.cast_zero,mul_zero,zero_add] at hloop
  rw [Sdbm.seepair,hrounds,hloop]

/-- The place of a key: the pairs before it have other keys. -/
theorem split_of_mem (h : key ∈ pairs.map Prod.fst) : ∃ l₁ val l₂, pairs = l₁ ++ (key,val) :: l₂ ∧ key ∉ l₁.map Prod.fst ∧
    pairs.findIdx? (fun p => p.1 == key) = some (l₁.length : ℕ) := by
  induction pairs with
  | nil => cases h
  | cons p pairs ih =>
    obtain ⟨k,v⟩ := p
    by_cases hk : k = key
    · subst hk
      refine ⟨[],v,pairs,rfl,List.not_mem_nil,?_⟩
      rw [List.findIdx?_cons,beq_self_eq_true,if_pos rfl,List.length_nil]
    · obtain ⟨l₁,val,l₂,rfl,hbefore,hidx⟩ := ih ((List.mem_cons.mp h).resolve_left (Ne.symm hk))
      refine ⟨(k,v) :: l₁,val,l₂,rfl,?_,?_⟩
      · rw [List.map_cons,List.mem_cons,not_or]
        exact ⟨Ne.symm hk,hbefore⟩
      · rw [List.findIdx?_cons,beq_eq_false_iff_ne.mpr hk,if_neg Bool.false_ne_true,hidx]
        rfl

theorem findIdx?_of_notMem (h : key ∉ pairs.map Prod.fst) : pairs.findIdx? (fun p => p.1 == key) = none := by
  rw [List.findIdx?_eq_none_iff]
  intro p hp
  rw [beq_eq_false_iff_ne]
  rintro rfl
  exact h (List.mem_map_of_mem hp)

theorem lookup_split (h : key ∉ l₁.map Prod.fst) : (l₁ ++ (key,val) :: l₂).lookup key = some val := by
  induction l₁ with
  | nil => exact List.lookup_cons_self
  | cons p l₁ ih =>
    obtain ⟨k,v⟩ := p
    rw [List.map_cons,List.mem_cons,not_or] at h
    rw [List.cons_append,List.lookup_cons,beq_eq_false_iff_ne.mpr h.1]
    exact ih h.2

theorem Holds.getpair (h : Holds o pag pairs) (key : Datum) : getpair o pag key = some (pairs.lookup key) := by
  rw [Sdbm.getpair,h.ino_zero,Option.bind_eq_bind,Option.bind_some]
  by_cases hmem : key ∈ pairs.map Prod.fst
  · obtain ⟨l₁,val,l₂,rfl,hbefore,hidx⟩ := split_of_mem hmem
    have hlen : ((l₁ ++ (key,val) :: l₂).length : ℤ) ≠ 0 := by
      rw [List.length_append,List.length_cons]
      omega
    have hdiff : place l₁ - key.length - (place l₁ - key.length - val.length) =
        val.length := by ring
    rw [if_neg (by omega),h.seepair,hidx,Option.bind_some,slot_some,Nat.zero_add,if_neg (by omega),h.ino_key,
      Option.bind_some,add_assoc,one_add_one_eq_two,h.ino_val,Option.bind_some,hdiff,h.load_val,Option.bind_eq_bind,Option.bind_some,
      lookup_split hbefore]
  · have hlookup : pairs.lookup key = none := by
      rw [List.lookup_eq_none_iff]
      intro p hp
      rw [bne_iff_ne]
      rintro rfl
      exact hmem (List.mem_map_of_mem hp)
    rw [h.seepair,findIdx?_of_notMem hmem,hlookup]
    split_ifs <;> rfl

theorem Holds.duppair (h : Holds o pag pairs) (key : Datum) :
    duppair o pag key = some (decide (key ∈ pairs.map Prod.fst)) := by
  rw [Sdbm.duppair,h.ino_zero,Option.bind_eq_bind,Option.bind_some]
  by_cases hmem : key ∈ pairs.map Prod.fst
  · obtain ⟨l₁,val,l₂,rfl,hbefore,hidx⟩ := split_of_mem hmem
    rw [if_pos (by rw [List.length_append,List.length_cons]; omega),h.seepair,hidx,Option.bind_some,slot_some,
      Nat.zero_add,decide_eq_true hmem,decide_eq_true (by omega)]
  · rw [h.seepair,findIdx?_of_notMem hmem,decide_eq_false hmem]
    split_ifs <;> rfl

theorem Holds.getnkey (h : Holds o pag pairs) {num : ℕ} (hnum : 0 < num) :
    getnkey o pag num = some (pairs[num - 1]?.map Prod.fst) := by
  rw [Sdbm.getnkey,h.ino_zero,Option.bind_eq_bind,Option.bind_some]
  by_cases hle : num ≤ pairs.length
  · obtain ⟨l₁,⟨key,val⟩,l₂,rfl,hlen⟩ : ∃ l₁ p l₂, pairs = l₁ ++ p :: l₂ ∧ l₁.length = num - 1 :=
      ⟨pairs.take (num - 1),pairs[num - 1],pairs.drop (num - 1 + 1),by
        rw [← List.drop_eq_getElem_cons,List.take_append_drop],by rw [List.length_take]; omega⟩
    have hi : ((num : ℤ) * 2 - 1) = 2 * l₁.length + 1 := by omega
    have hoff : (if (num : ℤ) * 2 - 1 > 1 then ino o pag (num * 2 - 1 - 1) else some (PBLKSIZ : ℤ)) =
        some (place l₁) := by
      by_cases hfirst : l₁ = []
      · subst hfirst
        rw [if_neg (by rw [hi,List.length_nil]; omega),place_nil]
      · have hpos := List.length_pos_iff.mpr hfirst
        have hi' : (num : ℤ) * 2 - 1 - 1 = 2 * l₁.length := by omega
        rw [if_pos (by omega),hi']
        exact h.ino_before hfirst
    have hdiff : place l₁ - (place l₁ - key.length) = key.length := by ring
    rw [if_neg (by rw [List.length_append,List.length_cons] at hle ⊢; omega),hoff,Option.bind_some,hi,h.ino_key,
      Option.bind_some,hdiff,h.load_key,Option.bind_eq_bind,Option.bind_some,← hlen,List.getElem?_append_right le_rfl,Nat.sub_self]
    rfl
  · rw [if_pos (by omega),List.getElem?_eq_none (by omega)]
    rfl

/-! ## Deleting a pair -/

theorem shiftIno_laid {ws ws' : List ℤ} {a b : ℤ} (zoo : ℤ) {free data : Page} (h : Laid o pag (ws ++ a :: b :: ws') free data)
    (hshort : ∀ x ∈ ws', IsShort (x + zoo)) :
    ∃ pag' a' b', shiftIno o ws'.length ws.length zoo pag = some pag' ∧
      Laid o pag' (ws ++ (ws'.map (· + zoo) ++ [a',b'])) free data := by
  induction ws' generalizing ws a b pag with
  | nil => exact ⟨pag,a,b,rfl,h⟩
  | cons c ws' ih =>
    obtain ⟨hc,hrest⟩ := List.forall_mem_cons.mp hshort
    have hread : ino o pag (ws.length + 2) = some c := by
      have htoNat : ((ws.length : ℤ) + 2).toNat = ws.length + 2 := by omega
      rw [ino,if_pos (by omega),htoNat]
      refine h.word_of_getElem? ?_
      rw [List.getElem?_append_right (by omega),Nat.add_sub_cancel_left]
      rfl
    obtain ⟨p₁,hp₁,hlaid₁⟩ := h.setWord (i := ws.length) (by simp) hc
    rw [List.set_append_right _ _ le_rfl,Nat.sub_self,List.set_cons_zero] at hlaid₁
    have hset : setIno o pag ws.length (c + zoo) = some p₁ := by
      rw [setIno,if_pos (by omega),Int.toNat_natCast]
      exact hp₁
    have hnext : Laid o p₁ ((ws ++ [c + zoo]) ++ b :: c :: ws') free data := by
      rw [List.append_assoc]
      exact hlaid₁
    obtain ⟨pag',a',b',hrun,hlaid'⟩ := ih hnext hrest
    rw [List.length_append,List.length_singleton] at hrun
    refine ⟨pag',a',b',?_,?_⟩
    · rw [List.length_cons,shiftIno,hread,Option.bind_eq_bind,Option.bind_some,hset,Option.bind_eq_bind,Option.bind_some]
      exact_mod_cast hrun
    · rw [List.append_assoc] at hlaid'
      exact hlaid'

/-- The pairs behind a deleted one take its place. -/
theorem Holds.closeUp (h : Holds o pag (l₁ ++ (key,val) :: l₂)) : ∃ pag' a b free,
    Sdbm.closeUp o pag (2 * ((l₁ ++ (key,val) :: l₂).length : ℤ)) (2 * l₁.length + 1) = some pag' ∧ pag'.length = PBLKSIZ ∧
      Laid o pag' ((2 * ((l₁ ++ (key,val) :: l₂).length : ℤ)) :: offsets PBLKSIZ (l₁ ++ l₂) ++ [a,b]) free
        (packed (l₁ ++ l₂)) := by
  have hroom := h.room
  obtain ⟨free,hlaid⟩ := h.laid
  have hdata : packed (l₁ ++ (key,val) :: l₂) = packed l₂ ++ ((val ++ key) ++ packed l₁) := by
    rw [packed_append,packed,List.append_assoc]
  have hplace : place (l₁ ++ (key,val) :: l₂) = place l₁ - key.length - val.length - (packed l₂).length := by
    rw [place,place,hdata,List.length_append,List.length_append,List.length_append]
    push_cast
    ring
  have hdst : (if (2 * (l₁.length : ℤ) + 1) = 1 then some (PBLKSIZ : ℤ) else ino o pag (2 * l₁.length + 1 - 1)) =
      some (place l₁) := by
    by_cases hfirst : l₁ = []
    · subst hfirst
      rw [List.length_nil,if_pos (by omega),place_nil]
    · have hpos := List.length_pos_iff.mpr hfirst
      rw [if_neg (by omega),add_sub_cancel_right]
      exact h.ino_before hfirst
  have hlast : ino o pag (2 * ((l₁ ++ (key,val) :: l₂).length : ℤ)) = some (place (l₁ ++ (key,val) :: l₂)) := by
    have h' : Holds o pag ((l₁ ++ (key,val) :: l₂) ++ []) := by rwa [List.append_nil]
    exact h'.ino_before (by simp)
  -- the data is moved, then the offsets
  rw [hdata] at hlaid
  obtain ⟨p₁,x,hx,hmoved,hlaid₁⟩ := hlaid.moveDown
  have hwords : (2 * ((l₁ ++ (key,val) :: l₂).length : ℤ)) :: offsets PBLKSIZ (l₁ ++ (key,val) :: l₂) =
      ((2 * ((l₁ ++ (key,val) :: l₂).length : ℤ)) :: offsets PBLKSIZ l₁) ++
        (place l₁ - key.length) :: (place l₁ - key.length - val.length) ::
          offsets (place l₁ - key.length - val.length) l₂ := by
    rw [offsets_append]
    rfl
  rw [hwords] at hlaid₁
  have hzoo : place l₁ - key.length - val.length + (place l₁ - (place l₁ - key.length - val.length)) = place l₁ := by ring
  have hshifted := map_offsets (place l₁ - key.length - val.length) (place l₁ - (place l₁ - key.length - val.length)) l₂
  rw [hzoo] at hshifted
  obtain ⟨p₂,a,b,hrun,hlaid₂⟩ := shiftIno_laid (place l₁ - (place l₁ - key.length - val.length)) hlaid₁ (by
    intro y hy
    have hmem : y + (place l₁ - (place l₁ - key.length - val.length)) ∈ offsets (place l₁) l₂ := by
      rw [← hshifted]
      exact List.mem_map_of_mem hy
    have hcosts := costs_eq (l₁ ++ (key,val) :: l₂)
    have hlen := congrArg List.length hdata
    simp only [List.length_append] at hlen
    have hsize : PBLKSIZ = 1024 := rfl
    have hpl : place l₁ = PBLKSIZ - (packed l₁).length := rfl
    have := mem_offsets hmem
    constructor <;> omega)
  rw [hshifted] at hlaid₂
  have hlen₁ := hlaid₁.length
  have hlen₂ := hlaid₂.length
  have hlen := hlaid.length
  have hlength := h.length
  refine ⟨p₂,a,b,free ++ x,?_,?_,?_⟩
  · have hm : (place l₁ - key.length - val.length - place (l₁ ++ (key,val) :: l₂)) = (packed l₂).length := by
      rw [hplace]
      ring
    have hsrc : (pag.length : ℤ) - (packed l₁).length - (val ++ key).length = place l₁ - key.length - val.length := by
      rw [hlength,place,List.length_append]
      push_cast
      ring
    have hdst' : (pag.length : ℤ) - (packed l₁).length = place l₁ := by
      rw [hlength,place]
    rw [hsrc,hdst'] at hmoved
    have hrounds : (2 * ((l₁ ++ (key,val) :: l₂).length : ℤ) - 1 - (2 * l₁.length + 1)).toNat =
        (offsets (place l₁ - key.length - val.length) l₂).length := by
      rw [length_offsets,List.length_append,List.length_cons]
      omega
    have hi : ((((2 * ((l₁ ++ (key,val) :: l₂).length : ℤ)) :: offsets PBLKSIZ l₁).length : ℕ) : ℤ) = 2 * l₁.length + 1 := by
      rw [List.length_cons,length_offsets]
      push_cast
      ring
    rw [hi] at hrun
    have hval : ino o pag (2 * l₁.length + 1 + 1) = some (place l₁ - key.length - val.length) := by
      rw [add_assoc]
      exact h.ino_val
    simp only [Sdbm.closeUp,Option.bind_eq_bind,hdst,Option.bind_some,hval,hlast,hm]
    rw [if_neg (by omega),Int.toNat_natCast,hmoved,Option.bind_some,hrounds]
    exact hrun
  · simp only [List.length_append,List.length_cons,length_offsets,List.length_nil,hx] at hlen hlen₂
    omega
  · have hoffsets : offsets PBLKSIZ (l₁ ++ l₂) = offsets PBLKSIZ l₁ ++ offsets (place l₁) l₂ := offsets_append _ _ _
    rw [packed_append,hoffsets,List.cons_append,List.append_assoc]
    exact hlaid₂

theorem Holds.delpair (h : Holds o pag (l₁ ++ (key,val) :: l₂)) (hbefore : key ∉ l₁.map Prod.fst) :
    ∃ pag', Sdbm.delpair o pag key = some (true,pag') ∧ Holds o pag' (l₁ ++ l₂) := by
  have hidx : (l₁ ++ (key,val) :: l₂).findIdx? (fun p => p.1 == key) = some (l₁.length : ℕ) := by
    rw [List.findIdx?_append,findIdx?_of_notMem hbefore,List.findIdx?_cons,beq_self_eq_true]
    simp
  have hlen : (l₁ ++ (key,val) :: l₂).length = l₁.length + l₂.length + 1 := by
    rw [List.length_append,List.length_cons,Nat.add_assoc]
  have hroom := h.room
  have hcosts := costs_eq (l₁ ++ (key,val) :: l₂)
  have hsize : PBLKSIZ = 1024 := rfl
  -- either way the offsets are followed by two that are given up
  obtain ⟨p₁,a,b,free,hp₁,hlength,hlaid⟩ : ∃ p₁ a b free,
      (if (2 * (l₁.length : ℤ) + 1) < 2 * ((l₁ ++ (key,val) :: l₂).length : ℤ) - 1 then
        Sdbm.closeUp o pag (2 * ((l₁ ++ (key,val) :: l₂).length : ℤ)) (2 * l₁.length + 1) else some pag) = some p₁ ∧
      p₁.length = PBLKSIZ ∧ Laid o p₁ ((2 * ((l₁ ++ (key,val) :: l₂).length : ℤ)) :: offsets PBLKSIZ (l₁ ++ l₂) ++ [a,b])
        free (packed (l₁ ++ l₂)) := by
    cases hl₂ : l₂ with
    | nil =>
      subst hl₂
      obtain ⟨free,hlaid⟩ := h.laid
      refine ⟨pag,place l₁ - key.length,place l₁ - key.length - val.length,free ++ (val ++ key),if_neg ?_,h.length,?_⟩
      · rw [hlen,List.length_nil]
        push_cast
        omega
      · rw [packed_append,packed,packed,List.nil_append,offsets_append] at hlaid
        rw [List.append_nil]
        exact hlaid.dropData
    | cons p rest =>
      rw [← hl₂]
      obtain ⟨p₁,a,b,free,hclose,hlength,hlaid⟩ := h.closeUp
      refine ⟨p₁,a,b,free,?_,hlength,hlaid⟩
      rw [if_pos,hclose]
      rw [hlen,hl₂,List.length_cons]
      push_cast
      omega
  have hcount : ino o p₁ 0 = some (2 * ((l₁ ++ (key,val) :: l₂).length : ℤ)) := by
    rw [ino,if_pos le_rfl]
    exact hlaid.word_of_getElem? rfl
  obtain ⟨p₂,hp₂,hlaid₂⟩ := hlaid.setWord (i := 0) (x := 2 * ((l₁ ++ (key,val) :: l₂).length : ℤ) - 2) (by simp)
    (by constructor <;> omega)
  refine ⟨p₂,?_,(length_memcpy hp₂).trans hlength,words o [a,b] ++ free,?_⟩
  · simp only [Sdbm.delpair,Option.bind_eq_bind,h.ino_zero,Option.bind_some,h.seepair,hidx,slot_some,Nat.zero_add]
    rw [if_neg (by rw [hlen]; push_cast; omega),if_neg (by omega),hp₁,Option.bind_some,hcount,Option.bind_some,setIno,
      if_pos le_rfl,Int.toNat_zero,hp₂,Option.bind_some]
  · have hwords : (2 * ((l₁ ++ l₂).length : ℤ)) = 2 * ((l₁ ++ (key,val) :: l₂).length : ℤ) - 2 := by
      rw [hlen,List.length_append]
      push_cast
      ring
    rw [List.cons_append,List.set_cons_zero,← hwords,← List.cons_append] at hlaid₂
    exact hlaid₂.dropWords

theorem Holds.delpair_of_notMem (h : Holds o pag pairs) (hkey : key ∉ pairs.map Prod.fst) :
    Sdbm.delpair o pag key = some (false,pag) := by
  have hnone : slot 0 none = 0 := rfl
  simp only [Sdbm.delpair,Option.bind_eq_bind,h.ino_zero,Option.bind_some,h.seepair,findIdx?_of_notMem hkey,hnone,if_true,
    ite_self]

/-! ## Splitting -/

theorem holds_blank : Holds o blank [] := by
  refine ⟨List.length_replicate,List.replicate (PBLKSIZ - 2) 0,?_,?_⟩
  · have hwords : words o [(2 * (([] : List Pair).length : ℤ))] = List.replicate 2 0 := by
      cases o <;> rfl
    rw [offsets,hwords,packed,List.append_nil,List.replicate_append_replicate]
    rfl
  · intro x hx
    obtain rfl := List.mem_singleton.mp hx
    constructor <;> decide

theorem costs_filter_le (pairs : List Pair) (f : Pair → Bool) : costs (pairs.filter f) ≤ costs pairs :=
  (List.filter_sublist.map cost).sum_le_sum (fun _ _ => Nat.zero_le _)

def hasBit (sbit : BitVec 64) (p : Pair) : Bool := decide (sdbmHash p.1 &&& sbit ≠ 0)

theorem Holds.splitLoop {cur new : Page} (sbit : BitVec 64) (h : Holds o cur (l₁ ++ l₂))
    (hpag : Holds o pag (l₁.filter (fun p => !hasBit sbit p))) (hnew : Holds o new (l₁.filter (hasBit sbit))) :
    ∃ pag' new', splitLoop o cur sbit l₂.length (2 * l₁.length + 1) (place l₁) pag new = some (pag',new') ∧
      Holds o pag' ((l₁ ++ l₂).filter (fun p => !hasBit sbit p)) ∧ Holds o new' ((l₁ ++ l₂).filter (hasBit sbit)) := by
  induction l₂ generalizing l₁ pag new with
  | nil =>
    rw [List.append_nil]
    exact ⟨pag,new,rfl,hpag,hnew⟩
  | cons p l₂ ih =>
    obtain ⟨key,val⟩ := p
    have hval : ino o cur (2 * l₁.length + 1 + 1) = some (place l₁ - key.length - val.length) := by
      rw [add_assoc]
      exact h.ino_val
    have hk : place l₁ - (place l₁ - key.length) = key.length := by ring
    have hv : place l₁ - key.length - (place l₁ - key.length - val.length) = val.length := by ring
    have hroom := h.room
    have hcosts := costs_append l₁ ((key,val) :: l₂)
    have hcons : costs ((key,val) :: l₂) = cost (key,val) + costs l₂ := List.sum_cons
    have hnext : Holds o cur ((l₁ ++ [(key,val)]) ++ l₂) := by
      rw [List.append_assoc]
      exact h
    have hi : (2 * ((l₁ ++ [(key,val)]).length : ℤ) + 1) = 2 * l₁.length + 1 + 2 := by
      rw [List.length_append,List.length_singleton]
      push_cast
      ring
    have hsplit : l₁ ++ (key,val) :: l₂ = (l₁ ++ [(key,val)]) ++ l₂ := by
      rw [List.append_assoc]
      rfl
    rw [List.length_cons,Sdbm.splitLoop]
    simp only [Option.bind_eq_bind,h.ino_key,Option.bind_some,hval,hk,hv,h.load_key,h.load_val]
    rw [hsplit]
    by_cases hbit : sdbmHash key &&& sbit ≠ 0
    · have hhas : hasBit sbit (key,val) = true := decide_eq_true hbit
      have hle := costs_filter_le l₁ (hasBit sbit)
      obtain ⟨new₁,hput,hnew₁⟩ := hnew.putpair key val (by omega)
      rw [if_pos hbit,hput,Option.bind_some,← place_snoc,← hi]
      refine ih hnext ?_ ?_
      · rw [List.filter_append,List.filter_cons_of_neg (by rw [hhas]; decide),List.filter_nil,List.append_nil]
        exact hpag
      · rw [List.filter_append,List.filter_cons_of_pos hhas,List.filter_nil]
        exact hnew₁
    · have hhas : hasBit sbit (key,val) = false := decide_eq_false hbit
      have hle := costs_filter_le l₁ (fun p => !hasBit sbit p)
      obtain ⟨pag₁,hput,hpag₁⟩ := hpag.putpair key val (by omega)
      rw [if_neg hbit,hput,Option.bind_some,← place_snoc,← hi]
      refine ih hnext ?_ ?_
      · rw [List.filter_append,List.filter_cons_of_pos (by rw [hhas]; rfl),List.filter_nil]
        exact hpag₁
      · rw [List.filter_append,List.filter_cons_of_neg (by rw [hhas]; decide),List.filter_nil,List.append_nil]
        exact hnew

theorem Holds.splpage (h : Holds o pag pairs) (sbit : BitVec 64) :
    ∃ pag' new, splpage o pag sbit = some (pag',new) ∧ Holds o pag' (pairs.filter (fun p => !hasBit sbit p)) ∧
      Holds o new (pairs.filter (hasBit sbit)) := by
  have h' : Holds o pag ([] ++ pairs) := h
  obtain ⟨pag',new,hrun,hpag,hnew⟩ := h'.splitLoop sbit holds_blank holds_blank
  have hrounds : ((2 * (pairs.length : ℤ) + 1) / 2).toNat = pairs.length := by omega
  rw [place_nil] at hrun
  refine ⟨pag',new,?_,hpag,hnew⟩
  rw [Sdbm.splpage,h.ino_zero,Option.bind_eq_bind,Option.bind_some,hrounds]
  exact hrun

/-! ## The check of a page -/

theorem Holds.chkLoop (h : Holds o pag (l₁ ++ l₂)) :
    chkLoop o pag l₂.length (2 * l₁.length + 1) (place l₁) = some true := by
  induction l₂ generalizing l₁ with
  | nil => rfl
  | cons p l₂ ih =>
    obtain ⟨key,val⟩ := p
    have hval : ino o pag (2 * l₁.length + 1 + 1) = some (place l₁ - key.length - val.length) := by
      rw [add_assoc]
      exact h.ino_val
    have hnext : Holds o pag ((l₁ ++ [(key,val)]) ++ l₂) := by
      rw [List.append_assoc]
      exact h
    have hi : (2 * ((l₁ ++ [(key,val)]).length : ℤ) + 1) = 2 * l₁.length + 1 + 2 := by
      rw [List.length_append,List.length_singleton]
      push_cast
      ring
    have hrest := ih hnext
    rw [place_snoc,hi] at hrest
    rw [List.length_cons,Sdbm.chkLoop,h.ino_key,Option.bind_eq_bind,Option.bind_some,if_neg (by omega),hval,
      Option.bind_some,if_neg (by omega)]
    exact hrest

theorem Holds.chkpage (h : Holds o pag pairs) : chkpage o pag = some true := by
  have h' : Holds o pag ([] ++ pairs) := h
  have hrounds : ((2 * (pairs.length : ℤ) + 1) / 2).toNat = pairs.length := by omega
  have hroom := h.room
  have hcosts := costs_eq pairs
  have hsize : PBLKSIZ = 1024 := rfl
  have hloop := h'.chkLoop
  rw [place_nil] at hloop
  rw [Sdbm.chkpage,h.ino_zero,Option.bind_eq_bind,Option.bind_some,if_neg (by omega),hrounds]
  exact hloop

end Edelib.Sdbm
