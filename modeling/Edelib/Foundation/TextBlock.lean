import Edelib.Foundation.CString

/-! # Strings in allocated blocks

A block is what an allocation returned, to its last byte; one variable points to it. The functions
of the C library reach no byte outside of it.
-/
namespace Edelib.Foundation.TextBlock

abbrev Block := List UInt8

variable (junk : ℕ → UInt8)

def malloc (n : ℕ) : Block := (List.range n).map junk

def realloc (b : Block) (n : ℕ) : Block := b.take n ++ malloc junk (n - b.length)

def text (b : Block) (i : ℕ) : Option CString :=
  if (0 : UInt8) ∈ b.drop i then some (CString.ofBuf (b.drop i)) else none

def store (b : Block) (i : ℕ) (bs : List UInt8) : Option Block :=
  if i + bs.length ≤ b.length then some (b.take i ++ bs ++ b.drop (i + bs.length)) else none

def strcpy (dst : Block) (src : CString) : Option Block := store dst 0 (src.bytes ++ [0])

def strcat (dst : Block) (src : CString) : Option Block := do
  let t ← text dst 0
  store dst t.strlen (src.bytes ++ [0])

def strdup (src : CString) : Block := src.bytes ++ [0]

structure Holds (b : Block) (size : ℕ) (t : CString) : Prop where
  length_eq : b.length = size
  begins : t.bytes ++ [0] <+: b

variable {junk} {b : Block} {size : ℕ} {t u : CString}

theorem length_malloc (junk : ℕ → UInt8) (n : ℕ) : (malloc junk n).length = n := by
  rw [malloc,List.length_map,List.length_range]

theorem Holds.text (h : Holds b size t) : text b 0 = some t := by
  obtain ⟨tail,rfl⟩ := h.begins
  have hbuf : t.bytes ++ [0] ++ tail = t.bytes ++ 0 :: tail := by
    rw [List.append_assoc,List.singleton_append]
  rw [TextBlock.text,List.drop_zero,hbuf,CString.ofBuf_bytes_append_nul,if_pos (by simp)]

theorem Holds.lt (h : Holds b size t) : t.strlen < size := by
  have hle := h.begins.length_le
  rw [List.length_append,List.length_singleton,h.length_eq] at hle
  exact hle

/-- What is stored behind a text that the block begins with. -/
theorem store_holds (old new : List UInt8) (hold : old <+: b) (hsize : b.length = size)
    (hfits : old.length + (new.length + 1) ≤ size) (ht : t.bytes = old ++ new) :
    ∃ b', store b old.length (new ++ [0]) = some b' ∧ Holds b' size t := by
  have hlen : (new ++ [0]).length = new.length + 1 := by
    rw [List.length_append,List.length_singleton]
  have htake : b.take old.length = old := (List.prefix_iff_eq_take.mp hold).symm
  refine ⟨_,if_pos (by omega),?_,?_⟩
  · rw [htake,List.length_append,List.length_append,List.length_drop]
    omega
  · rw [htake,ht,List.append_assoc old,List.append_assoc old]
    exact (List.prefix_append_right_inj _).mpr (List.prefix_append _ _)

theorem strcpy_holds (hb : b.length = size) (hfits : t.strlen < size) : ∃ b', strcpy b t = some b' ∧ Holds b' size t :=
  store_holds [] _ List.nil_prefix hb (by rw [List.length_nil,Nat.zero_add]; exact hfits) rfl

theorem strcat_holds (h : Holds b size t) (hfits : t.strlen + u.strlen < size) :
    ∃ b', strcat b u = some b' ∧ Holds b' size (t ++ u) := by
  rw [strcat,h.text]
  exact store_holds _ _ ((List.prefix_append _ _).trans h.begins) h.length_eq hfits rfl

theorem strcat_outside (h : Holds b size t) (hout : size ≤ t.strlen + u.strlen) : strcat b u = none := by
  rw [strcat,h.text]
  refine if_neg ?_
  rw [List.length_append,List.length_singleton,h.length_eq]
  have hu : u.bytes.length = u.strlen := rfl
  omega

theorem strdup_holds (t : CString) : Holds (strdup t) (t.strlen + 1) t :=
  ⟨by rw [strdup,List.length_append]; rfl,List.prefix_refl _⟩

theorem realloc_holds (junk : ℕ → UInt8) (h : Holds b size t) {n : ℕ} (hn : t.strlen < n) : Holds (realloc junk b n) n t := by
  constructor
  · rw [realloc,List.length_append,List.length_take,length_malloc]
    omega
  · have htake : t.bytes ++ [0] <+: b.take n := by
      rw [List.prefix_take_iff]
      refine ⟨h.begins,?_⟩
      rw [List.length_append,List.length_singleton]
      exact hn
    exact htake.trans (List.prefix_append _ _)

/-! ## A copy that is cut in two -/

theorem text_strdup_append : text (strdup (t ++ u)) t.strlen = some u := by
  have hdrop : (strdup (t ++ u)).drop t.strlen = u.bytes ++ 0 :: [] := by
    rw [strdup,CString.append_bytes,List.append_assoc,CString.strlen,List.drop_left]
  rw [text,hdrop,CString.ofBuf_bytes_append_nul,if_pos (by simp)]

theorem store_strdup_append : ∃ b', store (strdup (t ++ u)) t.strlen [0] = some b' ∧ Holds b' ((t ++ u).strlen + 1) t := by
  have hsum : (t ++ u).strlen = t.strlen + u.strlen := List.length_append
  refine store_holds t.bytes [] ?_ (strdup_holds _).length_eq ?_ (List.append_nil _).symm
  · rw [strdup,CString.append_bytes,List.append_assoc]
    exact List.prefix_append _ _
  · change t.strlen + _ ≤ _
    rw [List.length_nil]
    omega

end Edelib.Foundation.TextBlock
