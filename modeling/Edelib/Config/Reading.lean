import Edelib.Config.Grammar

/-! # What the line reader delivers

`load` reads a line again and again until the reader reports the end of the file. The bytes
after the last newline are reported together with the end, and so are not delivered.
-/
namespace Edelib
open Foundation StrUtil

/-- The lines of a file with their newlines, a last one without newline included. -/
def fileLines (f : List UInt8) : List (List UInt8) :=
  (splitLines f).1.map (fun l => l ++ [newline]) ++ if (splitLines f).2 = [] then [] else [(splitLines f).2]

/-- The texts that `configGetline` delivers, call by call, from a buffer of the given size. -/
def delivered (len : ℕ) (f : List UInt8) : Option (List (List UInt8)) :=
  match _h : configGetline len f with
  | none => none
  | some g =>
    if _hret : g.ret = none then some []
    else (delivered g.len g.rest).map (fun lines => g.buf :: lines)
termination_by f.length
decreasing_by exact configGetline_rest_lt _h _hret

theorem delivered_none {len : ℕ} {f : List UInt8} (h : configGetline len f = none) : delivered len f = none := by
  rw [delivered]
  split
  · rfl
  · rename_i g hg
    rw [h] at hg
    cases hg

theorem delivered_end {len : ℕ} {f : List UInt8} {g : Getline} (h : configGetline len f = some g)
    (hret : g.ret = none) : delivered len f = some [] := by
  rw [delivered]
  split
  · rename_i hg
    rw [h] at hg
    cases hg
  · rename_i g' hg
    rw [h] at hg
    cases hg
    exact dif_pos hret

theorem delivered_getline {len : ℕ} {f : List UInt8} {g : Getline} (h : configGetline len f = some g)
    (hret : g.ret ≠ none) : delivered len f = (delivered g.len g.rest).map (fun lines => g.buf :: lines) := by
  rw [delivered]
  split
  · rename_i hg
    rw [h] at hg
    cases hg
  · rename_i g' hg
    rw [h] at hg
    cases hg
    exact dif_neg hret

def grownAfter (len : ℕ) (bodies : List (List UInt8)) : ℕ := bodies.foldl (fun len l => growTo len (l.length + 1)) len

/-- Every line that ends in a newline is delivered whole, unless one overruns the buffer. -/
theorem delivered_eq {bodies : List (List UInt8)} (hb : ∀ l ∈ bodies, LineBody l) {last : List UInt8}
    (hlast : newline ∉ last) (len : ℕ) : delivered len (unlines bodies ++ last) =
      if Fits len bodies ∧ ¬ TooLong (grownAfter len bodies) (last.length + 1) then
        some (bodies.map (fun l => l ++ [newline]))
      else none := by
  induction bodies generalizing len with
  | nil =>
    obtain ⟨g,hret,hg⟩ := configGetline_end hlast len
    have hsize : grownAfter len [] = len := rfl
    rw [hsize]
    by_cases hlong : TooLong len (last.length + 1)
    · rw [if_pos hlong] at hg
      rw [if_neg (fun h => h.2 hlong)]
      exact delivered_none hg
    · rw [if_neg hlong] at hg
      rw [if_pos ⟨fits_nil len,hlong⟩]
      exact delivered_end hg hret
  | cons l bodies ih =>
    obtain ⟨hl,hbodies⟩ := List.forall_mem_cons.mp hb
    have hg := configGetline_line hl len (unlines bodies ++ last)
    have hsize : grownAfter len (l :: bodies) = grownAfter (growTo len (l.length + 1)) bodies := rfl
    rw [unlines_cons,List.append_assoc,List.cons_append,hsize]
    by_cases hover : Overruns len (l.length + 1)
    · rw [if_pos hover] at hg
      rw [delivered_none hg,if_neg (fun h => (fits_cons.mp h.1).1 hover)]
    · rw [if_neg hover] at hg
      rw [delivered_getline hg (by simp),ih hbodies]
      by_cases hfit : Fits (growTo len (l.length + 1)) bodies <;>
        by_cases hlong : TooLong (grownAfter (growTo len (l.length + 1)) bodies) (last.length + 1) <;>
        simp [fits_cons,hover,hfit,hlong]

/-- The first buffer is always there. -/
theorem not_tooLong_one (len : ℕ) : ¬ TooLong len 1 := by
  rintro ⟨hlt,hmax⟩
  obtain rfl : len = 0 := by omega
  exact absurd hmax (by decide)

/-- From a buffer of any size, exactly the lines of a text file are delivered if and only if the
last one ends in a newline, and none ends where the buffer does or has no buffer. -/
theorem delivered_fileLines_iff (len : ℕ) {f : List UInt8} (hf : (0 : UInt8) ∉ f) :
    delivered len f = some (fileLines f) ↔ (splitLines f).2 = [] ∧ Fits len (splitLines f).1 := by
  obtain ⟨hsplit,hlines,hlast⟩ := unlines_splitLines f
  have hb : ∀ l ∈ (splitLines f).1, LineBody l := by
    refine fun l hl => ⟨hlines l hl,fun h0 => hf ?_⟩
    rw [← hsplit]
    refine List.mem_append_left _ (List.mem_flatMap.mpr ⟨l,hl,List.mem_append_left _ h0⟩)
  have hread := delivered_eq hb hlast len
  rw [hsplit] at hread
  rw [hread,fileLines]
  by_cases hend : (splitLines f).2 = []
  · have hroom := not_tooLong_one (grownAfter len (splitLines f).1)
    rw [hend,List.length_nil,Nat.zero_add]
    by_cases hfit : Fits len (splitLines f).1 <;> simp [hfit,hroom]
  · rw [if_neg hend]
    refine iff_of_false (fun h => ?_) (fun h => hend h.1)
    -- the last line is not among those delivered
    split_ifs at h
    have hlen := congrArg List.length (Option.some.inj h)
    simp at hlen

/-- Two lines, of which the second one makes an empty buffer grow. -/
theorem delivered_two_lines : delivered 0 [10,97,10] = some (fileLines [10,97,10]) :=
  (delivered_fileLines_iff 0 (by decide)).mpr (by decide)

/-- A last line without newline is lost. -/
theorem not_delivered_last_line : ¬ delivered elineSizeStart [97] = some (fileLines [97]) := by
  have hread : delivered elineSizeStart [97] = some [] := by
    exact (@delivered_eq [] (by simp) [97] (by decide) elineSizeStart).trans (if_pos (by decide))
  rw [hread]
  decide

/-! ## Staying inside the buffers -/

namespace Config

/-- `load` writes inside its buffers only: there is a result, and the assertion that an entry
has a section does not fail. -/
def StaysInBuffers (c : Config) (f : List UInt8) : Prop := (c.load f).isSome = true

/-- `load` stays inside its buffers if and only if, among the lines it reads, those that are
1024 bytes long or some hundreds more follow a longer one, names and keys have room, and there
is a buffer for every line. -/
theorem staysInBuffers_iff (c : Config) (f : List UInt8) :
    c.StaysInBuffers f ↔ LinesFit (linesRead false (splitLines f).1) ∧ RoomsFor false (splitLines f).1 ∧
      LastFits false (splitLines f).1 (splitLines f).2 := by
  rw [StaysInBuffers,load_eq,← readable_iff]
  by_cases h : Readable f <;> simp [h]

/-- A section name of 128 bytes: its terminator is written behind the section buffer. -/
theorem not_staysInBuffers_section : ¬ empty.StaysInBuffers (91 :: (List.replicate 128 97 ++ [93,10])) := by
  rw [StaysInBuffers,load_eq]
  decide +kernel

end Config
end Edelib
