import Edelib.Edbus.ObjectPathRuns

/-! # Deciding the grammar of paths

`valid_path` keeps the length of its argument in 32 bits, and tests the byte before that place
for the slash that ends no path.
-/
namespace Edelib.Edbus
open Foundation

def EndTold (str : CString) : Prop :=
  str.strlen % 4294967296 ≠ 0 ∧ str.bytes[str.strlen % 4294967296 - 1]? ≠ some 47 ↔ str.bytes.getLast? ≠ some 47

/-- A path other than the root; in a text too long for the length the right byte is tested. -/
def EndSeen (str : CString) : Prop :=
  str ≠ rootPath ∧ (4294967296 ≤ str.strlen → ElementsPass str → EndTold str)

variable {str : CString}

/-- `valid_path` decides the grammar exactly of the texts other than the root whose end it sees. -/
theorem validPath_decides_iff (str : CString) :
    (validPath str = true ↔ WellFormedPath str.bytes) ↔ EndSeen str := by
  by_cases hroot : str = rootPath
  · subst hroot
    have hrefused : validPath rootPath = false := rfl
    rw [hrefused]
    exact iff_of_false (fun h => Bool.false_ne_true (h.mpr PathAction.wellFormed_root)) (fun h => h.1 rfl)
  · have hwell : WellFormedPath str.bytes ↔ ElementsPass str ∧ str.bytes.getLast? ≠ some 47 := by
      rw [WellFormedPath,or_iff_right (fun heq => hroot (PathAction.eq_root_iff.mpr heq)),pass_iff_elements]
    rw [hwell,EndSeen,and_iff_right hroot]
    rcases Nat.lt_or_ge str.strlen 4294967296 with hlt | hle
    · rw [validPath_iff hlt,pass_iff_elements]
      exact iff_of_true Iff.rfl (fun hle => absurd hlt (Nat.not_lt.mpr hle))
    · rw [validPath_iff_elementsPass]
      constructor
      · intro h _ hpass
        rwa [and_iff_right hpass,and_iff_right hpass] at h
      · intro h
        exact and_congr_right fun hpass => h hle hpass

/-- The root is refused. -/
theorem not_validPath_decides_root : ¬ (validPath rootPath = true ↔ WellFormedPath rootPath.bytes) := by
  have hrefused : validPath rootPath = false := rfl
  rw [hrefused]
  exact fun h => Bool.false_ne_true (h.mpr PathAction.wellFormed_root)

end Edelib.Edbus
