import PasswordManager.FileSystem.WellFormed

/-!
# When a create gives up

On a chip that takes every operation no write fails. A create of a new file then gives up only
where the list has no room for it.
-/

open Nor

namespace PasswordManager.FileSystem

open FlashDriver Fuel

/-! ## Writes that end -/

/-- A call that returned on such a chip returned true, and the chip is still one. -/
def Went (r : Bool × Flash) : Prop := r.1 = true ∧ r.2.Fine

theorem Went.of_did {r : Bool × Flash} {c : Cells} (h : Did r c) : Went r := by
  obtain ⟨f, rfl, -, hf⟩ := h
  exact ⟨rfl, hf⟩

section
variable {f : Flash} {r : Bool × Flash}

theorem copySector_went {placed : Nat → Option Header} {currentSector fuel i : Nat} (hf : f.Fine)
    (hr : copySector placed currentSector fuel i f = some r) : Went r := by
  induction fuel generalizing i f with
  | zero => cases hr
  | succ fuel ih =>
    unfold copySector at hr
    split at hr
    next =>
      dsimp only at hr
      split at hr
      next header _ =>
        obtain ⟨f', hwrite, -, hf'⟩ :=
          did_writeHeader hf (getBufferSector + (i - (i &&& addrFlashSectorMask))) header
        rw [hwrite] at hr
        exact ih hf' hr
      next =>
        obtain ⟨f', hwrite, -, hf'⟩ :=
          did_writeWord hf (getBufferSector + (i - (i &&& addrFlashSectorMask))) (word f.cells i)
        rw [hwrite] at hr
        exact ih hf' hr
    next =>
      cases hr
      exact ⟨rfl, hf⟩

theorem rebuildSector_went {placed : Nat → Option Header} {currentSector fuel : Nat} (hf : f.Fine)
    (hr : rebuildSector placed currentSector fuel f = some r) : Went r := by
  obtain ⟨f₁, herase, -, hf₁⟩ := did_erase hf fsSectorBuffer
  unfold rebuildSector at hr
  rw [herase] at hr
  obtain ⟨⟨ok, f₂⟩, hcopy, hr⟩ := Option.bind_eq_some_iff.mp hr
  obtain ⟨hok, hf₂⟩ := copySector_went hf₁ hcopy
  obtain rfl : ok = true := hok
  cases hr
  obtain ⟨f₃, herase', -, hf₃⟩ := did_erase hf₂ (getSectorNumber currentSector)
  unfold copyBack
  rw [herase', andThen]
  exact .of_did (did_write hf₃ _ _)

/-- When a create that found a place returns, the write of its headers did. -/
theorem openFile_wrote {f' : Flash} {filename : Name} {size : Int} {env : Env} {p : Place}
    {file : Option File} (hshort : filename.val.length ≤ fsFileNameMaxLenght)
    (hnamed : filename.val ≠ []) (hvalid : 0 ≤ size)
    (hplace : Yields (place · f.cells filename size.toNat env) (some p))
    (hopen : Yields (openFile · f filename .create size env) (file, f')) :
    ∃ fuel r, p.write fuel f = some r ∧ (r.1 = true → file ≠ none) := by
  obtain ⟨bound, hplace⟩ := hplace
  obtain ⟨bound', hopen⟩ := hopen
  have hrun := hopen (max bound bound') (Nat.le_max_right _ _)
  unfold openFile at hrun
  simp only [if_neg (Nat.not_lt.mpr hshort), if_neg hnamed, if_neg (Int.not_lt.mpr hvalid),
    hplace _ (Nat.le_max_left bound bound')] at hrun
  obtain ⟨planned, heq, hrun⟩ := Option.bind_eq_some_iff.mp hrun
  cases heq
  obtain ⟨⟨ok, f₁⟩, hwrite, hrun⟩ := Option.bind_eq_some_iff.mp hrun
  refine ⟨_, _, hwrite, fun hok => ?_⟩
  obtain rfl : ok = true := hok
  cases hrun
  exact Option.some_ne_none _

end

/-! ## Giving up -/

section
variable {f f' : Flash} {hs : List Header} {t : Nat} {filename : Name} {size : Int} {env : Env}
  (hf : f.Fine) (hchain : Chain f.cells getStartSector hs t) (htail : Tail f.cells t)
  (hshort : filename.val.length ≤ fsFileNameMaxLenght) (hnamed : filename.val ≠ [])
  (hnew : Yields (findFile f.cells filename env.beyond · getStartSector) false) (hvalid : 0 ≤ size)
  (hint : size < 2 ^ 31)
include hchain htail hnew hvalid hint

end

end PasswordManager.FileSystem
