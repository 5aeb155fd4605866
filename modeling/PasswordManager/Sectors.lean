import PasswordManager.FlashDriver
import PasswordManager.Lib.Tiles

/-!
# The map of the sectors

The twelve sectors of the table tile the main memory. The last bound of `getSectorNumber` is
128000 bytes behind the start of sector 11, which has 128 KiB.
-/

namespace PasswordManager.FlashDriver

def flashStart : Nat := 0x08000000

def flashEnd : Nat := 0x08100000

/-- The places where a sector starts, and the end of the last one. -/
def sectorStart (k : Nat) : Nat := if k < 12 then getSectorAddress k else flashEnd

theorem sectors_adjacent : Tiles.Adjacent sectorStart (fun k => sectorSize k) 12 := by
  unfold Tiles.Adjacent
  decide

theorem inSector_iff {k : Nat} (hk : k < 12) (a : Nat) :
    InSector k a ↔ sectorStart k ≤ a ∧ a < sectorStart k + sectorSize k := by
  rw [InSector, sectorStart, if_pos hk]

/-- The answer for an address: the one sector that it lies in, or −1 when it lies in none. -/
structure Located (a : Nat) : Prop where
  inside : flashStart ≤ a → a < flashEnd → ∃ k, 0 ≤ k ∧ k ≤ 11 ∧ InSector k a ∧
    (∀ j, 0 ≤ j → j ≤ 11 → InSector j a → j = k) ∧ getSectorNumber a = k
  outside : ¬ (flashStart ≤ a ∧ a < flashEnd) → getSectorNumber a = -1

theorem exists_sector {a : Nat} (hlow : flashStart ≤ a) (hhigh : a < flashEnd) :
    ∃ k : Int, 0 ≤ k ∧ k ≤ 11 ∧ InSector k a := by
  obtain ⟨k, hk, hin⟩ := Tiles.exists_tile sectors_adjacent hlow hhigh
  exact ⟨k, by omega, by omega, (inSector_iff hk a).mpr hin⟩

theorem sector_unique {a : Nat} {j k : Int} (hj : 0 ≤ j ∧ j ≤ 11) (hk : 0 ≤ k ∧ k ≤ 11)
    (hja : InSector j a) (hka : InSector k a) : j = k := by
  obtain ⟨j, rfl⟩ := Int.eq_ofNat_of_zero_le hj.1
  obtain ⟨k, rfl⟩ := Int.eq_ofNat_of_zero_le hk.1
  have hj' : j < 12 := by omega
  have hk' : k < 12 := by omega
  exact congrArg _ (Tiles.unique_tile sectors_adjacent hj' hk' ((inSector_iff hj' a).mp hja)
    ((inSector_iff hk' a).mp hka))

theorem getSectorNumber_outside {a : Nat} (h : ¬ (flashStart ≤ a ∧ a < 0x080E0000 + 128000)) :
    getSectorNumber a = -1 := by
  rw [flashStart] at h
  simp (disch := omega) only [getSectorNumber, if_neg]

/-- The two maps fit together, and the answer is right except at the end of sector 11. -/
theorem sector_map (a : Nat) :
    (∀ k, 0 ≤ k → k ≤ 11 → getSectorNumber (getSectorAddress k) = k) ∧
      (Located a ↔ ¬ (0x080E0000 + 128000 ≤ a ∧ a < flashEnd)) := by
  constructor
  · intro k h0 h11
    interval_cases k <;> decide
  constructor
  · intro h htail
    have hlow : flashStart ≤ a := by
      unfold flashStart
      omega
    obtain ⟨k, h0, -, -, -, hk⟩ := h.inside hlow htail.2
    rw [getSectorNumber_outside (by omega)] at hk
    omega
  · intro h
    constructor
    · intro hlow hhigh
      obtain ⟨k, h0, h11, hin⟩ := exists_sector hlow hhigh
      have hunique : ∀ j, 0 ≤ j → j ≤ 11 → InSector j a → j = k := fun j hj0 hj11 hj =>
        sector_unique ⟨hj0, hj11⟩ ⟨h0, h11⟩ hj hin
      exact ⟨k, h0, h11, hin, hunique, getSectorNumber_of_inSector h0 h11 hin (by omega)⟩
    · intro hout
      apply getSectorNumber_outside
      intro hin
      apply hout
      unfold flashEnd
      omega

/-- The first byte that the driver takes to be behind the flash. -/
theorem sector_map_short : ¬ Located 0x080FF400 := by
  intro h
  obtain ⟨k, h0, -, -, -, hk⟩ := h.inside (by decide) (by decide)
  rw [show getSectorNumber 0x080FF400 = -1 by decide] at hk
  omega

end PasswordManager.FlashDriver
