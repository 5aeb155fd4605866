import PasswordManager.Vault.Session

/-!
# Loading whatever the flash holds

The count comes from the flash as a signed `short`. It sets the length of the copy into
`encryptedData`, the sizes in `decrypt` and the bound of the loop in `arrayToStruct`.
-/

open Nor

namespace PasswordManager.Vault

open FlashDriver

/-- `numOfPass` after the load. -/
def Loaded.numOfPass : Loaded → Int
  | .firstUse => 0
  | .vault numOfPass _ => numOfPass

/-- `sizeOfInput` in `decrypt`. -/
def sizeOfInput (numOfPass : Int) : Int := numOfPass * 2 * 32 + 16

/-- The indices that the loop of `arrayToStruct` runs over. -/
def entriesWritten (numOfPass : Int) : List Nat := List.range numOfPass.toNat

/-- The two bytes behind the identifier. -/
def storedCount (c : Cells) (address : Nat) : Int := short (c (address + 4)) (c (address + 5))

def CountInRange (n : Int) : Prop := 0 ≤ n ∧ n ≤ maxStored

instance (n : Int) : Decidable (CountInRange n) := inferInstanceAs (Decidable (_ ∧ _))

/-- What the code behind a load relies on, and what is to happen with a count that is no count. -/
structure LoadSafe (c : Cells) (address : Nat) : Prop where
  count : CountInRange (loadData c address).numOfPass
  copied : ∀ n data, loadData c address = .vault n data → 16 ≤ data.length ∧ data.length ≤ dataSize
  sizes : 16 ≤ sizeOfInput (loadData c address).numOfPass
  entries : ∀ i ∈ entriesWritten (loadData c address).numOfPass, i < maxStored
  invalid : ¬ CountInRange (storedCount c address) → loadData c address = .firstUse

section
variable {c : Cells} {address : Nat}

theorem loadData_of_ident (h : read c address 4 = ident) :
    loadData c address =
      .vault (storedCount c address) (read c (address + 6) (copySize (storedCount c address))) := by
  rw [loadData, if_pos h]
  rfl

theorem copySize_eq {n : Int} (h : CountInRange n) : (copySize n : Int) = sizeOfInput n := by
  obtain ⟨k, rfl⟩ := Int.eq_ofNat_of_zero_le h.1
  have hk : k ≤ maxStored := by exact_mod_cast h.2
  rw [copySize_of_le hk, sizeOfInput]
  omega

theorem loadSafe_of_numOfPass (hcount : CountInRange (loadData c address).numOfPass)
    (hinvalid : ¬ CountInRange (storedCount c address) → loadData c address = .firstUse) :
    LoadSafe c address where
  count := hcount
  copied n data h := by
    have hn : CountInRange n := by rwa [h] at hcount
    have hsize := copySize_eq hn
    have hlen := length_of_loadData h
    obtain ⟨h0, hmax⟩ := hn
    simp only [sizeOfInput, maxStored, dataSize] at hsize hmax ⊢
    omega
  sizes := by
    obtain ⟨h0, -⟩ := hcount
    rw [sizeOfInput]
    omega
  entries i hi := by
    obtain ⟨h0, hmax⟩ := hcount
    have hlt := List.mem_range.mp hi
    omega
  invalid := hinvalid

/-- A load is safe unless the identifier is there and the count behind it is none. -/
theorem load_safe_iff :
    LoadSafe c address ↔ (read c address 4 = ident → CountInRange (storedCount c address)) := by
  constructor
  · intro h hident
    have hcount := h.count
    rwa [loadData_of_ident hident] at hcount
  · intro h
    by_cases hident : read c address 4 = ident
    · refine loadSafe_of_numOfPass ?_ fun hout => absurd (h hident) hout
      rw [loadData_of_ident hident]
      exact h hident
    · have hnone := loadData_of_ne hident
      refine loadSafe_of_numOfPass ?_ fun _ => hnone
      rw [hnone]
      exact ⟨Int.le_refl 0, by decide⟩

end

/-- The identifier and then cells that were erased: a store that lost power after the fifth operation. -/
def identAlone : Cells := burn Flash.cleared.cells 0x080F8000 ident

theorem load_safe_minus_one :
    ¬ LoadSafe identAlone 0x080F8000 ∧ (loadData identAlone 0x080F8000).numOfPass = -1 ∧
      copySize (-1) = 4294967248 ∧ sizeOfInput (-1) = -48 := by
  have hident : read identAlone 0x080F8000 4 = ident := by decide
  have hcount : storedCount identAlone 0x080F8000 = -1 := by decide
  have hminus : (loadData identAlone 0x080F8000).numOfPass = -1 := by
    rw [loadData_of_ident hident, hcount]
    rfl
  refine ⟨fun h => ?_, hminus, by decide, by decide⟩
  have hrange := h.count
  rw [hminus] at hrange
  exact absurd hrange (by decide)

/-! ## The start of a session -/

theorem storedCount_of_vault {c : Cells} {address : Nat} {n : Int} {data : List Byte}
    (h : loadData c address = .vault n data) : storedCount c address = n := by
  by_cases hident : read c address 4 = ident
  · rw [loadData_of_ident hident] at h
    cases h
    rfl
  · rw [loadData_of_ne hident] at h
    cases h

theorem Manager.loadData_isSome_iff (m : Manager) (c : Cells) :
    (m.loadData c).isSome ↔ LoadSafe c m.address := by
  unfold Manager.loadData
  cases h : Vault.loadData c m.address with
  | firstUse =>
    refine iff_of_true rfl (loadSafe_of_numOfPass ?_ fun _ => h)
    rw [h]
    exact ⟨Int.le_refl 0, by decide⟩
  | vault n data =>
    dsimp only
    split
    next hroom =>
      have hn : CountInRange n := ⟨hroom.1, hroom.2.2⟩
      refine iff_of_true rfl (loadSafe_of_numOfPass (by rw [h]; exact hn) fun hout => ?_)
      rw [storedCount_of_vault h] at hout
      exact absurd hn hout
    next hroom =>
      refine iff_of_false Bool.false_ne_true fun hsafe => hroom ?_
      have hcount := hsafe.count
      rw [h] at hcount
      exact ⟨hcount.1, (hsafe.copied n data h).2, hcount.2⟩

/-- A session is overrun at its start exactly when the load is not safe. -/
theorem begin_overrun_iff (memory : Manager) (address : Nat) (flash : Flash) (console : Console) :
    begin memory address flash console = .error .overrun ↔ ¬ LoadSafe flash.cells address := by
  have hsome := (construct memory address).loadData_isSome_iff flash.cells
  rw [show (construct memory address).address = address from rfl] at hsome
  rw [← hsome]
  unfold begin
  cases (construct memory address).loadData flash.cells with
  | none => exact iff_of_true rfl (by simp)
  | some m =>
    refine iff_of_false (fun h => ?_) (by simp)
    dsimp only at h
    split at h
    next => cases h
    next => exact checkpass_ne_overrun _ _ h

end PasswordManager.Vault
