import PasswordManager.Vault.Store

/-!
# A commit that is cut short

The identifier is the first thing that `storeData` writes, so it says nothing about what
comes after it.
-/

open Nor

namespace PasswordManager.Vault

open FlashDriver

/-- The cells when power is lost after the first `j` operations of `storeData`. -/
def powerLoss (m : Manager) (f : Flash) (j : Nat) : Cells :=
  replay f.accepts f.trace.length f.cells (((storeData m f).2.trace.drop f.trace.length).take j)

/-- What is read back as a vault is the whole old image or the whole new one. -/
def NeverTorn (before : Cells) (m : Manager) (after : Cells) : Prop :=
  ∀ count data, loadData after m.address = .vault count data →
    ∃ n : Nat, count = n ∧ Stored after m.address n data ∧
      (Stored before m.address n data ∨ n = m.records.numOfPass ∧ data = m.data)

/-! ## The bytes that land -/

/-- The image with the bytes that do not land left clear. -/
def Progress.landed (p : Progress) (m : Manager) : List Byte :=
  fill ident.length (ident.take p.identBytes) ++
    (fill m.count.length (m.count.take p.countBytes) ++
      fill m.data.length (m.data.take p.dataBytes))

def Progress.base (p : Progress) (m : Manager) (c : Cells) : Cells :=
  if p.erased then wipe (InSector (getSectorNumber m.address)) c else c

theorem Progress.cells_eq (p : Progress) (m : Manager) (c : Cells) :
    p.cells m c = burn (p.base m c) m.address (p.landed m) := by
  have hident : (fill ident.length (ident.take p.identBytes)).length = 4 := length_fill (by simp)
  have hcount : (fill m.count.length (m.count.take p.countBytes)).length = 2 := length_fill (by simp)
  rw [landed, burn_append, burn_append, hident, hcount, burn_fill, burn_fill, burn_fill]
  rfl

theorem Progress.length_landed (p : Progress) (m : Manager) :
    (p.landed m).length = (image m.records.numOfPass m.data).length := by
  simp only [landed, image, List.length_append]
  rw [length_fill (by simp), length_fill (by simp), length_fill (by simp)]
  rfl

/-- The data read back as new only when all of them landed: the first byte that does not land is
one that an erased cell does not hold. -/
theorem dataBytes_of_fill {taken accepts : Nat → Bool} {n : Nat} {m : Manager}
    (h : fill m.data.length (m.data.take (progress taken accepts n m).dataBytes) = m.data) :
    (progress taken accepts n m).dataBytes = m.data.length := by
  by_contra hne
  have hlt : through taken (dataOp accepts n m) m.data < m.data.length :=
    Nat.lt_of_le_of_ne (through_le _ _ _) hne
  apply blank_of_through _ _ _ hlt
  have hget := List.getElem_of_eq h (i := through taken (dataOp accepts n m) m.data)
    (by rw [length_fill (by simp)]; exact hlt)
  rw [← hget, getElem_fill]
  simp [progress]

/-! ## When a cut is harmless -/

/-- With the sector erased: the identifier is not complete, or the count is complete and the data
are. Data that are cut count too where the old image, of the same count, held the part that
landed and then nothing but clear bytes. -/
def SafeAfterErase (c : Cells) (m : Manager) (p : Progress) : Prop :=
  p.identBytes < ident.length ∨
    p.countBytes = m.count.length ∧
      (p.dataBytes = m.data.length ∨
        Stored c m.address m.records.numOfPass
          (fill m.data.length (m.data.take p.dataBytes)))

def Progress.over (p : Progress) (c : Cells) (m : Manager) (i : Nat) : Byte :=
  c (m.address + i) &&& (p.landed m).getD i blank

/-- With the erase refused: no identifier comes out, or every byte of the new image does, or no
byte that lands clears a bit of an old image. -/
def SafeWithoutErase (c : Cells) (m : Manager) (p : Progress) : Prop :=
  (∃ i, ∃ h : i < ident.length, p.over c m i ≠ ident[i]) ∨
    (∀ i (h : i < (image m.records.numOfPass m.data).length),
      p.over c m i = (image m.records.numOfPass m.data)[i]) ∨
    ∃ n data, Stored c m.address n data ∧
      ∀ i, i < (image n data).length → p.over c m i = c (m.address + i)

def SafeCut (c : Cells) (m : Manager) (p : Progress) : Prop :=
  if p.erased then SafeAfterErase c m p else SafeWithoutErase c m p

/-! ## Exactly then -/

theorem neverTorn_iff (before : Cells) (m : Manager) (after : Cells) :
    NeverTorn before m after ↔
      read after m.address 4 ≠ ident ∨ Holds after m.address (image m.records.numOfPass m.data) ∨
        ∃ n data, Stored before m.address n data ∧ Stored after m.address n data := by
  have hnew : Holds after m.address (image m.records.numOfPass m.data) →
      Stored after m.address m.records.numOfPass m.data := fun h =>
    ⟨m.records.bound, m.length_data, h⟩
  constructor
  · intro hnever
    by_cases hident : read after m.address 4 = ident
    · right
      obtain ⟨n, -, hafter, hbefore | ⟨rfl, hdata⟩⟩ := hnever _ _ (by rw [loadData, if_pos hident])
      · exact .inr ⟨n, _, hbefore, hafter⟩
      · rw [hdata] at hafter
        exact .inl hafter.2.2
    · exact .inl hident
  · rintro (hident | hholds | ⟨n, data, hbefore, hafter⟩) count data' hload
    · rw [loadData_of_ne hident] at hload
      cases hload
    · rw [(hnew hholds).loadData] at hload
      cases hload
      exact ⟨_, rfl, hnew hholds, .inr ⟨rfl, rfl⟩⟩
    · rw [hafter.loadData] at hload
      cases hload
      exact ⟨n, rfl, hafter, .inl hbefore⟩

theorem countBytes_of_fill {m : Manager} {k n : Nat} (hn : n ≤ maxStored)
    (h : fill m.count.length (m.count.take k) = shortBytes n) : m.count.length ≤ k := by
  by_contra hk
  have hlen : m.count.length = 2 := rfl
  have hget := List.getElem_of_eq h (i := 1) (by rw [length_fill (by simp), hlen]; decide)
  rw [getElem_fill (by simp; omega)] at hget
  have htop : (255 : Nat) = n / 256 % 256 := congrArg BitVec.toNat hget
  simp only [maxStored] at hn
  omega

theorem identBytes_of_fill {k : Nat} (h : fill ident.length (ident.take k) = ident) :
    ident.length ≤ k := by
  by_contra hk
  have hlt : k < ident.length := by omega
  have hget := List.getElem_of_eq h (i := k) (by rw [length_fill (by simp)]; exact hlt)
  rw [getElem_fill (by simp)] at hget
  have hident : ∀ b ∈ ident, b ≠ blank := by decide
  exact hident _ (List.getElem_mem hlt) hget.symm

section
variable {taken accepts : Nat → Bool} {n : Nat} {m : Manager} (ha : SlotAddress m.address) (c : Cells)
include ha

theorem Progress.holds_landed {p : Progress} (h : p.erased = true) :
    Holds (p.cells m c) m.address (p.landed m) := by
  rw [p.cells_eq]
  apply holds_burn
  intro x hx hx'
  have hbound := m.records.bound
  have hlen := m.length_data
  simp only [maxStored] at hbound
  rw [p.length_landed, length_image] at hx'
  rw [base, h, if_pos rfl, wipe, if_pos (ha.inSector hx (by omega))]

omit ha in
/-- A vault that is read back where the count and the data landed has them all. -/
theorem stored_landed {p : Progress} {k : Nat} {data : List Byte}
    (hcount : p.countBytes ≤ m.count.length) (hlanded : Holds c m.address (p.landed m))
    (hstored : Stored c m.address k data) :
    p.countBytes = m.count.length ∧ k = m.records.numOfPass ∧
      fill m.data.length (m.data.take p.dataBytes) = data := by
  obtain ⟨hk, hlen, hholds⟩ := hstored
  obtain ⟨hco, hda⟩ := holds_append.mp (holds_append.mp hlanded).2
  obtain ⟨hkcount, hkdata⟩ := holds_append.mp (holds_append.mp hholds).2
  rw [length_fill (by simp)] at hco hda
  rw [length_fill (by simp)] at hda
  have hcountEq := hco.unique hkcount (length_fill (by simp))
  have hfull := Nat.le_antisymm hcount (countBytes_of_fill hk hcountEq)
  rw [hfull, List.take_length, fill_length] at hcountEq
  obtain rfl := shortBytes_inj m.records.bound hk hcountEq
  exact ⟨hfull, rfl, hda.unique hkdata (by rw [length_fill (by simp), hlen, m.length_data])⟩

theorem neverTorn_erased (h : (progress taken accepts n m).erased = true) :
    NeverTorn c m ((progress taken accepts n m).cells m c) ↔
      SafeAfterErase c m (progress taken accepts n m) := by
  set p := progress taken accepts n m with hp
  have hident : p.identBytes ≤ ident.length := through_le _ _ _
  have hcount : p.countBytes ≤ m.count.length := through_le _ _ _
  have hlanded := Progress.holds_landed ha c h
  have hread : read (p.cells m c) m.address 4 = fill ident.length (ident.take p.identBytes) :=
    (holds_append.mp hlanded).1.read
      (length_fill (by simp : (ident.take p.identBytes).length ≤ ident.length)).symm
  rw [neverTorn_iff, hread]
  constructor
  · rintro (hne | hnew | ⟨k, data, hold, hafter⟩)
    · left
      by_contra hge
      apply hne
      rw [Nat.le_antisymm hident (Nat.le_of_not_lt hge), List.take_length, fill_length]
    · right
      obtain ⟨hfull, -, hdata⟩ := stored_landed _ hcount hlanded ⟨m.records.bound, m.length_data, hnew⟩
      exact ⟨hfull, .inl (dataBytes_of_fill hdata)⟩
    · right
      obtain ⟨hfull, rfl, hdata⟩ := stored_landed _ hcount hlanded hafter
      rw [hdata]
      exact ⟨hfull, .inr hold⟩
  · intro hsafe
    rcases Nat.lt_or_ge p.identBytes ident.length with hlt | hge
    · left
      intro heq
      have := identBytes_of_fill heq
      omega
    · right
      have hidentEq : fill ident.length (ident.take p.identBytes) = ident := by
        rw [Nat.le_antisymm hident hge, List.take_length, fill_length]
      obtain ⟨hfull, hdata⟩ := hsafe.resolve_left (Nat.not_lt.mpr hge)
      rw [Progress.landed, hidentEq, hfull, List.take_length, fill_length] at hlanded
      rcases hdata with hdata | hold
      · left
        rw [hdata, List.take_length, fill_length] at hlanded
        exact hlanded
      · right
        exact ⟨_, _, hold, m.records.bound, hold.2.1, hlanded⟩

omit ha in
theorem neverTorn_refused (p : Progress) (h : p.erased = false) :
    NeverTorn c m (p.cells m c) ↔ SafeWithoutErase c m p := by
  have hover : ∀ i, p.cells m c (m.address + i) = p.over c m i := fun i => by
    rw [p.cells_eq, Progress.base, h]
    simp [burn, Progress.over]
  have hident : read (p.cells m c) m.address 4 ≠ ident ↔
      ∃ i, ∃ h : i < ident.length, p.over c m i ≠ ident[i] := by
    have hholds : read (p.cells m c) m.address 4 = ident ↔ Holds (p.cells m c) m.address ident :=
      Iff.rfl
    rw [Ne, hholds, holds_iff]
    simp only [hover, not_forall]
  have hold : ∀ k data, Stored c m.address k data → (Stored (p.cells m c) m.address k data ↔
      ∀ i, i < (image k data).length → p.over c m i = c (m.address + i)) := by
    rintro k data ⟨hk, hlen, hholds⟩
    simp only [Stored, hk, hlen, true_and, holds_iff, hover]
    exact forall₂_congr fun i hi => by rw [holds_iff.mp hholds i hi]
  rw [neverTorn_iff, hident, SafeWithoutErase, holds_iff]
  simp only [hover]
  refine or_congr_right (or_congr_right ?_)
  exact exists_congr fun k => exists_congr fun data => and_congr_right (hold k data)

end

theorem powerLoss_eq (m : Manager) (f : Flash) (j : Nat) :
    powerLoss m f j =
      (progress (cutAt f.accepts (f.trace.length + j)) f.accepts f.trace.length m).cells m
        f.cells := by
  rw [powerLoss, storeData_eq]
  simp only [List.drop_left]
  rw [← replay_storeOps, Nat.add_sub_cancel_left]

/-- A commit that is cut short is never read back as a vault exactly at the harmless cuts. -/
theorem torn_commit {m : Manager} (f : Flash) (ha : SlotAddress m.address) (j : Nat) :
    NeverTorn f.cells m (powerLoss m f j) ↔
      SafeCut f.cells m
        (progress (cutAt f.accepts (f.trace.length + j)) f.accepts f.trace.length m) := by
  rw [powerLoss_eq, SafeCut]
  split
  next h => exact neverTorn_erased ha _ h
  next h => exact neverTorn_refused _ _ (by simpa using h)

theorem torn_commit_standard :
    NeverTorn Flash.cleared.cells (Manager.zeroed 0x080F8000)
        (powerLoss (Manager.zeroed 0x080F8000) Flash.cleared 3) ↔
      SafeCut Flash.cleared.cells (Manager.zeroed 0x080F8000)
        (progress (cutAt (fun _ => true) 3) (fun _ => true) 0 (Manager.zeroed 0x080F8000)) :=
  torn_commit Flash.cleared slotAddress_standard 3

/-- The slot is clear and power is lost right after the identifier: the count that is read back
is −1. -/
theorem torn_commit_read_back :
    SlotAddress (Manager.zeroed 0x080F8000).address ∧
      SlotContent Flash.cleared.cells (Manager.zeroed 0x080F8000).address ∧
      ¬ NeverTorn Flash.cleared.cells (Manager.zeroed 0x080F8000)
        (powerLoss (Manager.zeroed 0x080F8000) Flash.cleared 5) := by
  refine ⟨slotAddress_standard, .inl (by decide), ?_⟩
  have herased : (progress (cutAt (fun _ => true) 5) (fun _ => true) 0
      (Manager.zeroed 0x080F8000)).erased = true := by decide
  rw [powerLoss_eq]
  intro hnever
  rcases (neverTorn_erased slotAddress_standard _ herased).mp hnever with hident | ⟨hcount, -⟩
  · exact absurd hident (by decide)
  · exact absurd hcount (by decide)

end PasswordManager.Vault
