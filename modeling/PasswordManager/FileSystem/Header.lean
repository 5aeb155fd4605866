import PasswordManager.FlashDriver
import PasswordManager.Lib.CString
import PasswordManager.Lib.Fuel

/-!
# The headers of the file system

The files stand one after the other in sectors 8 to 10. Each begins with a header that points to
the next one. Sector 11 is the buffer in which a sector is rebuilt.
-/

open Nor

namespace PasswordManager.FileSystem

open FlashDriver

/-! ## Constants -/

def fsBlank : Nat := 0xFFFFFFFF
def aligment : Nat := 4
def sizeofHeader : Nat := 36
def fsFileNameMaxLenght : Nat := 24
def fsSectorBuffer : Int := 11
def addrFlashSectorMask : Nat := 0x080E0000
/-- `SECTOR_SIZE` of the driver. -/
def fsSectorSize : Nat := 0x20000
def getStartSector : Nat := getSectorAddress 8
def getBufferSector : Nat := getSectorAddress 11
def getLastAddress : Nat := getSectorAddress 11 - sizeofHeader

/-! ## Reading and writing -/

structure Header where
  next : Nat
  size : Nat
  uid : BitVec 16
  gid : BitVec 16
  filename : Buf 24
  deriving DecidableEq

/-- `*(short *) address`. -/
def half (c : Cells) (address : Nat) : BitVec 16 := c (address + 1) ++ c address

/-- `*(unsigned int *) address`. -/
def word (c : Cells) (address : Nat) : Nat :=
  (half c address).toNat + 2 ^ 16 * (half c (address + 2)).toNat

def isValid (c : Cells) (address : Nat) : Bool := c (address + sizeofHeader - fsFileNameMaxLenght) ≠ 0

def readHeader (c : Cells) (address : Nat) : Header where
  next := word c address
  size := word c (address + 4)
  uid := half c (address + 8)
  gid := half c (address + 10)
  filename := ⟨read c (address + 12) 24, length_read c _ 24⟩

def writeHeader (f : Flash) (address : Nat) (header : Header) : Bool × Flash :=
  andThen (writeWord f address header.next) fun f =>
  andThen (writeWord f (address + 4) header.size) fun f =>
  andThen (writeShort f (address + 8) header.uid) fun f =>
  andThen (writeShort f (address + 10) header.gid) fun f =>
  write f (address + 12) header.filename.val

/-! ## Rebuilding sectors -/

/-- The inner loop of `writeHeaderRestoringSectors`: a sector is copied to the buffer, with the
headers that are `placed` at addresses in it. A header that is longer than what is left of its sector
goes on behind the buffer, where the chip ends. Here those cells are like any others. -/
def copySector (placed : Nat → Option Header) (currentSector : Nat) :
    Nat → Nat → Flash → Option (Bool × Flash)
  | 0, _, _ => none
  | fuel + 1, i, f =>
    if i &&& addrFlashSectorMask = currentSector then
      let buffer := getBufferSector + (i - (i &&& addrFlashSectorMask))
      match placed i with
      | some header =>
        match writeHeader f buffer header with
        | (false, f) => some (false, f)
        | (true, f) => copySector placed currentSector fuel header.next f
      | none =>
        match writeWord f buffer (word f.cells i) with
        | (false, f) => some (false, f)
        | (true, f) => copySector placed currentSector fuel (i + aligment) f
    else some (true, f)

def copyBack (f : Flash) (currentSector : Nat) : Bool × Flash :=
  andThen (erase f (getSectorNumber currentSector)) fun f =>
  write f (currentSector &&& addrFlashSectorMask) (read f.cells getBufferSector fsSectorSize)

def rebuildSector (placed : Nat → Option Header) (currentSector fuel : Nat) (f : Flash) :
    Option (Bool × Flash) :=
  match erase f fsSectorBuffer with
  | (false, f) => some (false, f)
  | (true, f) => do
    match ← copySector placed currentSector fuel currentSector f with
    | (false, f) => some (false, f)
    | (true, f) => some (copyBack f currentSector)

/-- The outer loop, up to the sector of `last`. -/
def restoreSectors (placed : Nat → Option Header) (last : Nat) :
    Nat → Nat → Flash → Option (Bool × Flash)
  | 0, _, _ => none
  | fuel + 1, currentSector, f =>
    if currentSector ≤ last &&& addrFlashSectorMask then do
      match ← rebuildSector placed currentSector fuel f with
      | (false, f) => some (false, f)
      | (true, f) => restoreSectors placed last fuel (currentSector + fsSectorSize) f
    else some (true, f)

/-- `writeHeaderRestoringSectors(address, header)`. -/
def writeHeaderRestoringSectors (fuel : Nat) (f : Flash) (address : Nat) (header : Header) :
    Option (Bool × Flash) :=
  restoreSectors (fun i => if i = address then some header else none) header.next fuel
    (address &&& addrFlashSectorMask) f

/-- `writeHeaderRestoringSectors(address, header, falseHeader)`. -/
def writeHeadersRestoringSectors (fuel : Nat) (f : Flash) (address : Nat)
    (header falseHeader : Header) : Option (Bool × Flash) :=
  restoreSectors
    (fun i => if i = address then some header else if i = header.next then some falseHeader else none)
    falseHeader.next fuel (address &&& addrFlashSectorMask) f

/-! ## Words in memory -/

theorem half_eq {c : Cells} {a : Nat} {data : BitVec 16} (h : Holds c a (halfBytes data)) :
    half c a = data := by
  have hlow : c a = data.setWidth 8 := holds_iff.mp h 0 (by simp [halfBytes])
  have hhigh : c (a + 1) = (data >>> 8).setWidth 8 := holds_iff.mp h 1 (by simp [halfBytes])
  rw [half, hlow, hhigh]
  apply BitVec.eq_of_getLsbD_eq
  intro i hi
  rw [BitVec.getLsbD_append]
  split
  · simp; omega
  · simp [show i - 8 < 8 by omega]
    congr 1
    omega

theorem halfBytes_half (c : Cells) (a : Nat) : halfBytes (half c a) = Nor.read c a 2 := by
  have hlow : (half c a).setWidth 8 = c a := by
    apply BitVec.eq_of_getLsbD_eq
    intro i hi
    rw [BitVec.getLsbD_setWidth, half, BitVec.getLsbD_append]
    simp [hi]
  have hhigh : (half c a >>> 8).setWidth 8 = c (a + 1) := by
    apply BitVec.eq_of_getLsbD_eq
    intro i hi
    rw [BitVec.getLsbD_setWidth, BitVec.getLsbD_ushiftRight, half, BitVec.getLsbD_append]
    simp [hi]
  rw [halfBytes, hlow, hhigh]
  rfl

theorem word_eq {c : Cells} {a n : Nat} (h : Holds c a (wordBytes n)) (hn : n < 2 ^ 32) : word c a = n := by
  obtain ⟨hlow, hhigh⟩ := holds_append.mp h
  have hlast : half c (a + 2) = BitVec.ofNat 16 (n / 2 ^ 16) := half_eq hhigh
  rw [word, half_eq hlow, hlast]
  simp only [BitVec.toNat_ofNat]
  omega

theorem wordBytes_word (c : Cells) (a : Nat) : wordBytes (word c a) = Nor.read c a 4 := by
  have hlow := (half c a).isLt
  have hhigh := (half c (a + 2)).isLt
  have h1 : BitVec.ofNat 16 (word c a) = half c a := by
    apply BitVec.eq_of_toNat_eq
    rw [word, BitVec.toNat_ofNat]
    omega
  have h2 : BitVec.ofNat 16 (word c a / 2 ^ 16) = half c (a + 2) := by
    apply BitVec.eq_of_toNat_eq
    rw [word, BitVec.toNat_ofNat]
    omega
  rw [wordBytes, h1, h2, halfBytes_half, halfBytes_half, ← read_add]

theorem word_lt (c : Cells) (a : Nat) : word c a < 2 ^ 32 := by
  have h1 := (half c a).isLt
  have h2 := (half c (a + 2)).isLt
  unfold word
  omega

theorem word_blank {c : Cells} {a : Nat} (h : ∀ x, a ≤ x → x < a + 4 → c x = blank) :
    word c a = fsBlank := by
  simp only [word, half]
  rw [h a (by omega) (by omega), h (a + 1) (by omega) (by omega), h (a + 2) (by omega) (by omega),
    h (a + 2 + 1) (by omega) (by omega)]
  rfl

/-! ## Headers in memory -/

def Header.fields (h : Header) : List Byte :=
  wordBytes h.next ++ (wordBytes h.size ++ (halfBytes h.uid ++ halfBytes h.gid))

def Header.bytes (h : Header) : List Byte := h.fields ++ h.filename.val

/-- The byte that says whether the file is there. -/
def Header.first (h : Header) : Byte := h.filename.val.headD 0

@[simp] theorem Header.length_fields (h : Header) : h.fields.length = 12 := by
  simp [Header.fields, wordBytes, halfBytes]

@[simp] theorem Header.length_bytes (h : Header) : h.bytes.length = 36 := by
  rw [Header.bytes, List.length_append, h.length_fields, h.filename.property]

theorem did_writeHeader {f : Flash} (h : f.Fine) (address : Nat) (header : Header) :
    Did (writeHeader f address header) (burn f.cells address header.bytes) := by
  refine (did_writeWord h _ _).andThen fun f₁ hc₁ h₁ => ?_
  refine (did_writeWord h₁ _ _).andThen fun f₂ hc₂ h₂ => ?_
  refine (did_writeShort h₂ _ _).andThen fun f₃ hc₃ h₃ => ?_
  refine (did_writeShort h₃ _ _).andThen fun f₄ hc₄ h₄ => ?_
  have hlast := did_write h₄ (address + 12) header.filename.val
  rw [hc₄, hc₃, hc₂, hc₁] at hlast
  rw [Header.bytes, Header.fields, burn_append, burn_append, burn_append, burn_append]
  exact hlast

theorem fields_readHeader (c : Cells) (a : Nat) : (readHeader c a).fields = Nor.read c a 12 := by
  simp only [Header.fields, readHeader, wordBytes_word, halfBytes_half]
  rw [show 12 = 4 + (4 + (2 + 2)) from rfl, read_add, read_add, read_add]

theorem first_readHeader (c : Cells) (a : Nat) : (readHeader c a).first = c (a + 12) := rfl

theorem isValid_iff {c : Cells} {a : Nat} : isValid c a = true ↔ (readHeader c a).first ≠ 0 := by
  rw [first_readHeader]
  exact decide_eq_true_iff

theorem isValid_eq_false {c : Cells} {a : Nat} : isValid c a = false ↔ (readHeader c a).first = 0 := by
  rw [← Bool.not_eq_true, isValid_iff, not_not]

theorem readHeader_of_fields {c : Cells} {a : Nat} {h : Header} (hnext : h.next < 2 ^ 32)
    (hsize : h.size < 2 ^ 32) (hcells : Holds c a h.fields) :
    readHeader c a = { h with filename := (readHeader c a).filename } := by
  obtain ⟨h1, hrest⟩ := holds_append.mp hcells
  obtain ⟨h2, hrest⟩ := holds_append.mp hrest
  obtain ⟨h3, h4⟩ := holds_append.mp hrest
  have hnext' : word c a = h.next := word_eq h1 hnext
  have hsize' : word c (a + 4) = h.size := word_eq h2 hsize
  have huid : half c (a + 8) = h.uid := half_eq h3
  have hgid : half c (a + 10) = h.gid := half_eq h4
  simp only [readHeader, hnext', hsize', huid, hgid]

theorem readHeader_eq {c : Cells} {a : Nat} {h : Header} (hnext : h.next < 2 ^ 32)
    (hsize : h.size < 2 ^ 32) (hcells : Holds c a h.bytes) : readHeader c a = h := by
  obtain ⟨hfields, hname⟩ := holds_append.mp hcells
  rw [readHeader_of_fields hnext hsize hfields]
  have hfilename : (readHeader c a).filename = h.filename := by
    apply Buf.ext
    rw [h.length_fields] at hname
    exact hname.read h.filename.property.symm
  rw [hfilename]

theorem readHeader_congr {c c' : Cells} {a : Nat} (h : ∀ x, a ≤ x → x < a + 36 → c x = c' x) :
    readHeader c a = readHeader c' a := by
  have hfields : Holds c' a (readHeader c a).fields := by
    rw [fields_readHeader]
    unfold Holds
    rw [length_read]
    exact read_congr fun x hx hx' => (h x hx (by omega)).symm
  have hread := readHeader_of_fields (word_lt c a) (word_lt c (a + 4)) hfields
  have hname : (readHeader c' a).filename = (readHeader c a).filename :=
    Buf.ext (read_congr fun x hx hx' => (h x (by omega) (by omega)).symm)
  rw [hread, hname]

end PasswordManager.FileSystem
