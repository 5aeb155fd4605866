import PasswordManager.FlashDriver
import PasswordManager.Vault.Crypt

/-! # Storing the vault on the flash and loading it -/

open Nor

namespace PasswordManager.Vault

open FlashDriver

/-! ## The code -/

/-- `"PWM"` with its terminator. -/
def ident : List Byte := [0x50, 0x57, 0x4D, 0x00]

/-- A `short` in memory. -/
def shortBytes (n : Nat) : List Byte := [BitVec.ofNat 8 n, BitVec.ofNat 8 (n / 256)]

/-- The `short` of two bytes in memory. -/
def short (low high : Byte) : Int :=
  let v := low.toNat + 256 * high.toNat
  if v < 0x8000 then v else v - 0x10000

def storeData (m : Manager) (f : Flash) : Bool × Flash :=
  match erase f (getSectorNumber m.address) with
  | (erased, f) =>
    match write f m.address ident with
    | (wroteIdent, f) =>
      match write f (m.address + 4) (shortBytes m.records.numOfPass) with
      | (wroteCount, f) =>
        match write f (m.address + 6)
          (m.encryptedData.val.take (32 * 2 * m.records.numOfPass + 16)) with
        | (wroteData, f) => (erased && wroteIdent && wroteCount && wroteData, f)

def deleteData (m : Manager) (f : Flash) : Bool × Flash := erase f (getSectorNumber m.address)

inductive Loaded
  /-- `firstUse` is set and `numOfPass` is 0. -/
  | firstUse
  /-- `firstUse` is cleared; the count and the bytes that are copied into `encryptedData`. -/
  | vault (numOfPass : Int) (data : List Byte)
  deriving DecidableEq

/-- The last argument of the second `memcpy`, as a `size_t`. -/
def copySize (numOfPass : Int) : Nat := ((32 * 2 * numOfPass + 16) % 2 ^ 32).toNat

def loadData (c : Cells) (address : Nat) : Loaded :=
  if read c address 4 = ident then
    let numOfPass := short (c (address + 4)) (c (address + 5))
    .vault numOfPass (read c (address + 6) (copySize numOfPass))
  else .firstUse

/-- `none` when the copy runs over the end of `encryptedData`. -/
def Manager.loadData (m : Manager) (c : Cells) : Option Manager :=
  match Vault.loadData c m.address with
  | .firstUse =>
    some { m with firstUse := true, records := { m.records with numOfPass := 0, bound := Nat.zero_le _ } }
  | .vault n data =>
    if h : 0 ≤ n ∧ data.length ≤ dataSize ∧ n ≤ maxStored then
      some { m with
        firstUse := false
        records := { m.records with numOfPass := n.toNat, bound := by omega }
        encryptedData := ⟨data ++ m.encryptedData.val.drop data.length, by
          rw [List.length_append, List.length_drop, m.encryptedData.property]
          omega⟩ }
    else none

/-- A new object at an address. The memory it gets holds anything. -/
def construct (memory : Manager) (address : Nat) : Manager :=
  { memory with
    firstUse := false
    changed := false
    records := { memory.records with numOfPass := 0, bound := Nat.zero_le _ }
    address }

def Manager.zeroed (address : Nat) : Manager where
  changed := false
  key := Field.filled 0
  address
  firstUse := false
  records := Records.filled 0
  checksum := ⟨List.replicate 16 0, List.length_replicate⟩
  encryptedData := ⟨List.replicate dataSize 0, List.length_replicate⟩

/-! ## The image of a vault -/

def image (n : Nat) (data : List Byte) : List Byte := ident ++ (shortBytes n ++ data)

/-- The cells from the address on hold a vault, written in full. -/
def Stored (c : Cells) (address n : Nat) (data : List Byte) : Prop :=
  n ≤ maxStored ∧ data.length = n * 2 * 32 + 16 ∧ Holds c address (image n data)

/-- What a slot may hold before a session: no identifier, or a vault. -/
def SlotContent (c : Cells) (address : Nat) : Prop :=
  read c address 4 ≠ ident ∨ ∃ n data, Stored c address n data

/-- `there must be 32 KiB space (on one single sector)`. -/
def SlotAddress (address : Nat) : Prop :=
  ∃ k : Int, 0 ≤ k ∧ k ≤ 11 ∧ getSectorAddress k ≤ address ∧
    address + 0x8000 ≤ getSectorAddress k + sectorSize k

theorem slotAddress_standard : SlotAddress 0x080F8000 :=
  ⟨11, by decide, by decide, by decide, by decide⟩

theorem length_image (n : Nat) (data : List Byte) : (image n data).length = data.length + 6 := by
  simp [image, ident, shortBytes]

theorem short_shortBytes {n : Nat} (h : n ≤ maxStored) :
    short (BitVec.ofNat 8 n) (BitVec.ofNat 8 (n / 256)) = n := by
  simp only [maxStored] at h
  simp only [short, BitVec.toNat_ofNat]
  split <;> omega

theorem shortBytes_inj {n n' : Nat} (h : n ≤ maxStored) (h' : n' ≤ maxStored)
    (heq : shortBytes n = shortBytes n') : n = n' := by
  simp only [shortBytes, List.cons.injEq, and_true] at heq
  have hshort := short_shortBytes h
  rw [heq.1, heq.2, short_shortBytes h'] at hshort
  exact Int.ofNat_inj.mp hshort.symm

theorem copySize_of_le {n : Nat} (h : n ≤ maxStored) : copySize n = n * 2 * 32 + 16 := by
  simp only [maxStored] at h
  simp only [copySize]
  omega

theorem Stored.loadData {c : Cells} {address n : Nat} {data : List Byte}
    (h : Stored c address n data) : Vault.loadData c address = .vault n data := by
  obtain ⟨hn, hlen, hcells⟩ := h
  obtain ⟨hident, hrest⟩ := holds_append.mp hcells
  obtain ⟨hcount, hdata⟩ := holds_append.mp hrest
  rw [show Vault.ident.length = 4 from rfl] at hcount hdata
  rw [show (shortBytes n).length = 2 from rfl, Nat.add_assoc] at hdata
  have hlow : c (address + 4) = BitVec.ofNat 8 n := holds_iff.mp hcount 0 (by simp [shortBytes])
  have hhigh : c (address + 5) = BitVec.ofNat 8 (n / 256) :=
    holds_iff.mp hcount 1 (by simp [shortBytes])
  have hread : read c address 4 = Vault.ident := hident
  rw [Vault.loadData, if_pos hread, hlow, hhigh, short_shortBytes hn]
  simp only [copySize_of_le hn, hdata.read hlen.symm]

theorem Stored.congr {c c' : Cells} {address n : Nat} {data : List Byte} (h : Stored c address n data)
    (hc : ∀ x, address ≤ x → x < address + 0x8000 → c x = c' x) : Stored c' address n data := by
  obtain ⟨hn, hlen, hcells⟩ := h
  refine ⟨hn, hlen, hcells.congr fun x hx hx' => hc x hx ?_⟩
  simp only [maxStored] at hn
  rw [length_image] at hx'
  omega

theorem SlotContent.congr {c c' : Cells} {address : Nat} (h : SlotContent c address)
    (hc : ∀ x, address ≤ x → x < address + 0x8000 → c x = c' x) : SlotContent c' address := by
  rcases h with hident | ⟨n, data, hstored⟩
  · left
    rwa [← read_congr fun x hx hx' => hc x hx (by omega)]
  · exact .inr ⟨n, data, hstored.congr hc⟩

theorem read_ne_ident {c : Cells} {address : Nat} (h : c address = blank) :
    read c address 4 ≠ ident := by
  intro hident
  have hfirst : c address = 0x50 := holds_iff.mp (show Holds c address ident from hident) 0 (by decide)
  rw [h] at hfirst
  exact absurd hfirst (by decide)

theorem loadData_of_ne {c : Cells} {address : Nat} (h : read c address 4 ≠ ident) :
    loadData c address = .firstUse := by
  rw [loadData, if_neg h]

theorem length_of_loadData {c : Cells} {address : Nat} {n : Int} {data : List Byte}
    (h : loadData c address = .vault n data) : data.length = copySize n := by
  unfold loadData at h
  split at h
  · cases h
    simp
  · cases h

/-- The driver names the sector of a slot's address. Its last 3072 bytes do not matter here:
no slot starts in them. -/
theorem SlotAddress.inSector {address : Nat} (h : SlotAddress address) {x : Nat}
    (hx : address ≤ x) (hx' : x < address + 0x8000) : InSector (getSectorNumber address) x := by
  obtain ⟨k, h0, h11, hlow, hhigh⟩ := h
  have hin : InSector k address := ⟨hlow, by omega⟩
  have hend := sectorEnd_le h0 h11
  rw [getSectorNumber_of_inSector h0 h11 hin (by omega)]
  exact ⟨by omega, by omega⟩

/-! ## What `storeData` leaves behind -/

def Manager.count (m : Manager) : List Byte := shortBytes m.records.numOfPass

/-- The part of `encryptedData` that goes to the flash. -/
def Manager.data (m : Manager) : List Byte :=
  m.encryptedData.val.take (32 * 2 * m.records.numOfPass + 16)

theorem Manager.length_data (m : Manager) : m.data.length = m.records.numOfPass * 2 * 32 + 16 := by
  have := m.records.bound
  simp only [data, List.length_take, m.encryptedData.property, dataSize]
  omega

theorem Manager.encrypt_data (m : Manager) : m.encrypt.data = blob m.key m.records.live := by
  rw [data, encrypt_eq, encrypt_records]
  exact List.take_left' (by rw [length_blob, Records.length_live]; omega)

/-- How far the steps of `storeData` get: the erase, and the bytes of each of the three writes
that are in the cells. -/
structure Progress where
  erased : Bool
  identBytes : Nat
  countBytes : Nat
  dataBytes : Nat
  deriving DecidableEq, Repr

def Progress.cells (p : Progress) (m : Manager) (c : Cells) : Cells :=
  let c := if p.erased then wipe (InSector (getSectorNumber m.address)) c else c
  burn (burn (burn c m.address (ident.take p.identBytes)) (m.address + 4) (m.count.take p.countBytes))
    (m.address + 6) (m.data.take p.dataBytes)

def Progress.Complete (p : Progress) (m : Manager) : Prop :=
  p.erased = true ∧ p.identBytes = ident.length ∧ p.countBytes = m.count.length ∧
    p.dataBytes = m.data.length

instance (p : Progress) (m : Manager) : Decidable (p.Complete m) :=
  inferInstanceAs (Decidable (_ ∧ _))

/-- The numbers of the first operation of each write, when the erase has number `n`. -/
def identOp (n : Nat) : Nat := n + 1

def countOp (accepts : Nat → Bool) (n address : Nat) : Nat :=
  identOp n + (writeOps accepts (identOp n) address ident).length

def dataOp (accepts : Nat → Bool) (n : Nat) (m : Manager) : Nat :=
  countOp accepts n m.address +
    (writeOps accepts (countOp accepts n m.address) (m.address + 4) m.count).length

/-- How far `storeData` gets, when `taken` says which of its operations take effect. -/
def progress (taken accepts : Nat → Bool) (n : Nat) (m : Manager) : Progress where
  erased := taken n
  identBytes := through taken (identOp n) ident
  countBytes := through taken (countOp accepts n m.address) m.count
  dataBytes := through taken (dataOp accepts n m) m.data

def storeOps (accepts : Nat → Bool) (n : Nat) (m : Manager) : List Op :=
  .erase (getSectorNumber m.address) ::
    (writeOps accepts (identOp n) m.address ident ++
      (writeOps accepts (countOp accepts n m.address) (m.address + 4) m.count ++
        writeOps accepts (dataOp accepts n m) (m.address + 6) m.data))

theorem storeData_eq (m : Manager) (f : Flash) :
    storeData m f =
      (decide ((progress f.accepts f.accepts f.trace.length m).Complete m),
        { f with
          cells := (progress f.accepts f.accepts f.trace.length m).cells m f.cells
          trace := f.trace ++ storeOps f.accepts f.trace.length m }) := by
  simp only [storeData, FlashDriver.erase, Flash.issue, write_eq]
  simp only [progress, Progress.Complete, Progress.cells, storeOps, identOp, countOp, dataOp,
    Manager.count, Manager.data, Op.apply, List.length_append, List.length_cons, List.length_nil]
  refine Prod.ext ?_ ?_
  · simp [Bool.and_assoc]
  · simp only [List.append_assoc, List.cons_append, List.nil_append]
    rfl

theorem replay_storeOps (accepts : Nat → Bool) (n stop : Nat) (m : Manager) (c : Cells) :
    replay accepts n c ((storeOps accepts n m).take (stop - n)) =
      (progress (cutAt accepts stop) accepts n m).cells m c := by
  have hwrites : ∀ c, replay accepts (identOp n) c
      ((writeOps accepts (identOp n) m.address ident ++
        (writeOps accepts (countOp accepts n m.address) (m.address + 4) m.count ++
          writeOps accepts (dataOp accepts n m) (m.address + 6) m.data)).take
        (stop - identOp n)) =
      burn (burn (burn c m.address
          (ident.take (through (cutAt accepts stop) (identOp n) ident)))
        (m.address + 4)
          (m.count.take (through (cutAt accepts stop) (countOp accepts n m.address) m.count)))
        (m.address + 6)
          (m.data.take (through (cutAt accepts stop) (dataOp accepts n m) m.data)) := by
    intro c
    rw [replay_writeOps_append, ← countOp, replay_writeOps_append, ← dataOp, replay_writeOps]
  rw [Progress.cells, progress, ← hwrites]
  rcases Nat.lt_or_ge n stop with hlt | hge
  · rw [storeOps, show stop - n = stop - identOp n + 1 by simp only [identOp]; omega,
      List.take_succ_cons, replay, ← identOp]
    simp [cutAt, hlt, Op.apply]
  · rw [Nat.sub_eq_zero_of_le hge, Nat.sub_eq_zero_of_le (by simp only [identOp]; omega)]
    simp [cutAt, hge, replay]

/-! ## A store that gets through -/

theorem Progress.Complete.stored {p : Progress} {m : Manager} (h : p.Complete m)
    (ha : SlotAddress m.address) (c : Cells) :
    Stored (p.cells m c) m.address m.records.numOfPass m.data := by
  obtain ⟨herased, hident, hcount, hdata⟩ := h
  have hcells : p.cells m c = burn (wipe (InSector (getSectorNumber m.address)) c) m.address
      (image m.records.numOfPass m.data) := by
    rw [image, burn_append, burn_append, Progress.cells, herased, hident, hcount, hdata]
    simp only [List.take_length, Nat.add_assoc]
    rfl
  refine ⟨m.records.bound, m.length_data, ?_⟩
  rw [hcells]
  apply holds_burn
  intro x hx hx'
  have hlen := m.length_data
  have hbound := m.records.bound
  simp only [maxStored] at hbound
  rw [length_image] at hx'
  rw [wipe, if_pos (ha.inSector hx (by omega))]

theorem Progress.cells_outside (p : Progress) {m : Manager} (ha : SlotAddress m.address) (c : Cells)
    {x : Nat} (hx : ¬ InSector (getSectorNumber m.address) x) : p.cells m c x = c x := by
  have hrange : x < m.address ∨ m.address + 0x8000 ≤ x := by
    by_contra h
    exact hx (ha.inSector (by omega) (by omega))
  have hlen := m.length_data
  have hbound := m.records.bound
  have hident : ident.length = 4 := rfl
  have hcount : m.count.length = 2 := rfl
  simp only [maxStored] at hbound
  have htake : ∀ (l : List Byte) k, (l.take k).length ≤ l.length := fun l k => by simp
  have h1 := htake ident p.identBytes
  have h2 := htake m.count p.countBytes
  have h3 := htake m.data p.dataBytes
  simp only [Progress.cells]
  rw [burn_outside (by omega), burn_outside (by omega), burn_outside (by omega)]
  split
  · rw [wipe, if_neg hx]
  · rfl

theorem storeData_accepted (m : Manager) {f : Flash} (h : ∀ i, f.accepts i = true) :
    (storeData m f).1 = true := by
  rw [storeData_eq]
  simp [progress, Progress.Complete, through_of_accepts h, h]

theorem storeData_stored {m : Manager} {f : Flash} (ha : SlotAddress m.address)
    (h : (storeData m f).1 = true) :
    Stored (storeData m f).2.cells m.address m.records.numOfPass m.data := by
  rw [storeData_eq] at h ⊢
  exact (of_decide_eq_true h).stored ha f.cells

theorem storeData_outside {m : Manager} (f : Flash) (ha : SlotAddress m.address) {x : Nat}
    (hx : ¬ InSector (getSectorNumber m.address) x) : (storeData m f).2.cells x = f.cells x := by
  rw [storeData_eq]
  exact Progress.cells_outside _ ha _ hx

theorem deleteData_failed {m : Manager} {f : Flash} (h : (deleteData m f).1 = false) :
    (deleteData m f).2.cells = f.cells := by
  simp only [deleteData, FlashDriver.erase, Flash.issue] at h ⊢
  rw [h]
  rfl

theorem Manager.loadData_stored {m : Manager} {c : Cells} {n : Nat} {data : List Byte}
    (h : Stored c m.address n data) :
    ∃ m' rest, m.loadData c = some m' ∧ m'.firstUse = false ∧ m'.changed = m.changed ∧
      m'.key = m.key ∧ m'.address = m.address ∧ m'.records.numOfPass = n ∧
      m'.encryptedData.val = data ++ rest := by
  have hcond : 0 ≤ (n : Int) ∧ data.length ≤ dataSize ∧ (n : Int) ≤ maxStored := by
    obtain ⟨hn, hlen, -⟩ := h
    simp only [dataSize, maxStored] at *
    omega
  rw [loadData, h.loadData]
  simp only
  rw [dif_pos hcond]
  exact ⟨_, _, rfl, rfl, rfl, rfl, rfl, Int.toNat_natCast n, rfl⟩

theorem Manager.loadData_empty {m : Manager} {c : Cells} (h : read c m.address 4 ≠ ident) :
    ∃ m', m.loadData c = some m' ∧ m'.firstUse = true ∧ m'.changed = m.changed ∧
      m'.key = m.key ∧ m'.address = m.address ∧ m'.records.numOfPass = 0 := by
  rw [loadData, loadData_of_ne h]
  exact ⟨_, rfl, rfl, rfl, rfl, rfl, rfl⟩

/-! ## The round trip -/

/-- A new object at the address, and what the master password decrypts. -/
def reopen (memory : Manager) (address : Nat) (c : Cells) (password : Line) :
    Option (Bool × Manager) :=
  ((construct memory address).loadData c).map fun m =>
    (m.createKey password).decrypt m.encryptedData.val

theorem reopen_stored {c : Cells} {address n : Nat} {data : List Byte} {l : List WPTuple}
    (h : Stored c address n data) {password : Line}
    (hopens : opens (keyOf password.str) n data = some l) (memory : Manager) :
    ∃ found, reopen memory address c password = some (true, found) ∧
      found.records.numOfPass = n ∧ found.records.live = l := by
  obtain ⟨m, rest, hload, -, -, -, -, hn, hdata⟩ :=
    Manager.loadData_stored (m := construct memory address) h
  have hm : opens (m.createKey password).key (m.createKey password).records.numOfPass
      m.encryptedData.val = some l := by
    rw [createKey_eq, hdata, hn, opens_append _ h.2.1.ge]
    exact hopens
  obtain ⟨hok, hlive⟩ := (m.createKey password).decrypt_eq m.encryptedData.val
  obtain ⟨checksum, records, hrecords, hframe⟩ :=
    (m.createKey password).decrypt_frame m.encryptedData.val
  rw [hm] at hok
  refine ⟨((m.createKey password).decrypt m.encryptedData.val).2, ?_, ?_, hlive l hm⟩
  · rw [reopen, hload, Option.map_some]
    exact congrArg some (Prod.ext hok rfl)
  · rw [hframe]
    exact hrecords.trans hn

end PasswordManager.Vault
