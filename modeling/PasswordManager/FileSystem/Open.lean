import PasswordManager.FileSystem.Header
import PasswordManager.Lib.Heap

/-!
# Creating, finding and deleting files

The loops follow `next`, which need not end, so they take fuel. `beyond` is the memory behind the
local variable `header`: the name in it need not be terminated, and `strcmp` reads on.
-/

open Nor

namespace PasswordManager.FileSystem

open FlashDriver CString

/-! ## Names -/

/-- A terminated string. -/
abbrev Name := { l : List Byte // (0 : Byte) ∉ l }

/-- `strcmp(filename, memory) == 0`. -/
def strcmp (filename : Name) (memory : List Byte) : Bool := (filename.val ++ [0]).isPrefixOf memory

/-! ## The list of files -/

def getAddress (c : Cells) (filename : Name) (beyond : Nat → List Byte) : Nat → Nat → Option Nat
  | 0, _ => none
  | fuel + 1, address =>
    if address ≠ fsBlank ∧ address < getLastAddress then
      let header := readHeader c address
      if strcmp filename (header.filename.val ++ beyond address) then some address
      else getAddress c filename beyond fuel header.next
    else some fsBlank

def findFile (c : Cells) (filename : Name) (beyond : Nat → List Byte) : Nat → Nat → Option Bool
  | 0, _ => none
  | fuel + 1, address =>
    if address ≠ fsBlank ∧ address < getLastAddress then
      let header := readHeader c address
      if strcmp filename (header.filename.val ++ beyond address) then some true
      else findFile c filename beyond fuel (word c address)
    else some false

/-- The loop to the newest file in the list. -/
def newest (c : Cells) : Nat → Nat → Option Nat
  | 0, _ => none
  | fuel + 1, address =>
    if word c address ≠ fsBlank then newest c fuel (word c address) else some address

/-! ## Holes -/

/-- `a + b` and `a - b` of an `unsigned int`. -/
def plus (a b : Nat) : Nat := (a + b) % 2 ^ 32

def minus (a b : Nat) : Nat := (a + 2 ^ 32 - b) % 2 ^ 32

/-- The loop over the holes from `address` on. It returns `sizeHole`. -/
def joinHoles (c : Cells) (size address : Nat) : Nat → Nat → Nat → Option Nat
  | 0, _, _ => none
  | fuel + 1, ptrEndHole, sizeHole =>
    if ptrEndHole ≠ fsBlank ∧ isValid c ptrEndHole = false ∧ sizeHole < size ∧
        ptrEndHole < getLastAddress then
      joinHoles c size address fuel (word c ptrEndHole) (minus (word c ptrEndHole) address)
    else some sizeHole

/-- What the scan does at an address before it follows `next`. -/
def visit (c : Cells) (size fuel address : Nat) (holes : List Nat) : Option (Nat × List Nat) :=
  if isValid c address = false then do
    let sizeHole ← joinHoles c size address fuel address (minus (word c address) address)
    if size ≤ sizeHole ∧ plus address sizeHole < getLastAddress then
      some (plus address sizeHole, holes ++ [address])
    else some (word c address, holes)
  else some (address, holes)

/-- The scan for holes that `size` bytes fit in. -/
def findHoles (c : Cells) (size : Nat) : Nat → Nat → List Nat → Option (List Nat)
  | 0, _, _ => none
  | fuel + 1, address, holes => do
    let (address, holes) ← visit c size fuel address holes
    let address := word c address
    if address ≠ fsBlank ∧ address < getLastAddress then findHoles c size fuel address holes
    else some holes

/-- The loop for the size of the chosen hole. It returns `ptrEndHole`. -/
def endOfHole (c : Cells) (size address : Nat) : Nat → Nat → Option Nat
  | 0, _ => none
  | fuel + 1, ptrEndHole =>
    if minus (word c ptrEndHole) address < size then
      endOfHole c size address fuel (word c ptrEndHole)
    else some (word c ptrEndHole)

/-! ## Creating a file -/

structure File where
  basePointer : Nat
  lenght : Nat
  uid : BitVec 16
  gid : BitVec 16
  deriving DecidableEq

/-- The first value of `newHeader.next`. -/
def roundUp (size : Nat) : Nat :=
  sizeofHeader * ((size + sizeofHeader - 1) / sizeofHeader) + 2 * sizeofHeader

def padName (filename : List Byte) : Buf 24 :=
  ⟨filename.take 24 ++ List.replicate (24 - filename.length) 0, by
    simp only [List.length_append, List.length_take, List.length_replicate]; omega⟩

def newHeader (filename : Name) (size next : Nat) : Header where
  next
  size
  uid := 0xBBBB
  gid := 0xAAAA
  filename := padName filename.val

/-- The fields that are not set keep what the memory held. -/
def falseHeader (memory : Header) (next : Nat) : Header :=
  { memory with
    next
    size := 0
    filename := ⟨0 :: memory.filename.val.tail, by
      rw [List.length_cons, List.length_tail, memory.filename.property]⟩ }

/-- What a create reads besides the flash. -/
structure Env where
  /-- Behind `header` in `findFile` and `getAddress`. -/
  beyond : Nat → List Byte
  /-- The number from the hardware generator. -/
  random : Nat
  /-- What `falseHeader` held. -/
  memory : Header

/-- Where the new header goes, and a header for what is left of the holes. -/
inductive Place
  | newest (address : Nat) (header : Header)
  | hole (address : Nat) (header : Header) (rest : Option Header)

def Place.address : Place → Nat
  | .newest address _ => address
  | .hole address _ _ => address

/-- A chosen hole and the end of the holes that are joined with it. -/
def chooseHole (fuel : Nat) (c : Cells) (size random : Nat) : Option (Option (Nat × Nat)) := do
  match ← findHoles c size fuel getStartSector [] with
  | [] => some none
  | hole :: holes =>
    let address := (hole :: holes).getD ((random &&& 0x7FFFFFFF) % (hole :: holes).length) hole
    let ptrEndHole ← endOfHole c size address fuel address
    some (some (address, ptrEndHole))

/-- The three cases for a hole: it fits, it is split, or it is merged with the holes behind it. -/
def fillHole (c : Cells) (filename : Name) (size address ptrEndHole : Nat) (memory : Header) : Place :=
  let sizeHole := minus ptrEndHole address
  let next := plus (roundUp size) address
  if ptrEndHole = (readHeader c address).next ∧ sizeHole = roundUp size then
    .hole address (newHeader filename size (readHeader c address).next) none
  else if roundUp size < sizeHole ∧ sizeHole = minus (word c address) address then
    .hole address (newHeader filename size next)
      (some (falseHeader memory (readHeader c address).next))
  else if isValid c next then .hole address (newHeader filename size next) none
  else .hole address (newHeader filename size next) (some (falseHeader memory ptrEndHole))

/-- `open` with `O_CREAT | O_WRONLY`, up to the first write. -/
def place (fuel : Nat) (c : Cells) (filename : Name) (size : Nat) (env : Env) :
    Option (Option Place) := do
  if ← findFile c filename env.beyond fuel getStartSector then some none
  else
    let address ← newest c fuel getStartSector
    if plus (roundUp size) address < getLastAddress then
      some (some (.newest address (newHeader filename size (plus (roundUp size) address))))
    else
      match ← chooseHole fuel c (roundUp size) env.random with
      | none => some none
      | some (address, ptrEndHole) =>
        some (some (fillHole c filename size address ptrEndHole env.memory))

def Place.write (fuel : Nat) (f : Flash) : Place → Option (Bool × Flash)
  | .newest address header => some (writeHeader f address header)
  | .hole address header none => writeHeaderRestoringSectors fuel f address header
  | .hole address header (some rest) => writeHeadersRestoringSectors fuel f address header rest

inductive Flags
  | create
  | read
  | other
  deriving DecidableEq

/-- `open`, without the heap. -/
def openFile (fuel : Nat) (f : Flash) (filename : Name) (flags : Flags) (size : Int) (env : Env) :
    Option (Option File × Flash) :=
  if filename.val.length > fsFileNameMaxLenght then some (none, f)
  else if filename.val = [] then some (none, f)
  else if size < 0 then some (none, f)
  else
    match flags with
    | .create => do
      match ← place fuel f.cells filename size.toNat env with
      | none => some (none, f)
      | some place =>
        match ← place.write fuel f with
        | (false, f) => some (none, f)
        | (true, f) =>
          some (some ⟨place.address + sizeofHeader, size.toNat, 0xBBBB, 0xAAAA⟩, f)
    | .read => do
      let address ← getAddress f.cells filename env.beyond fuel getStartSector
      if address = fsBlank then some (none, f)
      else
        let header := readHeader f.cells address
        some (some ⟨address + sizeofHeader, header.size, header.uid, header.gid⟩, f)
    | .other => some (none, f)

/-! ## The heap -/

/-- The blocks that are given to `holes` and to the new `File`. -/
structure Blocks where
  holes : Nat
  file : Nat

structure Pointer where
  block : Nat
  file : File

/-- `holes.~vector()` releases the block of `holes` before the file is written, and the end of the
scope releases it once more. -/
def Place.heap (blocks : Blocks) (made : Bool) (heap : Heap Nat) : Place → Heap Nat
  | .newest _ _ => if made then heap.allocate blocks.file else heap
  | .hole _ _ _ =>
    let heap := (heap.allocate blocks.holes).release blocks.holes
    let heap := if made then heap.allocate blocks.file else heap
    heap.release blocks.holes

/-- `open`, with the heap. -/
def openPointer (fuel : Nat) (f : Flash) (heap : Heap Nat) (filename : Name) (flags : Flags) (size : Int)
    (env : Env) (blocks : Blocks) : Option (Option Pointer × Flash × Heap Nat) :=
  if filename.val.length > fsFileNameMaxLenght then some (none, f, heap)
  else if filename.val = [] then some (none, f, heap)
  else if size < 0 then some (none, f, heap)
  else
    match flags with
    | .create => do
      match ← place fuel f.cells filename size.toNat env with
      | none => some (none, f, heap)
      | some place =>
        match ← place.write fuel f with
        | (false, f) => some (none, f, place.heap blocks false heap)
        | (true, f) =>
          some (some ⟨blocks.file, place.address + sizeofHeader, size.toNat, 0xBBBB, 0xAAAA⟩, f,
            place.heap blocks true heap)
    | .read => do
      let address ← getAddress f.cells filename env.beyond fuel getStartSector
      if address = fsBlank then some (none, f, heap)
      else
        let header := readHeader f.cells address
        some (some ⟨blocks.file, address + sizeofHeader, header.size, header.uid, header.gid⟩, f,
          heap.allocate blocks.file)
    | .other => some (none, f, heap)

/-! ## Deleting a file -/

inductive Errno
  | ENOENT
  | EIO
  | ENAMETOOLONG
  deriving DecidableEq

def unlink (fuel : Nat) (f : Flash) (filename : Name) (beyond : Nat → List Byte) :
    Option (Except Errno Unit × Flash) :=
  if filename.val = [] then some (.error .ENOENT, f)
  else do
    let address ← getAddress f.cells filename beyond fuel getStartSector
    if address = fsBlank then some (.error .ENOENT, f)
    else
      match programByte f (address + sizeofHeader - fsFileNameMaxLenght) 0 with
      | (false, f) => some (.error Errno.EIO, f)
      | (true, f) => some (.ok (), f)

/-! ## The status of a file -/

structure Stat where
  stNlink : Nat
  stUid : BitVec 16
  stGid : BitVec 16
  stSize : Nat
  stBlksize : Nat
  stBlocks : Nat
  deriving DecidableEq

/-- What `lstat` puts into `buf`. The `memset` comes after `st_nlink = 1`. -/
def Header.stat (header : Header) : Stat where
  stNlink := 0
  stUid := header.uid
  stGid := header.gid
  stSize := header.size
  stBlksize := 512
  stBlocks := (header.size + 512 - 1) / 512 * 512

def lstat (fuel : Nat) (c : Cells) (filename : Name) (beyond : Nat → List Byte) :
    Option (Except Errno Stat) :=
  if filename.val.length > fsFileNameMaxLenght then some (.error .ENAMETOOLONG)
  else do
    let address ← getAddress c filename beyond fuel getStartSector
    if address = fsBlank then some (.error .ENOENT)
    else some (.ok (readHeader c address).stat)

end PasswordManager.FileSystem
