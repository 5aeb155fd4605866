import PasswordManager.Aes.Statics
import PasswordManager.Aes.Proofs
import PasswordManager.Lib.Memory

/-!
# The buffer functions in memory

The two functions as they run, on pointers into one flat memory. The last part of a length that is not a
multiple of 16 is here too.
-/

open Memory

namespace PasswordManager.Aes

/-- The memory, and the static variables. `iv` is a pointer. -/
structure Machine where
  mem : Nat → Byte
  roundKey : List Byte
  iv : Nat

def readBlock (m : Nat → Byte) (p : Nat) : Block := Vector.ofFn fun k => m (p + k)

def writeBlock (m : Nat → Byte) (p : Nat) (b : Block) : Nat → Byte := put m p 16 fun i => b.toList.getD i 0

def blockCopyAt (m : Nat → Byte) (output input : Nat) : Nat → Byte :=
  fill m output 16 fun m i => m (input + i)

def xorWithIvAt (m : Nat → Byte) (buf iv : Nat) : Nat → Byte :=
  fill m buf 16 fun m i => m (buf + i) ^^^ m (iv + i)

/-- `state` points to the block. -/
def inPlace (f : Block → Block) (m : Nat → Byte) (state : Nat) : Nat → Byte :=
  writeBlock m state (f (readBlock m state))

def cipherAt (roundKey : List Byte) (m : Nat → Byte) (state : Nat) : Nat → Byte :=
  inPlace (cipher roundKey) m state

def invCipherAt (roundKey : List Byte) (m : Nat → Byte) (state : Nat) : Nat → Byte :=
  inPlace (invCipher roundKey) m state

/-- One turn of the loop. -/
def encryptBlockAt (w : Machine) (output input : Nat) : Machine :=
  let m := xorWithIvAt w.mem input w.iv
  let m := blockCopyAt m output input
  { w with mem := cipherAt w.roundKey m output, iv := output }

def decryptBlockAt (w : Machine) (output input : Nat) : Machine :=
  let m := blockCopyAt w.mem output input
  let m := invCipherAt w.roundKey m output
  { w with mem := xorWithIvAt m output w.iv, iv := input }

def encryptLoopAt : Nat → Machine → Nat → Nat → Machine
  | 0, w, _, _ => w
  | n + 1, w, output, input => encryptLoopAt n (encryptBlockAt w output input) (output + 16) (input + 16)

def decryptLoopAt : Nat → Machine → Nat → Nat → Machine
  | 0, w, _, _ => w
  | n + 1, w, output, input => decryptLoopAt n (decryptBlockAt w output input) (output + 16) (input + 16)

/-- The start of both functions. A null pointer is 0. -/
def enter (w : Machine) (output input key iv : Nat) : Machine :=
  let m := blockCopyAt w.mem output input
  { mem := m
    roundKey := if key = 0 then w.roundKey else keyExpansion (load m key 16)
    iv := if iv = 0 then w.iv else iv }

/-- The block that both functions add for a length with a remainder. They do not chain it. -/
def remainder (f : List Byte → Block → Block) (w : Machine) (output input remainders : Nat) : Machine :=
  let m := blockCopyAt w.mem output input
  let m := fill m (output + remainders) (16 - remainders) fun _ _ => 0
  { w with mem := inPlace (f w.roundKey) m output }

-- The loop runs while `i < length`, so it also takes the block that a remainder starts.

def encryptBufferAt (w : Machine) (output input length key iv : Nat) : Machine :=
  let n := (length + 15) / 16
  let w := encryptLoopAt n (enter w output input key iv) output input
  if length % 16 = 0 then w else remainder cipher w (output + 16 * n) (input + 16 * n) (length % 16)

def decryptBufferAt (w : Machine) (output input length key iv : Nat) : Machine :=
  let n := (length + 15) / 16
  let w := decryptLoopAt n (enter w output input key iv) output input
  if length % 16 = 0 then w else remainder invCipher w (output + 16 * n) (input + 16 * n) (length % 16)

/-- `AES128_ECB_encrypt` and `AES128_ECB_decrypt`, where `f` is the direction. -/
def ecbAt (f : List Byte → Block → Block) (w : Machine) (input key output : Nat) : Machine :=
  let m := blockCopyAt w.mem output input
  let roundKey := keyExpansion (load m key 16)
  { w with mem := inPlace (f roundKey) m output, roundKey := roundKey }

def ecbEncryptAt (w : Machine) (input key output : Nat) : Machine := ecbAt cipher w input key output

def ecbDecryptAt (w : Machine) (input key output : Nat) : Machine := ecbAt invCipher w input key output

/-! ## One block -/

@[simp] theorem readBlock_writeBlock (m : Nat → Byte) (p : Nat) (b : Block) :
    readBlock (writeBlock m p b) p = b := by
  ext i hi
  simp [readBlock, writeBlock, put_inside]

theorem writeBlock_outside (m : Nat → Byte) {p a : Nat} (b : Block) (h : a < p ∨ p + 16 ≤ a) :
    writeBlock m p b a = m a := put_outside m _ h

theorem readBlock_congr {m m' : Nat → Byte} {p : Nat} (h : ∀ a, p ≤ a → a < p + 16 → m a = m' a) :
    readBlock m p = readBlock m' p := by
  ext i hi
  simp [readBlock, h (p + i) (by omega) (by omega)]

theorem readBlock_writeBlock_of_apart (m : Nat → Byte) {p q : Nat} (b : Block) (h : q + 16 ≤ p ∨ p + 16 ≤ q) :
    readBlock (writeBlock m p b) q = readBlock m q := by
  apply readBlock_congr
  intro a _ _
  exact writeBlock_outside m b (by omega)

theorem writeBlock_readBlock (m : Nat → Byte) (p : Nat) : writeBlock m p (readBlock m p) = m := by
  funext a
  by_cases h : p ≤ a ∧ a < p + 16
  · obtain ⟨i, rfl⟩ : ∃ i, a = p + i := ⟨a - p, by omega⟩
    simp [writeBlock, put_inside, readBlock, show i < 16 by omega]
  · exact writeBlock_outside m _ (by omega)

theorem blockCopyAt_eq (m : Nat → Byte) {output input : Nat} (h : output ≤ input ∨ input + 16 ≤ output) :
    blockCopyAt m output input = writeBlock m output (readBlock m input) := by
  rw [blockCopyAt, fill_copy m h, writeBlock]
  funext a
  simp only [put]
  split
  · simp [readBlock, show a - output < 16 by omega]
  · rfl

theorem xorWithIvAt_eq (m : Nat → Byte) {buf iv : Nat} (h : buf ≤ iv ∨ iv + 16 ≤ buf) :
    xorWithIvAt m buf iv = writeBlock m buf (xorWithIv (readBlock m buf) (readBlock m iv)) := by
  rw [xorWithIvAt, fill_eq, writeBlock]
  · funext a
    simp only [put]
    split
    · simp [xorWithIv, readBlock, show a - buf < 16 by omega]
    · rfl
  · intro i hi
    rw [put_outside m _ (by omega), put_outside m _ (by omega)]

theorem blockCopy_load (m : Nat → Byte) (p n : Nat) : blockCopy (load m p (16 + n)) = readBlock m p := by
  ext i hi
  simp [blockCopy, readBlock, load, show i < 16 + n by omega]

theorem drop_load (m : Nat → Byte) (p n : Nat) : (load m p (16 + n)).drop 16 = load m (p + 16) n := by
  rw [load_add, List.drop_left' (length_load m p 16)]

theorem toList_readBlock (m : Nat → Byte) (p : Nat) : (readBlock m p).toList = load m p 16 := by
  rw [← blockCopy_load m p 0, toList_blockCopy _ (by simp), List.take_of_length_le (by simp)]

/-! ## One turn -/

/-- The static variables, with the block that `iv` points to. -/
def Machine.statics (w : Machine) : Statics where
  roundKey := w.roundKey
  iv := readBlock w.mem w.iv

theorem encryptBlockAt_outside (w : Machine) {output input a : Nat} (ho : a < output ∨ output + 16 ≤ a)
    (hi : a < input ∨ input + 16 ≤ a) : (encryptBlockAt w output input).mem a = w.mem a := by
  dsimp only [encryptBlockAt]
  rw [cipherAt, inPlace, writeBlock_outside _ _ ho, blockCopyAt, fill_outside _ _ ho, xorWithIvAt,
    fill_outside _ _ hi]

theorem decryptBlockAt_outside (w : Machine) {output a : Nat} (input : Nat)
    (ho : a < output ∨ output + 16 ≤ a) : (decryptBlockAt w output input).mem a = w.mem a := by
  dsimp only [decryptBlockAt]
  rw [xorWithIvAt, fill_outside _ _ ho, invCipherAt, inPlace, writeBlock_outside _ _ ho, blockCopyAt,
    fill_outside _ _ ho]

/-- The chained block that is encrypted. -/
def chained (w : Machine) (input : Nat) : Block := xorWithIv (readBlock w.mem input) (readBlock w.mem w.iv)

theorem encryptBlockAt_mem {w : Machine} {output input : Nat}
    (hbuffers : output ≤ input ∨ input + 16 ≤ output) (hiv : input ≤ w.iv ∨ w.iv + 16 ≤ input) :
    (encryptBlockAt w output input).mem =
      writeBlock (writeBlock (writeBlock w.mem input (chained w input)) output (chained w input)) output
        (cipher w.roundKey (chained w input)) := by
  dsimp only [encryptBlockAt]
  rw [xorWithIvAt_eq _ hiv, blockCopyAt_eq _ hbuffers, readBlock_writeBlock, cipherAt, inPlace,
    readBlock_writeBlock]
  rfl

theorem encryptBlockAt_statics {w : Machine} {output input : Nat}
    (hbuffers : output ≤ input ∨ input + 16 ≤ output) (hiv : input ≤ w.iv ∨ w.iv + 16 ≤ input) :
    (encryptBlockAt w output input).statics = ⟨w.roundKey, cipher w.roundKey (chained w input)⟩ := by
  have hblock :
      readBlock (encryptBlockAt w output input).mem output = cipher w.roundKey (chained w input) := by
    rw [encryptBlockAt_mem hbuffers hiv, readBlock_writeBlock]
  rw [← hblock]
  rfl

theorem decryptBlockAt_output {w : Machine} {output input : Nat}
    (hbuffers : output ≤ input ∨ input + 16 ≤ output) (hiv : w.iv + 16 ≤ output ∨ output + 16 ≤ w.iv) :
    readBlock (decryptBlockAt w output input).mem output =
      xorWithIv (invCipher w.roundKey (readBlock w.mem input)) (readBlock w.mem w.iv) := by
  dsimp only [decryptBlockAt]
  rw [blockCopyAt_eq _ hbuffers, invCipherAt, inPlace, readBlock_writeBlock, xorWithIvAt_eq _ (by omega),
    readBlock_writeBlock, readBlock_writeBlock, readBlock_writeBlock_of_apart _ _ hiv,
    readBlock_writeBlock_of_apart _ _ hiv]

/-! ## The loops -/

theorem encryptLoopAt_outside (n : Nat) (w : Machine) {output input a : Nat}
    (ho : a < output ∨ output + 16 * n ≤ a) (hi : a < input ∨ input + 16 * n ≤ a) :
    (encryptLoopAt n w output input).mem a = w.mem a := by
  induction n generalizing w output input with
  | zero => rfl
  | succ n ih =>
    rw [encryptLoopAt, ih _ (by omega) (by omega), encryptBlockAt_outside w (by omega) (by omega)]

theorem decryptLoopAt_outside (n : Nat) (w : Machine) {output a : Nat} (input : Nat)
    (ho : a < output ∨ output + 16 * n ≤ a) : (decryptLoopAt n w output input).mem a = w.mem a := by
  induction n generalizing w output input with
  | zero => rfl
  | succ n ih => rw [decryptLoopAt, ih _ _ (by omega), decryptBlockAt_outside w input (by omega)]

theorem encryptLoopAt_refines (n : Nat) (w : Machine) {output input : Nat}
    (hbuffers : output ≤ input ∨ input + 16 * n ≤ output) (hiv : input ≤ w.iv ∨ w.iv + 16 ≤ input) :
    encryptBlocks n w.statics (load w.mem input (16 * n)) =
      (load (encryptLoopAt n w output input).mem output (16 * n),
        (encryptLoopAt n w output input).statics) := by
  induction n generalizing w output input with
  | zero => rfl
  | succ n ih =>
    set v := encryptBlockAt w output input with hv
    have hstatics : v.statics = ⟨w.roundKey, cipher w.roundKey (chained w input)⟩ :=
      encryptBlockAt_statics (by omega) hiv
    have hinput : load v.mem (input + 16) (16 * n) = load w.mem (input + 16) (16 * n) :=
      load_congr fun a _ _ => encryptBlockAt_outside w (by omega) (by omega)
    have hnext := @ih v (output + 16) (input + 16) (by omega)
      (show input + 16 ≤ output ∨ output + 16 ≤ input + 16 by omega)
    have hkept :
        readBlock (encryptLoopAt n v (output + 16) (input + 16)).mem output = readBlock v.mem output :=
      readBlock_congr fun a _ _ => encryptLoopAt_outside n v (by omega) (by omega)
    have hblock : readBlock v.mem output = cipher w.roundKey (chained w input) := congrArg Statics.iv hstatics
    rw [hstatics, hinput] at hnext
    rw [show 16 * (n + 1) = 16 + 16 * n by omega, encryptLoopAt, ← hv, encryptBlocks, blockCopy_load,
      drop_load, load_add _ output, ← toList_readBlock, hkept, hblock]
    simp only [Machine.statics, chained] at hnext ⊢
    rw [hnext]

/-- Here no output block may meet its own input block, which is the vector for the block after it. -/
theorem decryptLoopAt_refines (n : Nat) (w : Machine) {output input : Nat}
    (hbuffers : output + 32 ≤ input ∨ input + 16 * n ≤ output)
    (hiv : w.iv + 16 ≤ output ∨ output + 16 ≤ w.iv) :
    decryptBlocks n w.statics (load w.mem input (16 * n)) =
      (load (decryptLoopAt n w output input).mem output (16 * n),
        (decryptLoopAt n w output input).statics) := by
  induction n generalizing w output input with
  | zero => rfl
  | succ n ih =>
    set v := decryptBlockAt w output input with hv
    have houtside : ∀ a, a < output ∨ output + 16 ≤ a → v.mem a = w.mem a :=
      fun a ha => decryptBlockAt_outside w input ha
    have hinput : load v.mem (input + 16) (16 * n) = load w.mem (input + 16) (16 * n) :=
      load_congr fun a _ _ => houtside a (by omega)
    have hvector : readBlock v.mem input = readBlock w.mem input :=
      readBlock_congr fun a _ _ => houtside a (by omega)
    have hstatics : v.statics = ⟨w.roundKey, readBlock w.mem input⟩ :=
      congrArg (Statics.mk w.roundKey) hvector
    have hnext := @ih v (output + 16) (input + 16) (by omega)
      (show input + 16 ≤ output + 16 ∨ output + 16 + 16 ≤ input by omega)
    have hkept :
        readBlock (decryptLoopAt n v (output + 16) (input + 16)).mem output = readBlock v.mem output :=
      readBlock_congr fun a _ _ => decryptLoopAt_outside n v _ (by omega)
    rw [hstatics, hinput] at hnext
    rw [show 16 * (n + 1) = 16 + 16 * n by omega, decryptLoopAt, ← hv, decryptBlocks, blockCopy_load,
      drop_load, load_add _ output, ← toList_readBlock, hkept, hv, decryptBlockAt_output (by omega) hiv, ← hv]
    simp only [Machine.statics] at hnext ⊢
    rw [hnext]

/-- The input keeps the chained blocks, not the plaintext. -/
theorem encryptLoopAt_input (n : Nat) (w : Machine) {output input : Nat}
    (hbuffers : output + 16 * n ≤ input ∨ input + 16 * n ≤ output)
    (hiv : input ≤ w.iv ∨ w.iv + 16 ≤ input) {i : Nat} (hi : i < n) :
    readBlock (encryptLoopAt n w output input).mem (input + 16 * i) =
      invCipher w.roundKey (readBlock (encryptLoopAt n w output input).mem (output + 16 * i)) := by
  induction n generalizing w output input i with
  | zero => exact absurd hi (Nat.not_lt_zero i)
  | succ n ih =>
    set v := encryptBlockAt w output input with hv
    have hmem := @encryptBlockAt_mem w output input (by omega) hiv
    rw [← hv] at hmem
    rw [encryptLoopAt, ← hv]
    cases i with
    | zero =>
      have hkept : ∀ p, p = input ∨ p = output →
          readBlock (encryptLoopAt n v (output + 16) (input + 16)).mem p = readBlock v.mem p :=
        fun p hp => readBlock_congr fun a _ _ => encryptLoopAt_outside n v (by omega) (by omega)
      simp only [Nat.mul_zero, Nat.add_zero]
      rw [hkept input (Or.inl rfl), hkept output (Or.inr rfl), hmem,
        readBlock_writeBlock, readBlock_writeBlock_of_apart _ _ (by omega),
        readBlock_writeBlock_of_apart _ _ (by omega), readBlock_writeBlock, invCipher_cipher]
    | succ i =>
      have hnext := @ih v (output + 16) (input + 16) (by omega)
        (show input + 16 ≤ output ∨ output + 16 ≤ input + 16 by omega) i (Nat.lt_of_succ_lt_succ hi)
      rw [Nat.mul_succ, Nat.add_comm (16 * i), ← Nat.add_assoc, ← Nat.add_assoc]
      exact hnext

/-! ## The two functions -/

/-- The 16 bytes that a pointer stands for. -/
def argument (m : Nat → Byte) (p : Nat) : Option (List Byte) := if p = 0 then none else some (load m p 16)

/-- The pointer that is in `Iv` when the loop starts. -/
def ivPointer (w : Machine) (iv : Nat) : Nat := if iv = 0 then w.iv else iv

theorem enter_mem (w : Machine) {output input a : Nat} (key iv : Nat)
    (h : output = input ∨ a < output ∨ output + 16 ≤ a) : (enter w output input key iv).mem a = w.mem a := by
  rcases h with rfl | h
  · simp only [enter, blockCopyAt_eq w.mem (Or.inl (Nat.le_refl output)), writeBlock_readBlock]
  · exact fill_outside _ _ h

theorem enter_statics (w : Machine) {output input key iv : Nat}
    (hkey : key = 0 ∨ output = input ∨ key + 16 ≤ output ∨ output + 16 ≤ key)
    (hiv : output = input ∨ ivPointer w iv + 16 ≤ output ∨ output + 16 ≤ ivPointer w iv) :
    (enter w output input key iv).statics = w.statics.load (argument w.mem key) (argument w.mem iv) := by
  have hvector :
      readBlock (enter w output input key iv).mem (ivPointer w iv) = readBlock w.mem (ivPointer w iv) :=
    readBlock_congr fun a _ _ => enter_mem w key iv (by omega)
  have hblock : readBlock w.mem (ivPointer w iv) =
      ((argument w.mem iv).map blockCopy).getD (readBlock w.mem w.iv) := by
    unfold ivPointer argument
    split
    · rfl
    · exact (blockCopy_load w.mem iv 0).symm
  have hschedule : (enter w output input key iv).roundKey =
      ((argument w.mem key).map keyExpansion).getD w.roundKey := by
    unfold argument
    split
    next hnull => exact if_pos hnull
    next hnull =>
      have hread : load (enter w output input key iv).mem key 16 = load w.mem key 16 :=
        load_congr fun a _ _ => enter_mem w key iv (by omega)
      rw [Option.map_some, Option.getD_some, ← hread]
      exact if_neg hnull
  rw [Machine.statics, Statics.load, hschedule, Machine.statics, ← hblock, ← hvector]
  rfl

theorem encryptBufferAt_blocks (w : Machine) (n output input key iv : Nat) :
    encryptBufferAt w output input (16 * n) key iv =
      encryptLoopAt n (enter w output input key iv) output input := by
  rw [encryptBufferAt, if_pos (Nat.mul_mod_right 16 n), show (16 * n + 15) / 16 = n by omega]

theorem decryptBufferAt_blocks (w : Machine) (n output input key iv : Nat) :
    decryptBufferAt w output input (16 * n) key iv =
      decryptLoopAt n (enter w output input key iv) output input := by
  rw [decryptBufferAt, if_pos (Nat.mul_mod_right 16 n), show (16 * n + 15) / 16 = n by omega]

/-- Where the four pointers of an encryption of `n` blocks may lie. It may be in place. -/
structure EncryptSafe (w : Machine) (n output input key iv : Nat) : Prop where
  buffers : output = input ∨ output + 16 ≤ input ∨ input + 16 * n ≤ output
  keyApart : key = 0 ∨ output = input ∨ key + 16 ≤ output ∨ output + 16 ≤ key
  ivApart : output = input ∨ ivPointer w iv + 16 ≤ output ∨ output + 16 ≤ ivPointer w iv
  ivInput : input ≤ ivPointer w iv ∨ ivPointer w iv + 16 ≤ input

theorem encryptBufferAt_refines {w : Machine} {n output input key iv : Nat}
    (h : EncryptSafe w n output input key iv) :
    encryptCall w.statics (load w.mem input (16 * n)) (16 * n) (argument w.mem key) (argument w.mem iv) =
      (load (encryptBufferAt w output input (16 * n) key iv).mem output (16 * n),
        (encryptBufferAt w output input (16 * n) key iv).statics) := by
  have hbuffers := h.buffers
  have hinput : load (enter w output input key iv).mem input (16 * n) = load w.mem input (16 * n) :=
    load_congr fun a _ _ => enter_mem w key iv (by omega)
  rw [encryptCall, Nat.mul_div_cancel_left n (by omega), ← enter_statics w h.keyApart h.ivApart, ← hinput,
    encryptBufferAt_blocks]
  exact encryptLoopAt_refines n _ (by omega) h.ivInput

/-- Not in place: the vector for a block is the ciphertext before it, which must still be there. -/
structure DecryptSafe (w : Machine) (n output input key iv : Nat) : Prop where
  buffers : output + 32 ≤ input ∨ input + 16 * n ≤ output
  keyApart : key = 0 ∨ key + 16 ≤ output ∨ output + 16 ≤ key
  ivApart : ivPointer w iv + 16 ≤ output ∨ output + 16 ≤ ivPointer w iv

theorem decryptBufferAt_refines {w : Machine} {n output input key iv : Nat}
    (h : DecryptSafe w n output input key iv) :
    decryptCall w.statics (load w.mem input (16 * n)) (16 * n) (argument w.mem key) (argument w.mem iv) =
      (load (decryptBufferAt w output input (16 * n) key iv).mem output (16 * n),
        (decryptBufferAt w output input (16 * n) key iv).statics) := by
  have hbuffers := h.buffers
  have hinput : load (enter w output input key iv).mem input (16 * n) = load w.mem input (16 * n) :=
    load_congr fun a _ _ => enter_mem w key iv (by omega)
  rw [decryptCall, Nat.mul_div_cancel_left n (by omega),
    ← enter_statics w (h.keyApart.imp_right Or.inr) (Or.inr h.ivApart), ← hinput, decryptBufferAt_blocks]
  exact decryptLoopAt_refines n _ hbuffers h.ivApart

/-! ## Whole blocks -/

theorem encryptLoopAt_roundKey (n : Nat) (w : Machine) (output input : Nat) :
    (encryptLoopAt n w output input).roundKey = w.roundKey := by
  induction n generalizing w output input with
  | zero => rfl
  | succ n ih => exact ih (encryptBlockAt w output input) (output + 16) (input + 16)

/-- The call in memory is the one on lists, and it writes to its two buffers only. The input is spoilt. -/
theorem encrypt_in_memory {w : Machine} {n output input key iv : Nat}
    (h : EncryptSafe w n output input key iv) (hn : 0 < n) :
    let w' := encryptBufferAt w output input (16 * n) key iv
    encryptCall w.statics (load w.mem input (16 * n)) (16 * n) (argument w.mem key) (argument w.mem iv) =
        (load w'.mem output (16 * n), w'.statics) ∧
      (∀ a, a < output ∨ output + 16 * n ≤ a → a < input ∨ input + 16 * n ≤ a → w'.mem a = w.mem a) ∧
      (output + 16 * n ≤ input ∨ input + 16 * n ≤ output → ∀ i < n,
        readBlock w'.mem (input + 16 * i) = invCipher w'.roundKey (readBlock w'.mem (output + 16 * i))) := by
  refine ⟨encryptBufferAt_refines h, ?_, ?_⟩
  · intro a ho hi
    rw [encryptBufferAt_blocks, encryptLoopAt_outside n _ ho hi, enter_mem w key iv (by omega)]
  · intro hbuffers i hi
    rw [encryptBufferAt_blocks, encryptLoopAt_roundKey]
    exact encryptLoopAt_input n _ hbuffers h.ivInput hi

theorem decrypt_in_memory {w : Machine} {n output input key iv : Nat}
    (h : DecryptSafe w n output input key iv) (hn : 0 < n) :
    let w' := decryptBufferAt w output input (16 * n) key iv
    decryptCall w.statics (load w.mem input (16 * n)) (16 * n) (argument w.mem key) (argument w.mem iv) =
        (load w'.mem output (16 * n), w'.statics) ∧
      ∀ a, a < output ∨ output + 16 * n ≤ a → w'.mem a = w.mem a := by
  refine ⟨decryptBufferAt_refines h, ?_⟩
  intro a ho
  rw [decryptBufferAt_blocks, decryptLoopAt_outside n _ _ ho, enter_mem w key iv (by omega)]

/-- Some memory, for the examples of calls. -/
def counting : Machine := ⟨fun a => BitVec.ofNat 8 a, [], 0⟩

theorem encrypt_in_memory_counting :
    let w' := encryptBufferAt counting 256 64 (16 * 3) 16 32
    encryptCall counting.statics (load counting.mem 64 (16 * 3)) (16 * 3) (argument counting.mem 16)
        (argument counting.mem 32) = (load w'.mem 256 (16 * 3), w'.statics) ∧
      (∀ a, a < 256 ∨ 256 + 16 * 3 ≤ a → a < 64 ∨ 64 + 16 * 3 ≤ a → w'.mem a = counting.mem a) ∧
      (256 + 16 * 3 ≤ 64 ∨ 64 + 16 * 3 ≤ 256 → ∀ i < 3,
        readBlock w'.mem (64 + 16 * i) = invCipher w'.roundKey (readBlock w'.mem (256 + 16 * i))) :=
  encrypt_in_memory ⟨by decide, by decide, by decide, by decide⟩ (by decide)

theorem decrypt_in_memory_counting :
    let w' := decryptBufferAt counting 256 64 (16 * 3) 16 32
    decryptCall counting.statics (load counting.mem 64 (16 * 3)) (16 * 3) (argument counting.mem 16)
        (argument counting.mem 32) = (load w'.mem 256 (16 * 3), w'.statics) ∧
      ∀ a, a < 256 ∨ 256 + 16 * 3 ≤ a → w'.mem a = counting.mem a :=
  decrypt_in_memory ⟨by decide, by decide, by decide⟩ (by decide)

/-! ## A length with a remainder -/

/-- The first `r` bytes of the block, then zeros. -/
def padBlock (r : Nat) (b : Block) : Block := Vector.ofFn fun k => if k.val < r then b.get k else 0

theorem getElem_padBlock {r i : Nat} (b : Block) (hi : i < 16) :
    (padBlock r b)[i] = if i < r then b[i] else 0 := by
  rw [padBlock, Vector.getElem_ofFn]
  rfl

theorem remainder_outside (f : List Byte → Block → Block) (w : Machine) {output input r a : Nat} (hr : r ≤ 16)
    (ho : a < output ∨ output + 16 ≤ a) : (remainder f w output input r).mem a = w.mem a := by
  dsimp only [remainder, inPlace]
  rw [writeBlock_outside _ _ ho, fill_outside _ _ (by omega), blockCopyAt, fill_outside _ _ ho]

theorem remainder_output (f : List Byte → Block → Block) (w : Machine) {output input r : Nat} (hr : r ≤ 16)
    (hbuffers : output ≤ input ∨ input + 16 ≤ output) :
    readBlock (remainder f w output input r).mem output =
      f w.roundKey (padBlock r (readBlock w.mem input)) := by
  dsimp only [remainder, inPlace]
  rw [readBlock_writeBlock, blockCopyAt_eq _ hbuffers, fill_eq fun _ _ => rfl]
  refine congrArg (f w.roundKey) (Vector.ext fun i hi => ?_)
  have hcopied := Vector.ext_iff.mp (readBlock_writeBlock w.mem output (readBlock w.mem input)) i hi
  rw [getElem_padBlock]
  simp only [readBlock, Vector.getElem_ofFn] at hcopied ⊢
  split
  next hlt =>
    rw [put_outside _ _ (by omega), hcopied]
  next hge =>
    rw [show output + i = output + r + (i - r) by omega, put_inside _ _ (by omega)]

/-- The added block stands behind the blocks of the loop. -/
theorem load_remainder (f : List Byte → Block → Block) (w : Machine) {output input r : Nat} (k : Nat)
    (hr : r ≤ 16) (hbuffers : output ≤ input ∨ input + 16 ≤ output) :
    load (remainder f w (output + 16 * k) (input + 16 * k) r).mem output (16 * (k + 1)) =
      load w.mem output (16 * k) ++
        (f w.roundKey (padBlock r (readBlock w.mem (input + 16 * k)))).toList := by
  have hfirst : load (remainder f w (output + 16 * k) (input + 16 * k) r).mem output (16 * k) =
      load w.mem output (16 * k) := load_congr fun a _ _ => remainder_outside f w hr (by omega)
  rw [show 16 * (k + 1) = 16 * k + 16 by omega, load_add, hfirst, ← toList_readBlock,
    remainder_output f w hr (by omega)]

theorem encryptBufferAt_remainder (w : Machine) (n output input key iv : Nat) {r : Nat} (h0 : 0 < r)
    (hr : r < 16) : encryptBufferAt w output input (16 * n + r) key iv =
      remainder cipher (encryptLoopAt (n + 1) (enter w output input key iv) output input)
        (output + 16 * (n + 1)) (input + 16 * (n + 1)) r := by
  rw [encryptBufferAt, if_neg (by omega), show (16 * n + r + 15) / 16 = n + 1 by omega,
    show (16 * n + r) % 16 = r by omega]

/-- The loop has taken one block too many, and the added block starts behind it. -/
theorem encrypt_remainder {w : Machine} {n output input key iv r : Nat}
    (h : EncryptSafe w (n + 2) output input key iv) (h0 : 0 < r) (hr : r < 16) :
    load (encryptBufferAt w output input (16 * n + r) key iv).mem output (16 * (n + 2)) =
      let whole := encryptCall w.statics (load w.mem input (16 * (n + 1))) (16 * (n + 1))
        (argument w.mem key) (argument w.mem iv)
      whole.1 ++ (cipher whole.2.roundKey (padBlock r (readBlock w.mem (input + 16 * (n + 1))))).toList := by
  have hbuffers := h.buffers
  have hsafe : EncryptSafe w (n + 1) output input key iv := ⟨by omega, h.keyApart, h.ivApart, h.ivInput⟩
  have hwhole := encryptBufferAt_refines hsafe
  rw [encryptBufferAt_blocks] at hwhole
  set v := encryptLoopAt (n + 1) (enter w output input key iv) output input with hv
  have hlast : readBlock v.mem (input + 16 * (n + 1)) = readBlock w.mem (input + 16 * (n + 1)) := by
    apply readBlock_congr
    intro a _ _
    rw [hv, encryptLoopAt_outside _ _ (by omega) (by omega), enter_mem w key iv (by omega)]
  rw [encryptBufferAt_remainder w n output input key iv h0 hr, ← hv,
    load_remainder cipher v (n + 1) hr.le (by omega), hlast, hwhole]
  rfl

theorem encrypt_remainder_counting :
    load (encryptBufferAt counting 256 64 21 16 32).mem 256 48 =
      let whole := encryptCall counting.statics (load counting.mem 64 32) 32 (argument counting.mem 16)
        (argument counting.mem 32)
      whole.1 ++ (cipher whole.2.roundKey (padBlock 5 (readBlock counting.mem 96))).toList :=
  @encrypt_remainder counting 1 256 64 16 32 5 ⟨by decide, by decide, by decide, by decide⟩ (by decide)
    (by decide)

/-! ## There and back -/

/-- A block that does not meet the `n` bytes from `q` on. -/
def Clear (p q n : Nat) : Prop := p + 16 ≤ q ∨ q + n ≤ p

theorem encryptBufferAt_load {w : Machine} {length output input key iv : Nat}
    (h : EncryptSafe w ((length + 15) / 16) output input key iv) :
    load (encryptBufferAt w output input length key iv).mem output (16 * ((length + 15) / 16)) =
      (encryptCall w.statics (load w.mem input (16 * ((length + 15) / 16))) (16 * ((length + 15) / 16))
        (argument w.mem key) (argument w.mem iv)).1 := by
  rw [encryptBufferAt_refines h, encryptBufferAt_blocks, encryptBufferAt]
  split
  · rfl
  · exact load_congr fun a _ _ => remainder_outside cipher _ (by omega) (by omega)

theorem encryptBufferAt_outside (w : Machine) {length output input a : Nat} (key iv : Nat)
    (ho : a < output ∨ output + 16 * ((length + 15) / 16 + 1) ≤ a)
    (hi : a < input ∨ input + 16 * ((length + 15) / 16) ≤ a) :
    (encryptBufferAt w output input length key iv).mem a = w.mem a := by
  have hloop :
      (encryptLoopAt ((length + 15) / 16) (enter w output input key iv) output input).mem a = w.mem a := by
    rw [encryptLoopAt_outside _ _ (by omega) hi, enter_mem w key iv (by omega)]
  rw [encryptBufferAt]
  split
  · exact hloop
  · rw [remainder_outside cipher _ (by omega) (by omega), hloop]

theorem decryptBufferAt_load {w : Machine} {length output input key iv : Nat}
    (h : DecryptSafe w ((length + 15) / 16) output input key iv) :
    load (decryptBufferAt w output input length key iv).mem output (16 * ((length + 15) / 16)) =
      (decryptCall w.statics (load w.mem input (16 * ((length + 15) / 16))) (16 * ((length + 15) / 16))
        (argument w.mem key) (argument w.mem iv)).1 := by
  rw [decryptBufferAt_refines h, decryptBufferAt_blocks, decryptBufferAt]
  split
  · rfl
  · exact load_congr fun a _ _ => remainder_outside invCipher _ (by omega) (by omega)

/-- Any length comes back, also one with a remainder. -/
theorem round_trip_in_memory (w : Machine) {a b c key iv length : Nat} (hkey : key ≠ 0) (hiv : iv ≠ 0)
    (hab : a + 16 * ((length + 15) / 16) ≤ b ∨ b + 16 * ((length + 15) / 16 + 1) ≤ a)
    (hbc : b + 16 * ((length + 15) / 16) ≤ c ∨ c + 16 * ((length + 15) / 16 + 1) ≤ b)
    (hka : Clear key a (16 * ((length + 15) / 16))) (hkb : Clear key b (16 * ((length + 15) / 16 + 1)))
    (hkc : Clear key c 16) (hva : Clear iv a (16 * ((length + 15) / 16)))
    (hvb : Clear iv b (16 * ((length + 15) / 16 + 1))) (hvc : Clear iv c 16) :
    load (decryptBufferAt (encryptBufferAt w b a length key iv) c b length key iv).mem c length =
      load w.mem a length := by
  have hlength : length ≤ 16 * ((length + 15) / 16) := by omega
  rcases Nat.eq_zero_or_pos length with rfl | hpos
  · rfl
  unfold Clear at hka hkb hkc hva hvb hvc
  have hkept : ∀ p, p = key ∨ p = iv →
      argument (encryptBufferAt w b a length key iv).mem p = some (load w.mem p 16) := by
    rintro p hp
    rw [argument, if_neg (by omega)]
    congr 1
    apply load_congr
    intro x _ _
    exact encryptBufferAt_outside w key iv (by omega) (by omega)
  have hpointer : ∀ v : Machine, ivPointer v iv = iv := fun v => if_neg hiv
  have hencrypt : EncryptSafe w ((length + 15) / 16) b a key iv :=
    ⟨by omega, by omega, by rw [hpointer]; omega, by rw [hpointer]; omega⟩
  have hdecrypt : DecryptSafe (encryptBufferAt w b a length key iv) ((length + 15) / 16) c b key iv :=
    ⟨by omega, by omega, by rw [hpointer]; omega⟩
  have hthere := encryptBufferAt_load hencrypt
  have hback := decryptBufferAt_load hdecrypt
  rw [argument, if_neg hkey, argument, if_neg hiv, encryptCall_fst] at hthere
  rw [hkept key (Or.inl rfl), hkept iv (Or.inr rfl), decryptCall_fst, hthere,
    decryptBuffer_encryptBuffer _ _ _ _ (by rw [length_load]), take_load _ _ (Nat.le_refl _)] at hback
  rw [← take_load _ c hlength, hback, take_load _ a hlength]

theorem round_trip_in_memory_counting :
    load (decryptBufferAt (encryptBufferAt counting 256 64 40 16 32) 512 256 40 16 32).mem 512 40 =
      load counting.mem 64 40 :=
  round_trip_in_memory counting (by decide) (by decide) (by decide) (by decide) (Or.inl (by decide))
    (Or.inl (by decide)) (Or.inl (by decide)) (Or.inl (by decide)) (Or.inl (by decide)) (Or.inl (by decide))

/-! ## Single blocks -/

theorem ecbAt_outside (f : List Byte → Block → Block) (w : Machine) {output a : Nat} (input key : Nat)
    (ho : a < output ∨ output + 16 ≤ a) : (ecbAt f w input key output).mem a = w.mem a := by
  dsimp only [ecbAt, inPlace]
  rw [writeBlock_outside _ _ ho, blockCopyAt, fill_outside _ _ ho]

theorem ecbAt_output (f : List Byte → Block → Block) (w : Machine) {input key output : Nat}
    (hbuffers : output ≤ input ∨ input + 16 ≤ output) (hkey : key + 16 ≤ output ∨ output + 16 ≤ key) :
    readBlock (ecbAt f w input key output).mem output =
      f (keyExpansion (load w.mem key 16)) (readBlock w.mem input) := by
  have hread : load (blockCopyAt w.mem output input) key 16 = load w.mem key 16 :=
    load_congr fun a _ _ => fill_outside _ _ (by omega)
  dsimp only [ecbAt, inPlace]
  rw [readBlock_writeBlock, hread, blockCopyAt_eq _ hbuffers, readBlock_writeBlock]

/-- A block that goes through a function and then through its inverse. -/
theorem ecbAt_ecbAt {f g : List Byte → Block → Block} (hinverse : ∀ roundKey s, g roundKey (f roundKey s) = s)
    (w : Machine) {a b c key : Nat} (hab : b ≤ a ∨ a + 16 ≤ b) (hbc : c ≤ b ∨ b + 16 ≤ c)
    (hb : Clear key b 16) (hc : Clear key c 16) :
    readBlock (ecbAt g (ecbAt f w a key b) b key c).mem c = readBlock w.mem a := by
  unfold Clear at hb hc
  have hkept : load (ecbAt f w a key b).mem key 16 = load w.mem key 16 :=
    load_congr fun x _ _ => ecbAt_outside f w a key (by omega)
  rw [ecbAt_output _ _ hbc (by omega), hkept, ecbAt_output _ _ hab (by omega), hinverse]

theorem ecb_round_trip (w : Machine) {a b c key : Nat} (hab : b ≤ a ∨ a + 16 ≤ b) (hbc : c ≤ b ∨ b + 16 ≤ c)
    (hb : Clear key b 16) (hc : Clear key c 16) :
    readBlock (ecbDecryptAt (ecbEncryptAt w a key b) b key c).mem c = readBlock w.mem a ∧
      readBlock (ecbEncryptAt (ecbDecryptAt w a key b) b key c).mem c = readBlock w.mem a :=
  ⟨ecbAt_ecbAt (fun roundKey s => invCipher_cipher roundKey s) w hab hbc hb hc,
    ecbAt_ecbAt (fun roundKey s => cipher_invCipher roundKey s) w hab hbc hb hc⟩

/-- In place, and then into another block. -/
theorem ecb_round_trip_counting :
    readBlock (ecbDecryptAt (ecbEncryptAt counting 64 16 64) 64 16 128).mem 128 = readBlock counting.mem 64 ∧
      readBlock (ecbEncryptAt (ecbDecryptAt counting 64 16 64) 64 16 128).mem 128 =
        readBlock counting.mem 64 :=
  ecb_round_trip counting (Or.inl (by decide)) (Or.inr (by decide)) (Or.inl (by decide)) (Or.inl (by decide))

end PasswordManager.Aes
