import Mathlib.Data.Finite.Prod
import Mathlib.Tactic.IntervalCases
import PasswordManager.Lib.Cbc
import PasswordManager.Aes.Cipher

/-!
# The two directions of the cipher undo each other

Each layer has its own inverse lemma, and this for every sequence of round keys.
-/

namespace PasswordManager.Aes

/-! ## The layers -/

instance : Finite Byte := Finite.of_injective BitVec.toFin fun _ _ => BitVec.eq_of_toFin_eq

/-- Between finite types of one size, undoing a map on one side is enough. -/
theorem rightInverse_of_leftInverse {α : Type*} [Finite α] {f g : α → α}
    (h : Function.LeftInverse g f) : Function.RightInverse g f :=
  h.rightInverse_of_surjective (Finite.surjective_of_injective h.injective)

theorem getSBoxInvert_getSBoxValue : ∀ b : Byte, getSBoxInvert (getSBoxValue b) = b := by
  decide +kernel

theorem getSBoxValue_getSBoxInvert (b : Byte) : getSBoxValue (getSBoxInvert b) = b :=
  rightInverse_of_leftInverse getSBoxInvert_getSBoxValue b

theorem invSubBytes_subBytes (s : Block) : invSubBytes (subBytes s) = s := by
  ext i hi
  simp [invSubBytes, subBytes, getSBoxInvert_getSBoxValue]

theorem subBytes_invSubBytes (s : Block) : subBytes (invSubBytes s) = s := by
  ext i hi
  simp [invSubBytes, subBytes, getSBoxValue_getSBoxInvert]

theorem invShiftRows_shiftRows (s : Block) : invShiftRows (shiftRows s) = s := by
  ext i hi
  interval_cases i <;> rfl

theorem shiftRows_invShiftRows (s : Block) : shiftRows (invShiftRows s) = s := by
  ext i hi
  interval_cases i <;> rfl

theorem addRoundKey_addRoundKey (roundKey : List Byte) (round : Nat) (s : Block) :
    addRoundKey roundKey round (addRoundKey roundKey round s) = s := by
  refine Vector.ext fun i hi => ?_
  simp only [addRoundKey, Vector.getElem_ofFn, Fin.getElem_fin, BitVec.xor_assoc, BitVec.xor_self,
    BitVec.xor_zero]

/-! ## The columns

Both column maps are linear over `xtime`, so their product is a sum of powers of `xtime`
in which all but one term cancel.
-/

theorem xtime_eq : ∀ x : Byte, xtime x = x <<< 1 ^^^ if x.getLsbD 7 then 0x1b else 0 := by
  decide +kernel

theorem xor_left_comm (x y z : Byte) : x ^^^ (y ^^^ z) = y ^^^ (x ^^^ z) := by ac_rfl

theorem xor_xor_self_left (x y : Byte) : x ^^^ (x ^^^ y) = y := by
  rw [← BitVec.xor_assoc, BitVec.xor_self, BitVec.zero_xor]

theorem xtime_xor (x y : Byte) : xtime (x ^^^ y) = xtime x ^^^ xtime y := by
  simp only [xtime_eq, BitVec.getLsbD_xor, BitVec.shiftLeft_xor_distrib]
  cases x.getLsbD 7 <;> cases y.getLsbD 7 <;>
    simp [BitVec.xor_assoc, BitVec.xor_comm, xor_left_comm]

theorem multiply_0e (x : Byte) :
    multiply x 0x0e = xtime x ^^^ xtime (xtime x) ^^^ xtime (xtime (xtime x)) := by
  simp [multiply]

theorem multiply_0b (x : Byte) :
    multiply x 0x0b = x ^^^ xtime x ^^^ xtime (xtime (xtime x)) := by
  simp [multiply]

theorem multiply_0d (x : Byte) :
    multiply x 0x0d = x ^^^ xtime (xtime x) ^^^ xtime (xtime (xtime x)) := by
  simp [multiply]

theorem multiply_09 (x : Byte) : multiply x 0x09 = x ^^^ xtime (xtime (xtime x)) := by
  simp [multiply]

def mixRow (a b c d : Byte) : Byte := xtime (a ^^^ b) ^^^ (b ^^^ c ^^^ d)

def invMixRow (a b c d : Byte) : Byte :=
  xtime (xtime (xtime (a ^^^ b ^^^ c ^^^ d))) ^^^ xtime (xtime (a ^^^ c)) ^^^ xtime (a ^^^ b) ^^^
    (b ^^^ c ^^^ d)

theorem mixColumn_eq (a b c d : Byte) :
    mixColumn a b c d = (mixRow a b c d, mixRow b c d a, mixRow c d a b, mixRow d a b c) := by
  simp only [mixColumn, mixByte, mixRow, Prod.mk.injEq]
  refine ⟨?_, ?_, ?_, ?_⟩ <;>
    simp only [BitVec.xor_assoc, BitVec.xor_comm, xor_left_comm, xor_xor_self_left]

theorem invMixColumn_eq (a b c d : Byte) :
    invMixColumn a b c d =
      (invMixRow a b c d, invMixRow b c d a, invMixRow c d a b, invMixRow d a b c) := by
  simp only [invMixColumn, multiply_0e, multiply_0b, multiply_0d, multiply_09, invMixRow,
    xtime_xor, Prod.mk.injEq]
  refine ⟨?_, ?_, ?_, ?_⟩ <;> ac_rfl

theorem invMixRow_mixRow (a b c d : Byte) :
    invMixRow (mixRow a b c d) (mixRow b c d a) (mixRow c d a b) (mixRow d a b c) = a := by
  have hall : mixRow a b c d ^^^ mixRow b c d a ^^^ mixRow c d a b ^^^ mixRow d a b c =
      a ^^^ b ^^^ c ^^^ d := by
    simp only [mixRow, xtime_xor, BitVec.xor_assoc, BitVec.xor_comm, xor_left_comm, xor_xor_self_left,
      BitVec.xor_self, BitVec.xor_zero]
  have hac : mixRow a b c d ^^^ mixRow c d a b = xtime (a ^^^ b ^^^ c ^^^ d) ^^^ (a ^^^ c) := by
    simp only [mixRow, xtime_xor, BitVec.xor_assoc, BitVec.xor_comm, xor_left_comm, xor_xor_self_left]
  have hab : mixRow a b c d ^^^ mixRow b c d a = xtime (a ^^^ c) ^^^ (a ^^^ b) := by
    simp only [mixRow, xtime_xor, BitVec.xor_assoc, BitVec.xor_comm, xor_left_comm, xor_xor_self_left]
  have hbcd : mixRow b c d a ^^^ mixRow c d a b ^^^ mixRow d a b c = xtime (a ^^^ b) ^^^ a := by
    simp only [mixRow, xtime_xor, BitVec.xor_assoc, BitVec.xor_comm, xor_left_comm, xor_xor_self_left,
      BitVec.xor_self, BitVec.zero_xor]
  rw [invMixRow, hall, hac, hab, hbcd]
  -- Each power of `xtime` now stands twice.
  simp only [xtime_xor (xtime _)]
  simp [BitVec.xor_comm, xor_left_comm]

instance : Finite Block :=
  Finite.of_injective (fun s (i : Fin 16) => s[i]) fun _ _ h =>
    Vector.ext fun i hi => congrFun h ⟨i, hi⟩

theorem invMixColumns_mixColumns (s : Block) : invMixColumns (mixColumns s) = s := by
  simp only [invMixColumns, mixColumns, onColumns, mixColumn_eq, invMixColumn_eq]
  ext i hi
  interval_cases i <;> simp [invMixRow_mixRow]

theorem mixColumns_invMixColumns (s : Block) : mixColumns (invMixColumns s) = s :=
  rightInverse_of_leftInverse invMixColumns_mixColumns s

/-! ## The whole cipher -/

theorem invRounds_rounds (roundKey : List Byte) (n : Nat) (s : Block) :
    invRounds roundKey n (shiftRows (subBytes (rounds roundKey n s))) = shiftRows (subBytes s) := by
  induction n with
  | zero => rfl
  | succ n ih =>
    rw [rounds, invRounds, invShiftRows_shiftRows, invSubBytes_subBytes, addRoundKey_addRoundKey,
      invMixColumns_mixColumns, ih]

theorem rounds_invRounds (roundKey : List Byte) (n : Nat) (s : Block) :
    rounds roundKey n (invSubBytes (invShiftRows (invRounds roundKey n s))) =
      invSubBytes (invShiftRows s) := by
  induction n generalizing s with
  | zero => rfl
  | succ n ih =>
    rw [invRounds, rounds, ih, subBytes_invSubBytes, shiftRows_invShiftRows,
      mixColumns_invMixColumns, addRoundKey_addRoundKey]

theorem invCipher_cipher (roundKey : List Byte) :
    Function.LeftInverse (invCipher roundKey) (cipher roundKey) := by
  intro s
  rw [cipher, invCipher, addRoundKey_addRoundKey, invRounds_rounds, invShiftRows_shiftRows,
    invSubBytes_subBytes, addRoundKey_addRoundKey]

theorem cipher_invCipher (roundKey : List Byte) :
    Function.RightInverse (invCipher roundKey) (cipher roundKey) := by
  intro s
  rw [cipher, invCipher, addRoundKey_addRoundKey, rounds_invRounds, subBytes_invSubBytes,
    shiftRows_invShiftRows, addRoundKey_addRoundKey]

/-! ## Buffers of blocks -/

/-- The first `n` blocks of a buffer. -/
def chunks : Nat → List Byte → List Block
  | 0, _ => []
  | n + 1, input => blockCopy input :: chunks n (input.drop 16)

def unchunks (bs : List Block) : List Byte := bs.flatMap Vector.toList

@[simp] theorem length_unchunks (bs : List Block) : (unchunks bs).length = 16 * bs.length := by
  induction bs with
  | nil => rfl
  | cons b bs ih => simp [unchunks] at ih ⊢; omega

@[simp] theorem length_chunks (n : Nat) (input : List Byte) : (chunks n input).length = n := by
  induction n generalizing input with
  | zero => rfl
  | succ n ih => simp [chunks, ih]

theorem blockCopy_append (b : Block) (l : List Byte) : blockCopy (b.toList ++ l) = b := by
  ext i hi
  simp [blockCopy, List.getD_eq_getElem?_getD, List.getElem?_append_left]

theorem toList_blockCopy (l : List Byte) (h : 16 ≤ l.length) : (blockCopy l).toList = l.take 16 := by
  apply List.ext_getElem
  · simp [h]
  · intro i hi _
    simp only [Vector.length_toList] at hi
    simp [blockCopy, List.getD_eq_getElem?_getD, List.getElem?_eq_getElem (by omega : i < l.length)]

theorem chunks_unchunks (bs : List Block) (l : List Byte) : chunks bs.length (unchunks bs ++ l) = bs := by
  induction bs with
  | nil => rfl
  | cons b bs ih =>
    simp only [unchunks, List.length_cons, chunks, List.flatMap_cons, List.append_assoc,
      blockCopy_append] at ih ⊢
    rw [List.drop_left' (by simp), ih]

theorem unchunks_chunks (n : Nat) (l : List Byte) (h : 16 * n ≤ l.length) :
    unchunks (chunks n l) = l.take (16 * n) := by
  induction n generalizing l with
  | zero => simp [unchunks, chunks]
  | succ n ih =>
    have hd := ih (l.drop 16) (by simp; omega)
    simp only [unchunks, chunks, List.flatMap_cons] at hd ⊢
    rw [hd, toList_blockCopy l (by omega), show 16 * (n + 1) = 16 + 16 * n by omega, List.take_add]

theorem chunks_append (n : Nat) (l rest : List Byte) (h : 16 * n ≤ l.length) :
    chunks n (l ++ rest) = chunks n l := by
  have hc := chunks_unchunks (chunks n l) (l.drop (16 * n) ++ rest)
  rwa [length_chunks, unchunks_chunks n l h, ← List.append_assoc, List.take_append_drop] at hc

theorem chunks_add (n k : Nat) (l : List Byte) :
    chunks (n + k) l = chunks n l ++ chunks k (l.drop (16 * n)) := by
  induction n generalizing l with
  | zero => simp [chunks]
  | succ n ih =>
    rw [Nat.succ_add, chunks, chunks, ih, List.drop_drop, List.cons_append, Nat.mul_succ, Nat.add_comm 16]

theorem unchunks_append (bs cs : List Block) : unchunks (bs ++ cs) = unchunks bs ++ unchunks cs :=
  List.flatMap_append

theorem encryptLoop_eq (roundKey : List Byte) (n : Nat) (iv : Block) (input : List Byte) :
    encryptLoop roundKey n iv input =
      unchunks (Cbc.encrypt xorWithIv (cipher roundKey) iv (chunks n input)) := by
  induction n generalizing iv input with
  | zero => rfl
  | succ n ih => simp [encryptLoop, chunks, Cbc.encrypt, unchunks, ih]

theorem decryptLoop_eq (roundKey : List Byte) (n : Nat) (iv : Block) (input : List Byte) :
    decryptLoop roundKey n iv input =
      unchunks (Cbc.decrypt xorWithIv (invCipher roundKey) iv (chunks n input)) := by
  induction n generalizing iv input with
  | zero => rfl
  | succ n ih => simp [decryptLoop, chunks, Cbc.decrypt, unchunks, ih]

theorem xorWithIv_xorWithIv (a b : Block) : xorWithIv (xorWithIv a b) b = a := by
  ext i hi
  simp [xorWithIv]

theorem decryptLoop_encryptLoop (roundKey : List Byte) (n : Nat) (iv : Block) (input : List Byte)
    (h : 16 * n ≤ input.length) :
    decryptLoop roundKey n iv (encryptLoop roundKey n iv input) = input.take (16 * n) := by
  have hc := chunks_unchunks (Cbc.encrypt xorWithIv (cipher roundKey) iv (chunks n input)) []
  rw [Cbc.length_encrypt, length_chunks, List.append_nil] at hc
  rw [decryptLoop_eq, encryptLoop_eq, hc,
    Cbc.decrypt_encrypt xorWithIv_xorWithIv (invCipher_cipher roundKey), unchunks_chunks n input h]

theorem encryptLoop_decryptLoop (roundKey : List Byte) (n : Nat) (iv : Block) (input : List Byte)
    (h : 16 * n ≤ input.length) :
    encryptLoop roundKey n iv (decryptLoop roundKey n iv input) = input.take (16 * n) := by
  have hc := chunks_unchunks (Cbc.decrypt xorWithIv (invCipher roundKey) iv (chunks n input)) []
  rw [Cbc.length_decrypt, length_chunks, List.append_nil] at hc
  rw [encryptLoop_eq, decryptLoop_eq, hc,
    Cbc.encrypt_decrypt xorWithIv_xorWithIv (cipher_invCipher roundKey), unchunks_chunks n input h]

/-! ## The two buffer functions -/

theorem length_aes128CbcEncryptBuffer (input : List Byte) (length : Nat) (key iv : List Byte) :
    (aes128CbcEncryptBuffer input length key iv).length = 16 * (length / 16) := by
  simp [aes128CbcEncryptBuffer, encryptLoop_eq]

theorem length_aes128CbcDecryptBuffer (input : List Byte) (length : Nat) (key iv : List Byte) :
    (aes128CbcDecryptBuffer input length key iv).length = 16 * (length / 16) := by
  simp [aes128CbcDecryptBuffer, decryptLoop_eq]

theorem decryptBuffer_append (input rest key iv : List Byte) (n : Nat) (h : 16 * n ≤ input.length) :
    aes128CbcDecryptBuffer (input ++ rest) (16 * n) key iv =
      aes128CbcDecryptBuffer input (16 * n) key iv := by
  simp only [aes128CbcDecryptBuffer, Nat.mul_div_cancel_left n (by omega : 0 < 16), decryptLoop_eq,
    chunks_append n input rest h]

/-- Behind a block of the buffer, only that block counts. -/
theorem decryptBuffer_behind (input key iv : List Byte) (n k : Nat) :
    aes128CbcDecryptBuffer input (16 * (n + 1 + k)) key iv =
      aes128CbcDecryptBuffer input (16 * (n + 1)) key iv ++
        decryptLoop (keyExpansion key) k (blockCopy (input.drop (16 * n))) (input.drop (16 * (n + 1))) := by
  have hlast : chunks 1 (input.drop (16 * n)) = [blockCopy (input.drop (16 * n))] := rfl
  simp only [aes128CbcDecryptBuffer, Nat.mul_div_cancel_left _ (by omega : 0 < 16), decryptLoop_eq,
    ← unchunks_append]
  rw [chunks_add (n + 1) k, chunks_add n 1, hlast, List.append_assoc, List.singleton_append,
    Cbc.decrypt_behind]

theorem decryptBuffer_encryptBuffer (input key iv : List Byte) (n : Nat)
    (h : 16 * n ≤ input.length) :
    aes128CbcDecryptBuffer (aes128CbcEncryptBuffer input (16 * n) key iv) (16 * n) key iv =
      input.take (16 * n) := by
  simp only [aes128CbcDecryptBuffer, aes128CbcEncryptBuffer, Nat.mul_div_cancel_left n (by omega : 0 < 16)]
  exact decryptLoop_encryptLoop _ n _ input h

theorem encryptBuffer_decryptBuffer (input key iv : List Byte) (n : Nat)
    (h : 16 * n ≤ input.length) :
    aes128CbcEncryptBuffer (aes128CbcDecryptBuffer input (16 * n) key iv) (16 * n) key iv =
      input.take (16 * n) := by
  simp only [aes128CbcDecryptBuffer, aes128CbcEncryptBuffer, Nat.mul_div_cancel_left n (by omega : 0 < 16)]
  exact encryptLoop_decryptLoop _ n _ input h

end PasswordManager.Aes
