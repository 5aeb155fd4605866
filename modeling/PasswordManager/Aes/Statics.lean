import PasswordManager.Aes.Cipher

/-!
# The static variables of `aes.c`

`RoundKey` and `Iv` live from one call to the next, and a null pointer for the key or for the
initial vector leaves them as they are. No caller passes a null pointer.
-/

namespace PasswordManager.Aes

structure Statics where
  roundKey : List Byte
  /-- The block that `Iv` points to. -/
  iv : Block

/-- The start of both buffer functions. A null pointer is `none`. -/
def Statics.load (st : Statics) (key iv : Option (List Byte)) : Statics where
  roundKey := (key.map keyExpansion).getD st.roundKey
  iv := (iv.map blockCopy).getD st.iv

def encryptBlocks : Nat → Statics → List Byte → List Byte × Statics
  | 0, st, _ => ([], st)
  | n + 1, st, input =>
    let output := cipher st.roundKey (xorWithIv (blockCopy input) st.iv)
    let (rest, st) := encryptBlocks n { st with iv := output } (input.drop 16)
    (output.toList ++ rest, st)

def decryptBlocks : Nat → Statics → List Byte → List Byte × Statics
  | 0, st, _ => ([], st)
  | n + 1, st, input =>
    let output := xorWithIv (invCipher st.roundKey (blockCopy input)) st.iv
    let (rest, st) := decryptBlocks n { st with iv := blockCopy input } (input.drop 16)
    (output.toList ++ rest, st)

def encryptCall (st : Statics) (input : List Byte) (length : Nat) (key iv : Option (List Byte)) :
    List Byte × Statics :=
  encryptBlocks (length / 16) (st.load key iv) input

def decryptCall (st : Statics) (input : List Byte) (length : Nat) (key iv : Option (List Byte)) :
    List Byte × Statics :=
  decryptBlocks (length / 16) (st.load key iv) input

theorem encryptBlocks_fst (n : Nat) (st : Statics) (input : List Byte) :
    (encryptBlocks n st input).1 = encryptLoop st.roundKey n st.iv input := by
  induction n generalizing st input with
  | zero => rfl
  | succ n ih => simp only [encryptBlocks, encryptLoop, ih]

theorem decryptBlocks_fst (n : Nat) (st : Statics) (input : List Byte) :
    (decryptBlocks n st input).1 = decryptLoop st.roundKey n st.iv input := by
  induction n generalizing st input with
  | zero => rfl
  | succ n ih => simp only [decryptBlocks, decryptLoop, ih]

/-- What an earlier call has left behind does not matter to a call with a key and a vector. -/
theorem encryptCall_fst (st : Statics) (input : List Byte) (length : Nat) (key iv : List Byte) :
    (encryptCall st input length (some key) (some iv)).1 = aes128CbcEncryptBuffer input length key iv := by
  unfold encryptCall aes128CbcEncryptBuffer
  exact encryptBlocks_fst _ _ _

theorem decryptCall_fst (st : Statics) (input : List Byte) (length : Nat) (key iv : List Byte) :
    (decryptCall st input length (some key) (some iv)).1 = aes128CbcDecryptBuffer input length key iv := by
  unfold decryptCall aes128CbcDecryptBuffer
  exact decryptBlocks_fst _ _ _

/-! ## Calls that go on where the last one stopped -/

/-- Both loops: each turn changes the static variables and puts out one block. -/
def turnBlocks (turn : Statics → List Byte → Block × Statics) :
    Nat → Statics → List Byte → List Byte × Statics
  | 0, st, _ => ([], st)
  | n + 1, st, input =>
    let rest := turnBlocks turn n (turn st input).2 (input.drop 16)
    ((turn st input).1.toList ++ rest.1, rest.2)

def encryptTurn (st : Statics) (input : List Byte) : Block × Statics :=
  let output := cipher st.roundKey (xorWithIv (blockCopy input) st.iv)
  (output, { st with iv := output })

def decryptTurn (st : Statics) (input : List Byte) : Block × Statics :=
  (xorWithIv (invCipher st.roundKey (blockCopy input)) st.iv, { st with iv := blockCopy input })

theorem encryptBlocks_eq (n : Nat) (st : Statics) (input : List Byte) :
    encryptBlocks n st input = turnBlocks encryptTurn n st input := by
  induction n generalizing st input with
  | zero => rfl
  | succ n ih => simp only [encryptBlocks, turnBlocks, encryptTurn, ih]

theorem decryptBlocks_eq (n : Nat) (st : Statics) (input : List Byte) :
    decryptBlocks n st input = turnBlocks decryptTurn n st input := by
  induction n generalizing st input with
  | zero => rfl
  | succ n ih => simp only [decryptBlocks, turnBlocks, decryptTurn, ih]

section
variable {turn : Statics → List Byte → Block × Statics}

theorem turnBlocks_add (n k : Nat) (st : Statics) (input : List Byte) :
    turnBlocks turn (n + k) st input =
      let first := turnBlocks turn n st input
      let rest := turnBlocks turn k first.2 (input.drop (16 * n))
      (first.1 ++ rest.1, rest.2) := by
  induction n generalizing st input with
  | zero => simp [turnBlocks]
  | succ n ih =>
    rw [Nat.succ_add, turnBlocks, turnBlocks, ih]
    simp only [List.append_assoc, List.drop_drop, Nat.mul_succ, Nat.add_comm 16]

variable (hturn : ∀ st input rest, 16 ≤ input.length → turn st (input ++ rest) = turn st input)
include hturn

theorem turnBlocks_append (n : Nat) (st : Statics) (input rest : List Byte) (h : 16 * n ≤ input.length) :
    turnBlocks turn n st (input ++ rest) = turnBlocks turn n st input := by
  induction n generalizing st input with
  | zero => rfl
  | succ n ih =>
    rw [turnBlocks, turnBlocks, hturn st input rest (by omega), List.drop_append_of_le_length (by omega),
      ih _ _ (by rw [List.length_drop]; omega)]

theorem turnBlocks_flatten (n : Nat) (st : Statics) {first rest : List Byte}
    (hfirst : first.length = 16 * n) :
    turnBlocks turn ((first ++ rest).length / 16) st (first ++ rest) =
      let output := turnBlocks turn n st first
      let rest := turnBlocks turn (rest.length / 16) output.2 rest
      (output.1 ++ rest.1, rest.2) := by
  rw [List.length_append, hfirst, Nat.mul_add_div (by omega), turnBlocks_add,
    turnBlocks_append hturn _ _ _ _ (by omega), List.drop_left' hfirst]

end

/-- The calls after the first one, all with two null pointers. -/
def callPieces
    (call : Statics → List Byte → Nat → Option (List Byte) → Option (List Byte) → List Byte × Statics) :
    Statics → List (List Byte) → List Byte
  | _, [] => []
  | st, piece :: pieces =>
    let output := call st piece piece.length none none
    output.1 ++ callPieces call output.2 pieces

theorem callPieces_eq
    {call : Statics → List Byte → Nat → Option (List Byte) → Option (List Byte) → List Byte × Statics}
    {turn : Statics → List Byte → Block × Statics}
    (hcall : ∀ st input length key iv,
      call st input length key iv = turnBlocks turn (length / 16) (st.load key iv) input)
    (hturn : ∀ st input rest, 16 ≤ input.length → turn st (input ++ rest) = turn st input)
    (st : Statics) {pieces : List (List Byte)} (h : ∀ piece ∈ pieces, 16 ∣ piece.length) :
    callPieces call st pieces = (turnBlocks turn (pieces.flatten.length / 16) st pieces.flatten).1 := by
  induction pieces generalizing st with
  | nil => rfl
  | cons piece pieces ih =>
    obtain ⟨n, hn⟩ := h piece List.mem_cons_self
    have hrest := fun st => ih st fun p hp => h p (List.mem_cons_of_mem _ hp)
    rw [callPieces, hrest, hcall, hn, Nat.mul_div_cancel_left n (by omega), List.flatten_cons,
      turnBlocks_flatten hturn n st hn]
    rfl

theorem blockCopy_append_of_le {input : List Byte} (rest : List Byte) (h : 16 ≤ input.length) :
    blockCopy (input ++ rest) = blockCopy input := by
  ext i hi
  simp [blockCopy, List.getElem?_append_left (show i < input.length by omega)]

/-- Cut into whole blocks, a buffer is encrypted and decrypted as in one call. -/
theorem calls_in_pieces (st : Statics) {first : List Byte} {pieces : List (List Byte)} (key iv : List Byte)
    (hfirst : 16 ∣ first.length) (h : ∀ piece ∈ pieces, 16 ∣ piece.length) :
    let whole := first ++ pieces.flatten
    let e := encryptCall st first first.length (some key) (some iv)
    let d := decryptCall st first first.length (some key) (some iv)
    e.1 ++ callPieces encryptCall e.2 pieces = aes128CbcEncryptBuffer whole whole.length key iv ∧
      d.1 ++ callPieces decryptCall d.2 pieces = aes128CbcDecryptBuffer whole whole.length key iv := by
  obtain ⟨n, hn⟩ := hfirst
  have hencrypt : ∀ st input length key iv,
      encryptCall st input length key iv = turnBlocks encryptTurn (length / 16) (st.load key iv) input :=
    fun _ _ _ _ _ => encryptBlocks_eq _ _ _
  have hdecrypt : ∀ st input length key iv,
      decryptCall st input length key iv = turnBlocks decryptTurn (length / 16) (st.load key iv) input :=
    fun _ _ _ _ _ => decryptBlocks_eq _ _ _
  have hencryptTurn : ∀ st (input rest : List Byte), 16 ≤ input.length →
      encryptTurn st (input ++ rest) = encryptTurn st input := by
    intro st input rest hlength
    rw [encryptTurn, encryptTurn, blockCopy_append_of_le rest hlength]
  have hdecryptTurn : ∀ st (input rest : List Byte), 16 ≤ input.length →
      decryptTurn st (input ++ rest) = decryptTurn st input := by
    intro st input rest hlength
    rw [decryptTurn, decryptTurn, blockCopy_append_of_le rest hlength]
  dsimp only
  constructor
  · rw [← encryptCall_fst st, callPieces_eq hencrypt hencryptTurn _ h, hencrypt, hencrypt,
      turnBlocks_flatten hencryptTurn n _ hn, hn, Nat.mul_div_cancel_left n (by omega)]
  · rw [← decryptCall_fst st, callPieces_eq hdecrypt hdecryptTurn _ h, hdecrypt, hdecrypt,
      turnBlocks_flatten hdecryptTurn n _ hn, hn, Nat.mul_div_cancel_left n (by omega)]

theorem calls_in_pieces_four :
    let key := (List.range 16).map (BitVec.ofNat 8)
    let iv := List.replicate 16 0xA5
    let first := (List.range 16).map (BitVec.ofNat 8)
    let pieces := [(List.range 32).map (BitVec.ofNat 8), [], List.replicate 16 0x42]
    let whole := first ++ pieces.flatten
    let e := encryptCall ⟨[], blockCopy []⟩ first first.length (some key) (some iv)
    let d := decryptCall ⟨[], blockCopy []⟩ first first.length (some key) (some iv)
    e.1 ++ callPieces encryptCall e.2 pieces = aes128CbcEncryptBuffer whole whole.length key iv ∧
      d.1 ++ callPieces decryptCall d.2 pieces = aes128CbcDecryptBuffer whole whole.length key iv :=
  calls_in_pieces _ _ _ (by simp) (by simp)

end PasswordManager.Aes
