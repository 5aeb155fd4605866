import PasswordManager.Aes.Proofs
import PasswordManager.Md5
import PasswordManager.Vault.Records

/-! # Keys, encryption and decryption of the array -/

namespace PasswordManager.Vault

open Nor Md5 Aes

/-- `MAXSTORED * 2 * PASSWORDLENGTH + 16`, the size of `encryptedData`. -/
abbrev dataSize : Nat := maxStored * 2 * 32 + 16

structure Manager where
  changed : Bool
  key : Buf 32
  address : Nat
  firstUse : Bool
  records : Records
  checksum : Buf 16
  encryptedData : Buf dataSize

/-! ## Flattening -/

def structToArray (input : List WPTuple) (numOfPasswords : Nat) : List Byte :=
  (input.take numOfPasswords).flatMap fun t => t.website.val ++ t.password.val

def fieldAt (input : List Byte) (z : Nat) : Field :=
  ⟨List.ofFn fun j : Fin 32 => input.getD (z + j) 0, List.length_ofFn⟩

def unpack (input : List Byte) (numOfPasswords : Nat) : List WPTuple :=
  (List.range numOfPasswords).map fun i =>
    { website := fieldAt input (64 * i), password := fieldAt input (64 * i + 32) }

def Records.arrayToStruct (r : Records) (input : List Byte) : Records :=
  { r with
    slots := unpack input r.numOfPass ++ r.slots.drop r.numOfPass
    length_slots := by
      have := r.bound
      simp [unpack, r.length_slots]
      omega }

/-! ## The key -/

def Manager.createKey (m : Manager) (password : Line) : Manager :=
  let hashedToTransform := md5 (addCharacters password).field.val
  { m with key := ⟨hashedToTransform.val ++ hashedToTransform.val, by
      simp [hashedToTransform.property]⟩ }

/-! ## Encryption and decryption -/

def Manager.encrypt (m : Manager) : Manager :=
  let inputEn := structToArray m.records.slots m.records.numOfPass
  let sizeOfInput := m.records.numOfPass * 2 * 32
  let checksum := md5 inputEn
  let toEncrypt := inputEn ++ checksum.val
  let iv := md5 m.key.val
  let output := aes128CbcEncryptBuffer toEncrypt (sizeOfInput + 16) m.key.val iv.val
  { m with
    checksum
    encryptedData := ⟨output ++ m.encryptedData.val.drop output.length, by
      have := m.records.bound
      have := length_aes128CbcEncryptBuffer toEncrypt (sizeOfInput + 16) m.key.val iv.val
      simp only [List.length_append, List.length_drop, m.encryptedData.property]
      simp only [dataSize, maxStored, output, sizeOfInput] at *
      omega⟩ }

def Manager.decrypt (m : Manager) (input : List Byte) : Bool × Manager :=
  let sizeOfInput := m.records.numOfPass * 2 * 32 + 16
  let iv := md5 m.key.val
  let outputEn := aes128CbcDecryptBuffer input sizeOfInput m.key.val iv.val
  let toTransform := outputEn.take (sizeOfInput - 16)
  let checksum : Buf 16 := ⟨outputEn.drop (sizeOfInput - 16), by
    have := length_aes128CbcDecryptBuffer input sizeOfInput m.key.val iv.val
    simp only [List.length_drop, outputEn, sizeOfInput] at *
    omega⟩
  let toCheck := md5 toTransform
  if toCheck = checksum then
    (true, { m with checksum, records := m.records.arrayToStruct toTransform })
  else (false, { m with checksum })

/-! ## Flattening and filling are inverse -/

def flatten (l : List WPTuple) : List Byte := l.flatMap fun t => t.website.val ++ t.password.val

theorem structToArray_live (r : Records) : structToArray r.slots r.numOfPass = flatten r.live := rfl

@[simp] theorem length_flatten (l : List WPTuple) : (flatten l).length = 64 * l.length := by
  induction l with
  | nil => rfl
  | cons t l ih =>
    simp only [flatten, List.flatMap_cons, List.length_append, List.length_cons] at ih ⊢
    rw [ih, t.website.property, t.password.property]
    omega

@[simp] theorem length_unpack (input : List Byte) (n : Nat) : (unpack input n).length = n := by
  simp [unpack]

theorem fieldAt_zero (f : Field) (rest : List Byte) : fieldAt (f.val ++ rest) 0 = f := by
  apply Buf.ext
  apply List.ext_getElem
  · simp [fieldAt, f.property]
  · intro i hi _
    simp only [fieldAt, List.length_ofFn] at hi
    have hf : i < f.val.length := by rw [f.property]; exact hi
    simp only [fieldAt, List.getElem_ofFn, Nat.zero_add, List.getD_eq_getElem?_getD,
      List.getElem?_append_left hf, List.getElem?_eq_getElem hf, Option.getD_some]

theorem fieldAt_append {l : List Byte} {n : Nat} (h : l.length = n) (rest : List Byte) (z : Nat) :
    fieldAt (l ++ rest) (n + z) = fieldAt rest z := by
  apply Buf.ext
  simp [fieldAt, ← h, List.getElem?_append_right, Nat.add_assoc]

theorem unpack_flatten (l : List WPTuple) (rest : List Byte) :
    unpack (flatten l ++ rest) l.length = l := by
  induction l with
  | nil => rfl
  | cons t l ih =>
    have hlen : (t.website.val ++ t.password.val).length = 64 := by
      rw [List.length_append, t.website.property, t.password.property]
    have hflat : flatten (t :: l) ++ rest = t.website.val ++ t.password.val ++ (flatten l ++ rest) := by
      simp [flatten]
    rw [hflat, unpack, List.length_cons, List.range_succ_eq_map, List.map_cons, List.map_map]
    congr 1
    · rw [List.append_assoc, fieldAt_zero,
        show 64 * 0 + 32 = 32 + 0 by omega, fieldAt_append t.website.property, fieldAt_zero]
    · calc List.map _ _ = unpack (flatten l ++ rest) l.length := by
            apply List.map_congr_left
            intro i _
            simp only [Function.comp_apply, Nat.succ_eq_add_one]
            rw [show 64 * (i + 1) = 64 + 64 * i by omega, Nat.add_assoc, fieldAt_append hlen,
              fieldAt_append hlen]
        _ = l := ih

theorem fieldAt_val {input : List Byte} {z : Nat} (h : z + 32 ≤ input.length) :
    (fieldAt input z).val = (input.drop z).take 32 := by
  apply List.ext_getElem
  · rw [(fieldAt input z).property, List.length_take, List.length_drop]
    omega
  · intro i hi _
    rw [(fieldAt input z).property] at hi
    have hin : z + i < input.length := by omega
    simp only [fieldAt, List.getElem_ofFn, List.getD_eq_getElem?_getD, List.getElem?_eq_getElem hin,
      Option.getD_some, List.getElem_take, List.getElem_drop]

theorem flatten_unpack {input : List Byte} {n : Nat} (h : 64 * n ≤ input.length) :
    flatten (unpack input n) = input.take (64 * n) := by
  induction n with
  | zero => rfl
  | succ n ih =>
    have hentry : (fieldAt input (64 * n)).val ++ (fieldAt input (64 * n + 32)).val =
        (input.drop (64 * n)).take 64 := by
      rw [fieldAt_val (by omega), fieldAt_val (by omega), ← List.drop_drop]
      exact (List.take_add (i := 32) (j := 32)).symm
    have hinit : flatten (unpack input n) = input.take (64 * n) := ih (by omega)
    simp only [flatten, unpack] at hinit ⊢
    rw [List.range_succ, List.map_append, List.flatMap_append, hinit]
    simp only [List.map_cons, List.map_nil, List.flatMap_cons, List.flatMap_nil, List.append_nil, hentry]
    rw [Nat.mul_succ, List.take_add]

@[simp] theorem live_arrayToStruct (r : Records) (input : List Byte) :
    (r.arrayToStruct input).live = unpack input r.numOfPass := by
  simp [Records.arrayToStruct, Records.live]

/-! ## Keys depend on the string alone -/

/-- A string as `addCharacters` lays it out. -/
def padded (s : List Byte) : List Byte := s ++ 0 :: List.replicate (31 - s.length) blank

/-- The key that a master password gives. -/
def keyOf (s : List Byte) : Buf 32 :=
  ⟨(md5 (padded s)).val ++ (md5 (padded s)).val, by simp [(md5 (padded s)).property]⟩

theorem take_keyOf (text : List Byte) : (keyOf text).val.take 16 = (md5 (padded text)).val :=
  List.take_left' (md5 (padded text)).property

theorem createKey_eq (m : Manager) (password : Line) :
    m.createKey password = { m with key := keyOf password.str } := by
  rw [Manager.createKey]
  simp only [addCharacters_val]
  rfl

/-! ## Opening a blob -/

/-- The entries that a blob for `n` entries decrypts to, when the checksum agrees. -/
def opens (key : Buf 32) (n : Nat) (data : List Byte) : Option (List WPTuple) :=
  let output := aes128CbcDecryptBuffer data (n * 2 * 32 + 16) key.val (md5 key.val).val
  if (md5 (output.take (n * 2 * 32))).val = output.drop (n * 2 * 32) then
    some (unpack (output.take (n * 2 * 32)) n)
  else none

/-- The blob of a list of entries under a key. -/
def blob (key : Buf 32) (l : List WPTuple) : List Byte :=
  aes128CbcEncryptBuffer (flatten l ++ (md5 (flatten l)).val) (l.length * 2 * 32 + 16) key.val
    (md5 key.val).val

@[simp] theorem length_blob (key : Buf 32) (l : List WPTuple) :
    (blob key l).length = l.length * 2 * 32 + 16 := by
  rw [blob, length_aes128CbcEncryptBuffer]
  omega

theorem opens_append (key : Buf 32) {n : Nat} {data : List Byte} (h : n * 2 * 32 + 16 ≤ data.length)
    (rest : List Byte) : opens key n (data ++ rest) = opens key n data := by
  have hdec := decryptBuffer_append data rest key.val (md5 key.val).val (4 * n + 1) (by omega)
  rw [show 16 * (4 * n + 1) = n * 2 * 32 + 16 by omega] at hdec
  simp only [opens, hdec]

theorem opens_take (key : Buf 32) {n : Nat} {input : List Byte} (h : n * 2 * 32 + 16 ≤ input.length) :
    opens key n (input.take (n * 2 * 32 + 16)) = opens key n input := by
  have hlen : n * 2 * 32 + 16 ≤ (input.take (n * 2 * 32 + 16)).length := by
    rw [List.length_take]
    omega
  rw [← opens_append key hlen (input.drop (n * 2 * 32 + 16)), List.take_append_drop]

theorem opens_blob (key : Buf 32) (l : List WPTuple) : opens key l.length (blob key l) = some l := by
  have hlen : (flatten l ++ (md5 (flatten l)).val).length = 16 * (4 * l.length + 1) := by
    rw [List.length_append, length_flatten, (md5 (flatten l)).property]
    omega
  have hdec := decryptBuffer_encryptBuffer (flatten l ++ (md5 (flatten l)).val) key.val
    (md5 key.val).val (4 * l.length + 1) (by omega)
  rw [show 16 * (4 * l.length + 1) = l.length * 2 * 32 + 16 by omega] at hdec hlen
  rw [List.take_of_length_le (by omega)] at hdec
  have htake : (flatten l ++ (md5 (flatten l)).val).take (l.length * 2 * 32) = flatten l :=
    List.take_left' (by simp; omega)
  have hdrop : (flatten l ++ (md5 (flatten l)).val).drop (l.length * 2 * 32) =
      (md5 (flatten l)).val := List.drop_left' (by simp; omega)
  have hun : unpack (flatten l) l.length = l := by simpa using unpack_flatten l []
  simp only [opens, blob, hdec, htake, hdrop, if_true, hun]

theorem blob_injective {key : Buf 32} {l l' : List WPTuple} (h : blob key l = blob key l') : l = l' := by
  have hlen := congrArg List.length h
  simp only [length_blob] at hlen
  have hopens := opens_blob key l
  rw [h, show l.length = l'.length by omega, opens_blob] at hopens
  exact (Option.some.inj hopens).symm

theorem Manager.decrypt_eq (m : Manager) (input : List Byte) :
    (m.decrypt input).1 = (opens m.key m.records.numOfPass input).isSome ∧
      ∀ l, opens m.key m.records.numOfPass input = some l → (m.decrypt input).2.records.live = l := by
  simp only [decrypt, opens, Subtype.ext_iff, Nat.add_sub_cancel]
  split
  · simp
  · simp

theorem Manager.decrypt_frame (m : Manager) (input : List Byte) :
    ∃ checksum records, records.numOfPass = m.records.numOfPass ∧
      (m.decrypt input).2 = { m with checksum, records } := by
  simp only [decrypt]
  split
  · exact ⟨_, m.records.arrayToStruct _, rfl, rfl⟩
  · exact ⟨_, m.records, rfl, rfl⟩

theorem Manager.decrypt_refused {m : Manager} {input : List Byte} (h : (m.decrypt input).1 = false) :
    ∃ checksum, (m.decrypt input).2 = { m with checksum } := by
  simp only [decrypt] at h ⊢
  split at h
  next => cases h
  next hsum =>
    rw [if_neg hsum]
    exact ⟨_, rfl⟩

@[simp] theorem Manager.encrypt_changed (m : Manager) : m.encrypt.changed = m.changed := rfl
@[simp] theorem Manager.encrypt_key (m : Manager) : m.encrypt.key = m.key := rfl
@[simp] theorem Manager.encrypt_address (m : Manager) : m.encrypt.address = m.address := rfl
@[simp] theorem Manager.encrypt_firstUse (m : Manager) : m.encrypt.firstUse = m.firstUse := rfl
@[simp] theorem Manager.encrypt_records (m : Manager) : m.encrypt.records = m.records := rfl

theorem Manager.encrypt_eq (m : Manager) :
    m.encrypt.encryptedData.val =
      blob m.key m.records.live ++ m.encryptedData.val.drop (m.records.numOfPass * 2 * 32 + 16) := by
  have h := length_blob m.key m.records.live
  simp only [blob, Records.length_live] at h
  simp only [encrypt, structToArray_live, blob, Records.length_live, h]

end PasswordManager.Vault
