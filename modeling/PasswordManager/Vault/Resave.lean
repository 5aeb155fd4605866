import PasswordManager.Vault.History

/-!
# Opening a blob and encrypting again

What the checksum accepts was encrypted with the same key, byte for byte.
-/

open Nor

namespace PasswordManager.Vault

open Aes Md5 FlashDriver

theorem blob_of_opens {key : Buf 32} {n : Nat} {input : List Byte} {l : List WPTuple}
    (hlen : input.length = n * 2 * 32 + 16) (h : opens key n input = some l) :
    blob key l = input := by
  unfold opens at h
  dsimp only at h
  split at h
  next hsum =>
    cases h
    set output := aes128CbcDecryptBuffer input (n * 2 * 32 + 16) key.val (md5 key.val).val
      with houtput
    have hout : output.length = n * 2 * 32 + 16 := by
      rw [houtput, length_aes128CbcDecryptBuffer]
      omega
    have hflat : flatten (unpack (output.take (n * 2 * 32)) n) = output.take (n * 2 * 32) := by
      have htake : (output.take (n * 2 * 32)).length = 64 * n := by
        rw [List.length_take]
        omega
      rw [flatten_unpack htake.ge, ← htake, List.take_length]
    have henc : aes128CbcEncryptBuffer output (n * 2 * 32 + 16) key.val (md5 key.val).val = input := by
      have h := encryptBuffer_decryptBuffer input key.val (md5 key.val).val (4 * n + 1) (by omega)
      rw [show 16 * (4 * n + 1) = n * 2 * 32 + 16 by omega, ← hlen, List.take_length] at h
      rw [houtput, ← hlen]
      exact h
    rw [blob, hflat, hsum, length_unpack, List.take_append_drop]
    exact henc
  next => cases h

theorem encrypt_data_of_decrypt {m : Manager} {input : List Byte}
    (hlen : m.records.numOfPass * 2 * 32 + 16 ≤ input.length) (h : (m.decrypt input).1 = true) :
    (m.decrypt input).2.encrypt.data = input.take (m.records.numOfPass * 2 * 32 + 16) := by
  obtain ⟨hok, hlive⟩ := m.decrypt_eq input
  rw [h] at hok
  obtain ⟨l, hl⟩ := Option.isSome_iff_exists.mp hok.symm
  obtain ⟨checksum, records, -, hframe⟩ := m.decrypt_frame input
  rw [Manager.encrypt_data, hlive l hl, hframe]
  apply blob_of_opens
  · rw [List.length_take, Nat.min_eq_left hlen]
  · rw [opens_take _ hlen]
    exact hl

/-- Encrypting right after a blob was accepted gives the blob back. When it was not accepted, the
blob, the count and the entries are as they were. What stands behind the blob does not matter. -/
theorem encrypt_after_decrypt (m : Manager) (input : List Byte)
    (hlen : 64 * m.records.numOfPass + 16 ≤ input.length) :
    ((m.decrypt input).1 = true →
      (m.decrypt input).2.encrypt.encryptedData.val.take (64 * m.records.numOfPass + 16) =
        input.take (64 * m.records.numOfPass + 16)) ∧
    ((m.decrypt input).1 = false →
      (m.decrypt input).2.encryptedData = m.encryptedData ∧
        (m.decrypt input).2.records = m.records) := by
  have hsize : 64 * m.records.numOfPass + 16 = m.records.numOfPass * 2 * 32 + 16 := by omega
  rw [hsize] at hlen ⊢
  refine ⟨fun htrue => ?_, fun hfalse => ?_⟩
  · obtain ⟨checksum, records, hn, hframe⟩ := m.decrypt_frame input
    have hdata := encrypt_data_of_decrypt hlen htrue
    have hcount : 32 * 2 * records.numOfPass + 16 = m.records.numOfPass * 2 * 32 + 16 := by omega
    rw [hframe, Manager.data, Manager.encrypt_records, hcount] at hdata
    rw [hframe]
    exact hdata
  · obtain ⟨checksum, heq⟩ := Manager.decrypt_refused hfalse
    rw [heq]
    exact ⟨rfl, rfl⟩

def loaded : Manager :=
  { Manager.zeroed 0 with
    key := keyOf (bytes "p")
    records := { Records.filled 0x41 with numOfPass := 3, bound := by decide } }

theorem encrypt_after_decrypt_twoPasswords :
    (loaded.decrypt (blob (keyOf (bytes "p")) twoPasswords.live)).1 = true ∧
      (loaded.decrypt (blob (keyOf (bytes "p")) twoPasswords.live)).2.encrypt.encryptedData.val.take
          (64 * 3 + 16) =
        (blob (keyOf (bytes "p")) twoPasswords.live).take (64 * 3 + 16) := by
  have hlen : 64 * loaded.records.numOfPass + 16 ≤ (blob (keyOf (bytes "p")) twoPasswords.live).length := by
    rw [length_blob]
    decide
  have hok : (loaded.decrypt (blob (keyOf (bytes "p")) twoPasswords.live)).1 = true := by
    have hopens : opens (keyOf (bytes "p")) 3 (blob (keyOf (bytes "p")) twoPasswords.live) =
        some twoPasswords.live := opens_blob _ twoPasswords.live
    rw [(loaded.decrypt_eq _).1]
    exact congrArg Option.isSome hopens
  exact ⟨hok, (encrypt_after_decrypt loaded (blob (keyOf (bytes "p")) twoPasswords.live) hlen).1 hok⟩

theorem resave_image {c : Cells} {address n : Nat} {data : List Byte} {memory found : Manager}
    {password : Line} (hstored : Stored c address n data)
    (hopen : reopen memory address c password = some (true, found)) :
    image found.records.numOfPass found.encrypt.data = image n data := by
  obtain ⟨m, rest, hload, -, -, -, -, hn, hdata⟩ :=
    Manager.loadData_stored (m := construct memory address) hstored
  rw [reopen, hload, Option.map_some, Option.some.injEq] at hopen
  have hcount : (m.createKey password).records.numOfPass = n := by rw [createKey_eq]; exact hn
  have hlen : (m.createKey password).records.numOfPass * 2 * 32 + 16 ≤ m.encryptedData.val.length := by
    rw [hcount, hdata, List.length_append, hstored.2.1]
    omega
  have hbytes := encrypt_data_of_decrypt hlen (congrArg Prod.fst hopen)
  obtain ⟨checksum, records, hrecords, hframe⟩ :=
    (m.createKey password).decrypt_frame m.encryptedData.val
  have hfound : ((m.createKey password).decrypt m.encryptedData.val).2 = found := congrArg Prod.snd hopen
  have hnumber : found.records.numOfPass = n := by
    rw [← hfound, hframe]
    exact hrecords.trans hcount
  rw [hfound, hcount, hdata, List.take_left' hstored.2.1] at hbytes
  rw [hnumber, hbytes]

end PasswordManager.Vault
