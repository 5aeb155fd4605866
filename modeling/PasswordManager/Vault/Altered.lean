import PasswordManager.Md5.Stream
import PasswordManager.Vault.Resave
import PasswordManager.Vault.Session

/-!
# A vault with other bytes

The checksum stands behind the entries and is encrypted with them. When the bytes on the flash were changed,
what a session shows is never what was stored.
-/

open Nor

namespace PasswordManager.Vault

open Aes Md5 FlashDriver MerkleDamgard

/-! ## What the bytes decrypt to -/

/-- The bytes before the checksum. -/
def plainOf (key : Buf 32) (n : Nat) (data : List Byte) : List Byte :=
  (aes128CbcDecryptBuffer data (n * 2 * 32 + 16) key.val (md5 key.val).val).take (n * 2 * 32)

def checksumOf (key : Buf 32) (n : Nat) (data : List Byte) : List Byte :=
  (aes128CbcDecryptBuffer data (n * 2 * 32 + 16) key.val (md5 key.val).val).drop (n * 2 * 32)

section
variable {key : Buf 32} {n : Nat} {data data' : List Byte} {live other : List WPTuple}

theorem length_plainOf : (plainOf key n data).length = 64 * n := by
  rw [plainOf, List.length_take, length_aes128CbcDecryptBuffer]
  omega

theorem opens_iff : opens key n data = some live ↔
    (md5 (plainOf key n data)).val = checksumOf key n data ∧ unpack (plainOf key n data) n = live := by
  unfold opens
  change (if (md5 (plainOf key n data)).val = checksumOf key n data then
    some (unpack (plainOf key n data) n) else none) = some live ↔ _
  split
  next hsum => simp [hsum]
  next hsum => simp [hsum]

theorem flatten_of_opens (h : opens key n data = some live) : flatten live = plainOf key n data := by
  obtain ⟨-, rfl⟩ := opens_iff.mp h
  rw [flatten_unpack length_plainOf.ge, ← length_plainOf, List.take_length]

theorem length_of_opens (h : opens key n data = some live) : live.length = n := by
  obtain ⟨-, rfl⟩ := opens_iff.mp h
  exact length_unpack _ n

/-- The entries do not depend on the last block. -/
theorem plainOf_congr (hlen : n * 2 * 32 ≤ data.length) (hlen' : n * 2 * 32 ≤ data'.length)
    (h : data.take (n * 2 * 32) = data'.take (n * 2 * 32)) : plainOf key n data = plainOf key n data' := by
  have hplain : ∀ data : List Byte, n * 2 * 32 ≤ data.length →
      plainOf key n data =
        aes128CbcDecryptBuffer (data.take (n * 2 * 32)) (n * 2 * 32) key.val (md5 key.val).val := by
    intro data hlen
    rcases Nat.eq_zero_or_pos n with rfl | hn
    · have hplain : plainOf key 0 data = [] := List.eq_nil_of_length_eq_zero length_plainOf
      rw [hplain]
      exact (List.eq_nil_of_length_eq_zero (length_aes128CbcDecryptBuffer _ _ _ _)).symm
    have hsplit := decryptBuffer_behind data key.val (md5 key.val).val (4 * n - 1) 1
    have hfront := decryptBuffer_append (data.take (n * 2 * 32)) (data.drop (n * 2 * 32)) key.val
      (md5 key.val).val (4 * n) (by rw [List.length_take]; omega)
    rw [List.take_append_drop, show 16 * (4 * n) = n * 2 * 32 by omega] at hfront
    rw [show 16 * (4 * n - 1 + 1 + 1) = n * 2 * 32 + 16 by omega,
      show 16 * (4 * n - 1 + 1) = n * 2 * 32 by omega] at hsplit
    rw [plainOf, hsplit, ← hfront]
    apply List.take_left'
    rw [length_aes128CbcDecryptBuffer]
    omega
  rw [hplain data hlen, hplain data' hlen', h]

/-- The checksum depends on the last two blocks only. -/
theorem checksumOf_congr (hn : 0 < n) (h : data.drop (n * 2 * 32 - 16) = data'.drop (n * 2 * 32 - 16)) :
    checksumOf key n data = checksumOf key n data' := by
  have hsum : ∀ data : List Byte, checksumOf key n data =
      decryptLoop (keyExpansion key.val) 1 (blockCopy (data.drop (n * 2 * 32 - 16)))
        ((data.drop (n * 2 * 32 - 16)).drop 16) := by
    intro data
    have hsplit := decryptBuffer_behind data key.val (md5 key.val).val (4 * n - 1) 1
    rw [show 16 * (4 * n - 1 + 1 + 1) = n * 2 * 32 + 16 by omega,
      show 16 * (4 * n - 1 + 1) = n * 2 * 32 by omega,
      show 16 * (4 * n - 1) = n * 2 * 32 - 16 by omega] at hsplit
    rw [checksumOf, hsplit, List.drop_drop, show n * 2 * 32 - 16 + 16 = n * 2 * 32 by omega]
    apply List.drop_left'
    rw [length_aes128CbcDecryptBuffer]
    omega
  rw [hsum, hsum, h]

/-! ## Blobs -/

/-- Other bytes of the same length, which open. -/
structure Forged (key : Buf 32) (live : List WPTuple) (data : List Byte) (other : List WPTuple) : Prop where
  length : data.length = (blob key live).length
  ne : data ≠ blob key live
  opens : opens key live.length data = some other

theorem Forged.differs (h : Forged key live data other) : other ≠ live := by
  rintro rfl
  exact h.ne (blob_of_opens (h.length.trans (length_blob key other)) h.opens).symm

/-- Not only the last block was changed. -/
theorem Forged.take_ne (h : Forged key live data other) :
    data.take (live.length * 2 * 32) ≠ (blob key live).take (live.length * 2 * 32) := by
  intro htake
  have hlen := h.length
  have hblob := length_blob key live
  have hplain : plainOf key live.length data = plainOf key live.length (blob key live) :=
    plainOf_congr (by omega) (by omega) htake
  obtain ⟨-, hlive⟩ := opens_iff.mp (opens_blob key live)
  obtain ⟨-, hother⟩ := opens_iff.mp h.opens
  rw [hplain, hlive] at hother
  exact h.differs hother.symm

theorem Forged.md5_eq (h : Forged key live data other)
    (hdrop : data.drop (live.length * 2 * 32 - 16) = (blob key live).drop (live.length * 2 * 32 - 16)) :
    md5 (flatten live) = md5 (flatten other) := by
  have hn : 0 < live.length := by
    by_contra hzero
    rw [Nat.eq_zero_of_not_pos hzero] at hdrop
    exact h.ne hdrop
  have hsum : checksumOf key live.length data = checksumOf key live.length (blob key live) :=
    checksumOf_congr hn hdrop
  obtain ⟨hlive, -⟩ := opens_iff.mp (opens_blob key live)
  obtain ⟨hother, -⟩ := opens_iff.mp h.opens
  apply Buf.ext
  rw [flatten_of_opens (opens_blob key live), flatten_of_opens h.opens, hlive, hother, hsum]

/-- With the last two blocks as they were, two messages with one digest come to light. -/
theorem Forged.collide (h : Forged key live data other) (hlive : live.length ≤ maxStored)
    (hdrop : data.drop (live.length * 2 * 32 - 16) = (blob key live).drop (live.length * 2 * 32 - 16)) :
    Collide 64 compress md5Starts.state (pad (flatten live)) (pad (flatten other)) := by
  have hother := length_of_opens h.opens
  simp only [maxStored] at hlive
  apply md5_collision
  · rw [length_flatten]
    omega
  · rw [length_flatten]
    omega
  · intro hflat
    have hunpack := unpack_flatten live []
    rw [hflat, ← hother, unpack_flatten other []] at hunpack
    exact h.differs hunpack
  · exact h.md5_eq hdrop

end

/-! ## On the flash -/

section
variable {c c' : Cells} {address : Nat} {key : Buf 32} {live : List WPTuple}

/-- The load takes the other bytes as it would take the stored ones. -/
theorem loadData_altered (h : Stored c address live.length (blob key live))
    (hsame : ∀ x, x < address + 6 → c' x = c x) :
    loadData c' address = .vault live.length (read c' (address + 6) (live.length * 2 * 32 + 16)) := by
  have hload := h.loadData
  have hident : read c' address 4 = read c address 4 := read_congr fun x _ _ => hsame x (by omega)
  rw [loadData] at hload ⊢
  rw [hident, hsame (address + 4) (by omega), hsame (address + 5) (by omega)]
  split at hload
  next heq =>
    injection hload with hcount hdata
    rw [if_pos heq, hcount]
    dsimp only
    rw [copySize_of_le h.1]
  next => cases hload

theorem read_stored (h : Stored c address live.length (blob key live)) :
    read c (address + 6) (live.length * 2 * 32 + 16) = blob key live := by
  have hload := loadData_altered h (fun _ _ => rfl)
  rw [h.loadData] at hload
  injection hload with _ hdata
  exact hdata.symm

/-- When bytes of the blob are not those that were stored, no session under its key shows its entries. There
is none when only the checksum was changed, and otherwise the entries that it shows have the digest of the
stored ones, unless one of the last two blocks was changed. -/
theorem altered_vault {flash : Flash} (hstored : Stored c address live.length (blob key live))
    (hsame : ∀ x, x < address + 6 ∨ address + 6 + (live.length * 2 * 32 + 16) ≤ x → flash.cells x = c x)
    (hchanged : ∃ x, flash.cells x ≠ c x) (memory : Manager) (console : Console) :
    (∃ data, loadData flash.cells address = .vault live.length data ∧ data ≠ blob key live) ∧
      ∀ s, begin memory address flash console = .ok s → s.pm.key = key →
        s.pm.records.live ≠ live ∧
          (∃ x, x < address + 6 + live.length * 2 * 32 ∧ flash.cells x ≠ c x) ∧
          ((∀ x, address + 6 + (live.length * 2 * 32 - 16) ≤ x → flash.cells x = c x) →
            Collide 64 compress md5Starts.state (pad (flatten live)) (pad (flatten s.pm.records.live))) := by
  have hload := loadData_altered hstored fun x hx => hsame x (.inl hx)
  have hread := read_stored hstored
  have hne : read flash.cells (address + 6) (live.length * 2 * 32 + 16) ≠ blob key live := by
    intro heq
    obtain ⟨x, hx⟩ := hchanged
    rw [← hread, read_eq_iff] at heq
    by_cases hin : address + 6 ≤ x ∧ x < address + 6 + (live.length * 2 * 32 + 16)
    · exact hx (heq x hin.1 hin.2)
    · exact hx (hsame x (by omega))
  refine ⟨⟨_, hload, hne⟩, fun s hbegin hkey => ?_⟩
  have hforged : Forged key live (read flash.cells (address + 6) (live.length * 2 * 32 + 16))
      s.pm.records.live := by
    refine ⟨by rw [length_read, length_blob], hne, ?_⟩
    cases begin_started hbegin with
    | clear console hclear =>
      rw [hload] at hclear
      cases hclear
    | login pm console text hvault hfirst hlogin haddress hkey' hn hopens =>
      rw [hload] at hvault
      cases hvault
      rwa [hkey] at hopens
  refine ⟨hforged.differs, ?_, fun hlast => hforged.collide hstored.1 ?_⟩
  · by_contra hfront
    push Not at hfront
    apply hforged.take_ne
    rw [← hread, take_read _ _ (by omega), take_read _ _ (by omega)]
    exact read_congr fun x _ hx => hfront x hx
  · rw [← hread, drop_read _ _ (by omega), drop_read _ _ (by omega)]
    exact read_congr fun x hx _ => hlast x hx

end

theorem stored_burn {address : Nat} (key : Buf 32) {live : List WPTuple} (h : live.length ≤ maxStored) :
    Stored (burn (fun _ => blank) address (image live.length (blob key live))) address live.length
      (blob key live) :=
  ⟨h, length_blob key live, holds_burn fun _ _ _ => rfl⟩

theorem not_ne (b : Byte) : ~~~b ≠ b := by
  intro h
  have hbit := congrArg (fun b => b.getLsbD 0) h
  simp at hbit

/-- One entry, and the first byte of it is changed. -/
theorem altered_vault_first_byte :
    ∃ (key : Buf 32) (live : List WPTuple) (c : Cells) (flash : Flash), live.length = 1 ∧
      Stored c 0x080F8000 live.length (blob key live) ∧ flash.cells 0x080F8006 ≠ c 0x080F8006 ∧
      (∃ data, loadData flash.cells 0x080F8000 = .vault live.length data ∧ data ≠ blob key live) ∧
      ∀ s, begin (Manager.zeroed 0) 0x080F8000 flash (typed ["pw"]) = .ok s → s.pm.key = key →
        s.pm.records.live ≠ live ∧
          (∃ x, x < 0x080F8000 + 6 + live.length * 2 * 32 ∧ flash.cells x ≠ c x) ∧
          ((∀ x, 0x080F8000 + 6 + (live.length * 2 * 32 - 16) ≤ x → flash.cells x = c x) →
            Collide 64 compress md5Starts.state (pad (flatten live)) (pad (flatten s.pm.records.live))) := by
  obtain ⟨live, hlive⟩ : ∃ live : List WPTuple, live.length = 1 :=
    ⟨[⟨Field.filled 0x61, Field.filled 0x62⟩], rfl⟩
  have hstored := @stored_burn 0x080F8000 (keyOf (bytes "pw")) live (by rw [hlive]; decide)
  set c := burn (fun _ => blank) 0x080F8000 (image live.length (blob (keyOf (bytes "pw")) live))
  have hother : Function.update c 0x080F8006 (~~~c 0x080F8006) 0x080F8006 ≠ c 0x080F8006 := by
    rw [Function.update_self]
    exact not_ne _
  refine ⟨_, live, c, { Flash.cleared with cells := Function.update c 0x080F8006 (~~~c 0x080F8006) }, hlive,
    hstored, hother, altered_vault hstored (fun x hx => ?_) ⟨0x080F8006, hother⟩ _ _⟩
  exact Function.update_of_ne (by omega) _ _

end PasswordManager.Vault
