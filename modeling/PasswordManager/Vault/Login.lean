import PasswordManager.Aes.Statics
import PasswordManager.Vault.Session

/-!
# Failed logins

A failed attempt leaves another key, another checksum and other bytes in the input buffer. The
next attempt writes over all three before it reads them.
-/

open Nor

namespace PasswordManager.Vault

open FlashDriver Aes Md5

/-- The bytes that are encrypted on the flash. -/
def Manager.blob (m : Manager) : List Byte := m.encryptedData.val.take (64 * m.records.numOfPass + 16)

/-- The last 16 bytes of what was decrypted are the MD5 of the bytes before them. -/
def ChecksumAgrees (n : Nat) (output : List Byte) : Prop :=
  output.drop (64 * n) = (md5 (output.take (64 * n))).val

/-- An attempt with this word gets through. -/
def Passes (m : Manager) (token : List Byte) : Prop :=
  let key := keyOf (CString.str 0 token)
  ChecksumAgrees m.records.numOfPass
    (aes128CbcDecryptBuffer m.blob (64 * m.records.numOfPass + 16) key.val (md5 key.val).val)

instance (m : Manager) (token : List Byte) : Decidable (Passes m token) :=
  inferInstanceAs (Decidable (_ = _))

theorem str_put (token : List Byte) (h : token.length < 32) (memory : Field) :
    (Line.put token h memory).str = CString.str 0 token :=
  CString.str_append_terminator token _

theorem passes_iff (m : Manager) (token : List Byte) :
    Passes m token ↔
      (opens (keyOf (CString.str 0 token)) m.records.numOfPass m.encryptedData.val).isSome := by
  have hsize : 64 * m.records.numOfPass = m.records.numOfPass * 2 * 32 := by omega
  have hbound := m.records.bound
  have hlen : m.records.numOfPass * 2 * 32 + 16 ≤ m.encryptedData.val.length := by
    rw [m.encryptedData.property]
    simp only [dataSize, maxStored] at hbound ⊢
    omega
  rw [Passes, ChecksumAgrees, Manager.blob, hsize, ← opens_take _ hlen]
  simp only [opens]
  split
  next h => exact ⟨fun _ => rfl, fun _ => h.symm⟩
  next h => exact ⟨fun hsum => absurd hsum.symm h, fun hnone => by cases hnone⟩

theorem decrypt_iff_passes (m : Manager) {line : Line} {token : List Byte}
    (h : line.str = CString.str 0 token) :
    ((m.createKey line).decrypt m.encryptedData.val).1 = true ↔ Passes m token := by
  rw [((m.createKey line).decrypt_eq _).1, passes_iff, createKey_eq, h]

/-! ## The loop -/

/-- One failed pass through the loop, with the words that are still to be typed. -/
inductive Retry : Session × List (List Byte) → Session × List (List Byte) → Prop
  | wrong {s : Session} {token : List Byte} {stdin : List (List Byte)} {line : Line}
      (hline : receive token s.console.input = .ok line)
      (hwrong : ((s.pm.createKey line).decrypt s.pm.encryptedData.val).1 = false) :
      Retry (s, token :: stdin)
        ({ s with
            pm := ((s.pm.createKey line).decrypt s.pm.encryptedData.val).2
            console := { s.console with input := line.field, stdin } }, stdin)

theorem checkpass_of_retry {c c' : Session × List (List Byte)} (h : Retry c c') :
    checkpass c.1 c.2 = checkpass c'.1 c'.2 := by
  cases h with
  | @wrong s token stdin line hline hwrong =>
    have heq : (s.pm.createKey line).decrypt (s.pm.createKey line).encryptedData.val =
        (false, ((s.pm.createKey line).decrypt s.pm.encryptedData.val).2) := Prod.ext hwrong rfl
    rw [checkpass, hline]
    dsimp only [bind, Except.bind]
    rw [heq]

/-- A pass writes neither to the entries nor to the blob, and no command runs. -/
theorem retry_frame {c c' : Session × List (List Byte)} (h : Relation.ReflTransGen Retry c c') :
    c'.1.pm.records = c.1.pm.records ∧ c'.1.pm.encryptedData = c.1.pm.encryptedData ∧
      c'.1.pm.changed = c.1.pm.changed ∧ c'.1.pm.firstUse = c.1.pm.firstUse ∧
      c'.1.pm.address = c.1.pm.address ∧ c'.1.flash = c.1.flash ∧ c'.1.log = c.1.log := by
  induction h with
  | refl => exact ⟨rfl, rfl, rfl, rfl, rfl, rfl, rfl⟩
  | tail _ hnext ih =>
    cases hnext with
    | @wrong s token stdin line hline hwrong =>
      obtain ⟨checksum, heq⟩ := Manager.decrypt_refused hwrong
      rw [createKey_eq] at heq
      simp only at ih ⊢
      rw [createKey_eq, heq]
      exact ih

theorem receive_ok {token : List Byte} (h : token.length < 32) (memory : Field) :
    receive token memory = .ok (Line.put token h memory) := by
  rw [receive, dif_pos h]

theorem receive_overflow {token : List Byte} (h : ¬ token.length < 32) (memory : Field) :
    receive token memory = .error .overflow := by
  rw [receive, dif_neg h]

theorem checkpass_overflow (s : Session) {token : List Byte} (h : ¬ token.length < 32)
    (stdin : List (List Byte)) : checkpass s (token :: stdin) = .error .overflow := by
  rw [checkpass, receive_overflow h]
  rfl

theorem checkpass_passes (s : Session) {token : List Byte} (h : token.length < 32)
    (hpass : Passes s.pm token) (stdin : List (List Byte)) :
    checkpass s (token :: stdin) = .ok { s with
      pm := (({ s.pm with key := keyOf (CString.str 0 token) } : Manager).decrypt
        s.pm.encryptedData.val).2
      console := { s.console with input := dots, stdin }
      log := s.log ++ [.login (CString.str 0 token)] } := by
  have hstr := str_put token h s.console.input
  have hok := (decrypt_iff_passes s.pm hstr).mpr hpass
  rw [checkpass, receive_ok h]
  dsimp only [bind, Except.bind]
  rw [createKey_eq, hstr] at hok ⊢
  dsimp only at hok ⊢
  split
  next pm heq => rw [heq]; rfl
  next pm heq => rw [heq] at hok; cases hok

/-- The state with what a failed attempt leaves behind. -/
def Session.stale (s : Session) (key : Buf 32) (checksum : Buf 16) (input : Field)
    (stdin : List (List Byte)) : Session :=
  { s with pm := { s.pm with key, checksum }, console := { s.console with input, stdin } }

theorem retry_stale (s : Session) {token : List Byte} (h : token.length < 32)
    (hfail : ¬ Passes s.pm token) (stdin : List (List Byte)) :
    ∃ key checksum input, Retry (s, token :: stdin) (s.stale key checksum input stdin, stdin) := by
  set line := Line.put token h s.console.input
  have hwrong : ((s.pm.createKey line).decrypt s.pm.encryptedData.val).1 = false :=
    Bool.eq_false_iff.mpr fun hok => hfail ((decrypt_iff_passes s.pm (str_put token h _)).mp hok)
  have hretry : Retry (s, token :: stdin) _ := Retry.wrong (receive_ok h s.console.input) hwrong
  obtain ⟨checksum, heq⟩ := Manager.decrypt_refused hwrong
  rw [heq, createKey_eq] at hretry
  exact ⟨_, checksum, _, hretry⟩

/-- The key, the checksum and the bytes in the buffer that an attempt starts with do not matter. -/
theorem checkpass_stale (s : Session) (key : Buf 32) (checksum : Buf 16) (input : Field)
    (typed stdin : List (List Byte)) :
    checkpass (s.stale key checksum input typed) stdin = checkpass s stdin := by
  induction stdin generalizing s key checksum input typed with
  | nil => rfl
  | cons token stdin ih =>
    by_cases h : token.length < 32
    · by_cases hpass : Passes s.pm token
      · rw [checkpass_passes s h hpass]
        exact checkpass_passes (s.stale key checksum input typed) h hpass stdin
      · obtain ⟨key', checksum', input', hretry⟩ := retry_stale s h hpass stdin
        obtain ⟨key'', checksum'', input'', hretry'⟩ :=
          retry_stale (s.stale key checksum input typed) h hpass stdin
        rw [checkpass_of_retry hretry, checkpass_of_retry hretry', ih, ih, ih]
    · rw [checkpass_overflow _ h, checkpass_overflow _ h]

theorem retries (s : Session) {failing : List (List Byte)}
    (hfail : ∀ token ∈ failing, token.length < 32 ∧ ¬ Passes s.pm token) (stdin : List (List Byte)) :
    ∃ s', Relation.ReflTransGen Retry (s, failing ++ stdin) (s', stdin) := by
  induction failing generalizing s with
  | nil => exact ⟨s, .refl⟩
  | cons token failing ih =>
    obtain ⟨hlen, hwrong⟩ := hfail token (List.mem_cons_self ..)
    obtain ⟨key, checksum, input, hretry⟩ := retry_stale s hlen hwrong (failing ++ stdin)
    obtain ⟨s', hretries⟩ := ih (s.stale key checksum input (failing ++ stdin)) fun token' htoken' =>
      hfail token' (List.mem_cons_of_mem _ htoken')
    exact ⟨s', .head hretry hretries⟩

theorem checkpass_refused (s : Session) {failing : List (List Byte)}
    (hfail : ∀ token ∈ failing, token.length < 32 ∧ ¬ Passes s.pm token) (stdin : List (List Byte)) :
    checkpass s (failing ++ stdin) = checkpass s stdin := by
  induction failing with
  | nil => rfl
  | cons token failing ih =>
    obtain ⟨hlen, hwrong⟩ := hfail token (List.mem_cons_self ..)
    obtain ⟨key, checksum, input, hretry⟩ := retry_stale s hlen hwrong (failing ++ stdin)
    have htail := ih fun token' htoken' => hfail token' (List.mem_cons_of_mem _ htoken')
    exact (checkpass_of_retry hretry).trans ((checkpass_stale s key checksum input _ _).trans htail)

theorem begin_vault {memory m : Manager} {address : Nat} {flash : Flash}
    (hload : (construct memory address).loadData flash.cells = some m) (hvault : m.firstUse = false)
    (console : Console) :
    begin memory address flash console =
      checkpass { pm := m, flash, console, log := [] } console.stdin := by
  rw [begin, hload]
  dsimp only
  rw [hvault]
  exact if_neg Bool.false_ne_true

/-- The state in which the login loop starts. -/
def atLogin (m : Manager) (flash : Flash) (console : Console) (stdin : List (List Byte)) : Session :=
  { pm := m, flash, console := { console with stdin }, log := [] }

/-- Attempts that fail, before one that passes: the loop goes round with nothing but the key, the
checksum and the input buffer changed, and the first prompt is the one that is reached without them.
An attempt passes by its last 16 decrypted bytes, whatever the statics of `aes.c` hold. -/
theorem failed_logins {memory m : Manager} {address : Nat} {flash : Flash} {console : Console}
    {failing rest : List (List Byte)} {p : List Byte}
    (hload : (construct memory address).loadData flash.cells = some m) (hvault : m.firstUse = false)
    (hfail : ∀ token ∈ failing, token.length < 32 ∧ ¬ Passes m token)
    (hp : p.length < 32) (hpass : Passes m p) :
    (∃ s, Relation.ReflTransGen Retry
      (atLogin m flash console (failing ++ p :: rest), failing ++ p :: rest) (s, p :: rest)) ∧
    (∀ s stdin, Relation.ReflTransGen Retry
        (atLogin m flash console (failing ++ p :: rest), failing ++ p :: rest) (s, stdin) →
      s.pm.records = m.records ∧ s.pm.encryptedData = m.encryptedData ∧ s.pm.changed = m.changed ∧
        s.pm.firstUse = m.firstUse ∧ s.pm.address = m.address ∧ s.flash = flash ∧ s.log = []) ∧
    (∃ s, begin memory address flash { console with stdin := failing ++ p :: rest } = .ok s ∧
      begin memory address flash { console with stdin := p :: rest } = .ok s) ∧
    ∀ (st : Statics) (line : Line),
      ((m.createKey line).decrypt m.encryptedData.val).1 = true ↔
        ChecksumAgrees m.records.numOfPass
          (decryptCall st m.blob (64 * m.records.numOfPass + 16) (some (m.createKey line).key.val)
            (some (md5 (m.createKey line).key.val).val)).1 := by
  refine ⟨retries _ hfail _, fun s stdin h => retry_frame h, ?_, fun st line => ?_⟩
  · refine ⟨_, ?_, (begin_vault hload hvault _).trans (checkpass_passes _ hp hpass rest)⟩
    rw [begin_vault hload hvault]
    exact (checkpass_refused _ hfail _).trans (checkpass_passes _ hp hpass rest)
  · have hstr : CString.str 0 line.str = line.str := CString.str_eq_self (CString.not_mem_str _)
    have hpasses := @decrypt_iff_passes m line _ hstr.symm
    rw [decryptCall_fst, hpasses, Passes, hstr, createKey_eq]

def lockedEntries : List WPTuple := twoPasswords.live.take 1

/-- A vault with one entry, with the master password `p`. -/
def lockedFlash : Flash :=
  { Flash.cleared with
    cells := burn Flash.cleared.cells 0x080F8000 (image 1 (Vault.blob (keyOf (bytes "p")) lockedEntries)) }

theorem stored_lockedFlash :
    Stored lockedFlash.cells 0x080F8000 1 (Vault.blob (keyOf (bytes "p")) lockedEntries) :=
  ⟨by decide, length_blob _ _, holds_burn fun _ _ _ => rfl⟩

theorem opens_wrong :
    opens (keyOf (bytes "q")) 1 (Vault.blob (keyOf (bytes "p")) lockedEntries) = none := by decide +kernel

theorem failed_logins_lockedFlash :
    ∃ s, begin (Manager.zeroed 0) 0x080F8000 lockedFlash
        { typed [] with stdin := [bytes "q", bytes "q"] ++ bytes "p" :: [] } = .ok s ∧
      begin (Manager.zeroed 0) 0x080F8000 lockedFlash { typed [] with stdin := bytes "p" :: [] } = .ok s := by
  obtain ⟨m, rest, hload, hvault, -, -, -, hn, hdata⟩ :=
    Manager.loadData_stored (m := construct (Manager.zeroed 0) 0x080F8000) stored_lockedFlash
  have hlen : 1 * 2 * 32 + 16 ≤ (Vault.blob (keyOf (bytes "p")) lockedEntries).length :=
    (length_blob _ lockedEntries).ge
  have hopens : ∀ key, opens key m.records.numOfPass m.encryptedData.val =
      opens key 1 (Vault.blob (keyOf (bytes "p")) lockedEntries) := fun key => by
    rw [hn, hdata, opens_append _ hlen]
  have hq : ¬ Passes m (bytes "q") := by
    rw [passes_iff, hopens, show CString.str 0 (bytes "q") = bytes "q" by decide, opens_wrong]
    exact Bool.false_ne_true
  have hp : Passes m (bytes "p") := by
    rw [passes_iff, hopens, show CString.str 0 (bytes "p") = bytes "p" by decide]
    exact congrArg Option.isSome (opens_blob _ lockedEntries)
  refine (failed_logins hload hvault (fun token h => ?_) (by decide) hp).2.2.1
  obtain rfl : token = bytes "q" := by simpa using h
  exact ⟨by decide, hq⟩

end PasswordManager.Vault
