import PasswordManager.Vault.History

/-!
# What is encrypted besides the strings

`addCharacters` fills a field up with clear bytes, but `strcpy` stops at the terminator: what
the field held behind it stays, and is encrypted.
-/

open Nor

namespace PasswordManager.Vault

/-! ## Padded fields -/

def Field.Padded (f : Field) : Prop := f.val = padded f.str

def WPTuple.Padded (t : WPTuple) : Prop := t.website.Padded ∧ t.password.Padded

/-- The bytes of the field behind the terminator of the new string are clear. -/
def ClearBehind (dst : Field) (src : Line) : Prop :=
  dst.val.drop (src.str.length + 1) = List.replicate (31 - src.str.length) blank

instance (dst : Field) (src : Line) : Decidable (ClearBehind dst src) :=
  inferInstanceAs (Decidable (_ = _))

/-- The edits that write only over fields that are clear behind the new string. -/
inductive CleanEdit (r : Records) : Records → Prop
  | add (website password : Line) (room : r.numOfPass ≠ maxStored)
      (hwebsite : ClearBehind (r.next room).website website)
      (hpassword : ClearBehind (r.next room).password password) :
      CleanEdit r (r.addPassword website password).2
  | remove (website : Line) {i : Nat} (found : r.getPosition website = some i) :
      CleanEdit r (r.remove website).2
  | change (website newPass : Line) {t : WPTuple} (found : r.Selects website t)
      (hpassword : ClearBehind t.password newPass) :
      CleanEdit r (r.changePassword website newPass).2

theorem strcpy_addCharacters_val (dst : Field) (src : Line) :
    (strcpy dst (addCharacters src)).val = src.str ++ 0 :: dst.val.drop (src.str.length + 1) := by
  have hstr : CString.str 0 (addCharacters src).field.val = src.str := str_addCharacters src
  have hval := CString.strcpy_eq (addCharacters src).terminated dst.val
  rwa [CString.strlen, hstr] at hval

theorem padded_strcpy_iff (dst : Field) (src : Line) :
    (strcpy dst (addCharacters src)).Padded ↔ ClearBehind dst src := by
  rw [Field.Padded, strcpy_addCharacters_val, str_strcpy, str_addCharacters, padded, ClearBehind]
  simp

/-! ## Clean histories -/

theorem CleanEdit.padded {r r' : Records} (h : ∀ t ∈ r.live, t.Padded) (he : CleanEdit r r') :
    ∀ t ∈ r'.live, t.Padded := by
  cases he with
  | add website password room hwebsite hpassword =>
    exact forall_addPassword h room
      ⟨(padded_strcpy_iff _ _).mpr hwebsite, (padded_strcpy_iff _ _).mpr hpassword⟩
  | remove website found => exact forall_remove h found
  | @change website newPass t found hpassword =>
    obtain ⟨l₁, l₂, hlive, -⟩ := id found
    exact forall_changePassword h found
      ⟨(h t (by simp [hlive])).1, (padded_strcpy_iff _ _).mpr hpassword⟩

theorem History.padded {r : Records} (h : History CleanEdit r) : ∀ t ∈ r.live, t.Padded := by
  induction h with
  | fresh h => simp [Records.live, h]
  | edit _ he ih => exact he.padded ih
  | reload _ ha hstored hcells hkey hopen ih =>
    rw [live_of_reload ha hstored hcells hkey hopen]
    exact ih

/-- The plaintext of a list of pairs of strings. -/
def plaintext (pairs : List (List Byte × List Byte)) : List Byte :=
  pairs.flatMap fun pair => padded pair.1 ++ padded pair.2

theorem flatten_of_padded {l : List WPTuple} (h : ∀ t ∈ l, t.Padded) :
    flatten l = plaintext (l.map WPTuple.pair) := by
  induction l with
  | nil => rfl
  | cons t l ih =>
    obtain ⟨hwebsite, hpassword⟩ := h t (List.mem_cons_self ..)
    have htail := ih fun t' ht' => h t' (List.mem_cons_of_mem _ ht')
    simp only [flatten, plaintext, List.map_cons, List.flatMap_cons] at htail ⊢
    rw [htail, hwebsite, hpassword]
    rfl

/-- After clean histories the blob depends on the pairs of strings and on the key alone, and
nothing but the padded strings is encrypted. -/
theorem blob_of_pairs {m₁ m₂ : Manager} (h₁ : History CleanEdit m₁.records)
    (h₂ : History CleanEdit m₂.records)
    (hpairs : m₁.records.live.map WPTuple.pair = m₂.records.live.map WPTuple.pair)
    (hkey : m₁.key = m₂.key) :
    structToArray m₁.records.slots m₁.records.numOfPass =
        plaintext (m₁.records.live.map WPTuple.pair) ∧
      m₁.encrypt.encryptedData.val.take (64 * m₁.records.numOfPass + 16) =
        m₂.encrypt.encryptedData.val.take (64 * m₂.records.numOfPass + 16) := by
  have hflat₁ := flatten_of_padded h₁.padded
  have hflat₂ := flatten_of_padded h₂.padded
  refine ⟨hflat₁, ?_⟩
  have hdata : m₁.encrypt.data = m₂.encrypt.data := by
    have hlen : m₁.records.live.length = m₂.records.live.length := by
      simpa using congrArg List.length hpairs
    rw [Manager.encrypt_data, Manager.encrypt_data, blob, blob, hflat₁, hflat₂, hpairs, hkey, hlen]
  exact hdata

theorem short_v : (bytes "v").length < 32 := by decide
theorem short_new : (bytes "new").length < 32 := by decide
theorem short_old : (bytes "old").length < 32 := by decide

def oneEntry (b : Byte) : Manager :=
  { Manager.zeroed 0 with
    records := ((Records.filled b).addPassword (line "v" short_v) (line "new" short_new)).2 }

def oneEntryChanged (b : Byte) : Manager :=
  { Manager.zeroed 0 with
    records :=
      (((Records.filled b).addPassword (line "v" short_v) (line "old" short_old)).2.changePassword
        (line "v" short_v) (line "new" short_new)).2 }

theorem blob_of_pairs_oneEntry :
    structToArray (oneEntry blank).records.slots 1 = plaintext [(bytes "v", bytes "new")] ∧
      (oneEntry blank).encrypt.encryptedData.val.take 80 =
        (oneEntryChanged blank).encrypt.encryptedData.val.take 80 := by
  have h₁ : History CleanEdit (oneEntry blank).records :=
    .edit (.fresh rfl) (.add _ _ (by decide) (by decide) (by decide))
  have h₂ : History CleanEdit (oneEntryChanged blank).records :=
    .edit (.edit (.fresh rfl) (.add _ _ (by decide) (by decide) (by decide)))
      (.change _ _ ⟨[], [], rfl, by decide, by simp⟩ (by decide))
  exact blob_of_pairs h₁ h₂ (by decide) rfl

/-- One entry, one key and two blobs: the memory behind the strings was not the same. -/
theorem stale_bytes_encrypted :
    History Edit (oneEntry 0x00).records ∧ History Edit (oneEntry 0x41).records ∧
      (oneEntry 0x00).records.live.map WPTuple.pair = (oneEntry 0x41).records.live.map WPTuple.pair ∧
      (oneEntry 0x00).key = (oneEntry 0x41).key ∧
      (oneEntry 0x00).encrypt.encryptedData.val.take (64 * 1 + 16) ≠
        (oneEntry 0x41).encrypt.encryptedData.val.take (64 * 1 + 16) := by
  refine ⟨.edit (.fresh rfl) (.add _ _ (by decide)), .edit (.fresh rfl) (.add _ _ (by decide)),
    by decide, rfl, fun heq => ?_⟩
  have hdata : (oneEntry 0x00).encrypt.data = (oneEntry 0x41).encrypt.data := heq
  rw [Manager.encrypt_data, Manager.encrypt_data] at hdata
  exact absurd (blob_injective hdata) (by decide)

end PasswordManager.Vault
