import PasswordManager.Vault.Store

/-!
# The array as a multiset of pairs

Whatever the memory held when the array was allocated, the entries in use are a multiset of
pairs of strings, through every history of edits, commits and reloads.
-/

open Nor

namespace PasswordManager.Vault

open FlashDriver

/-! ## Histories -/

/-- The arrays that runs of the program reach with some kind of edits. A reload is a commit that
gets through and a new object that opens it with the master password. -/
inductive History (edits : Records → Records → Prop) : Records → Prop
  | fresh {r : Records} (h : r.numOfPass = 0) : History edits r
  | edit {r r' : Records} (h : History edits r) (hedit : edits r r') : History edits r'
  | reload {m memory found : Manager} {f : Flash} {c : Cells} {password : Line}
      (h : History edits m.records) (ha : SlotAddress m.address)
      (hstored : (storeData m.encrypt f).1 = true)
      (hcells : ∀ x, m.address ≤ x → x < m.address + 0x8000 →
        (storeData m.encrypt f).2.cells x = c x)
      (hkey : keyOf password.str = m.key)
      (hopen : reopen memory m.address c password = some (true, found)) :
      History edits found.records

theorem live_of_reload {m memory found : Manager} {f : Flash} {c : Cells} {password : Line}
    (ha : SlotAddress m.address) (hstored : (storeData m.encrypt f).1 = true)
    (hcells : ∀ x, m.address ≤ x → x < m.address + 0x8000 →
      (storeData m.encrypt f).2.cells x = c x)
    (hkey : keyOf password.str = m.key)
    (hopen : reopen memory m.address c password = some (true, found)) :
    found.records.live = m.records.live := by
  have hslot := storeData_stored (m := m.encrypt) ha hstored
  rw [Manager.encrypt_data, Manager.encrypt_address, Manager.encrypt_records] at hslot
  have hopens : opens (keyOf password.str) m.records.numOfPass (blob m.key m.records.live) =
      some m.records.live := by
    rw [hkey, ← Records.length_live]
    exact opens_blob _ _
  obtain ⟨found', hfound, -, hlive⟩ :=
    reopen_stored (hslot.congr hcells) hopens memory
  rw [hopen] at hfound
  cases hfound
  exact hlive

/-! ## Pairs of strings -/

def WPTuple.pair (t : WPTuple) : List Byte × List Byte := (t.website.str, t.password.str)

def Records.pairs (r : Records) : Multiset (List Byte × List Byte) := r.live.map WPTuple.pair

def Records.Has (r : Records) (website : Line) : Prop := ∃ password, (website.str, password) ∈ r.pairs

/-- The last entry with the website. -/
def Records.Selects (r : Records) (website : Line) (t : WPTuple) : Prop :=
  ∃ l₁ l₂, r.live = l₁ ++ t :: l₂ ∧ t.website.str = website.str ∧
    ∀ t' ∈ l₂, t'.website.str ≠ website.str

section
variable {r : Records} {website password : Line}

theorem card_pairs (r : Records) : r.pairs.card = r.numOfPass := by
  simp [Records.pairs]

theorem has_iff : r.Has website ↔ ∃ t ∈ r.live, t.website.str = website.str := by
  simp only [Records.Has, Records.pairs, Multiset.mem_coe, List.mem_map, WPTuple.pair, Prod.mk.injEq]
  constructor
  · rintro ⟨p, t, ht, hw, -⟩
    exact ⟨t, ht, hw⟩
  · rintro ⟨t, ht, hw⟩
    exact ⟨_, t, ht, hw, rfl⟩

theorem getPosition_some {i : Nat} (h : r.getPosition website = some i) :
    ∃ l₁ t l₂, r.live = l₁ ++ t :: l₂ ∧ l₁.length = i ∧ t.website.str = website.str ∧
      ∀ t' ∈ l₂, t'.website.str ≠ website.str := by
  rw [Records.getPosition_eq] at h
  simpa using Lists.split_of_lastIdx? h

theorem getPosition_of_selects {l₁ l₂ : List WPTuple} {t : WPTuple}
    (hlive : r.live = l₁ ++ t :: l₂) (ht : t.website.str = website.str)
    (hlater : ∀ t' ∈ l₂, t'.website.str ≠ website.str) :
    r.getPosition website = some l₁.length := by
  rw [Records.getPosition_eq, hlive]
  exact Lists.lastIdx?_append_cons (by simpa using ht) (by simpa using hlater)

theorem getPosition_none : r.getPosition website = none ↔ ¬ r.Has website := by
  rw [Records.getPosition_eq, Lists.lastIdx?_eq_none, has_iff]
  simp

/-! ## One operation -/

theorem addPassword_pairs (h : r.numOfPass ≠ maxStored) :
    (r.addPassword website password).2.pairs = (website.str, password.str) ::ₘ r.pairs := by
  rw [Records.pairs, (Records.addPassword_room h website password).2, List.map_append]
  simp only [Records.pairs, List.map_cons, List.map_nil, WPTuple.pair, WPTuple.overwrite,
    str_strcpy, str_addCharacters]
  rw [Multiset.cons_coe]
  exact Multiset.coe_eq_coe.mpr (List.perm_append_singleton _ _)

theorem remove_pairs (h : r.Has website) :
    (r.remove website).1 = true ∧
      ∃ old, r.pairs = (website.str, old) ::ₘ (r.remove website).2.pairs := by
  obtain ⟨i, hi⟩ := Option.ne_none_iff_exists'.mp fun hnone => getPosition_none.mp hnone h
  obtain ⟨l₁, t, l₂, hlive, rfl, ht, -⟩ := getPosition_some hi
  obtain ⟨htrue, hremoved⟩ := Records.remove_some hi
  have hlen : l₁.length < r.live.length := by simp [hlive]
  have hcoe := Lists.coe_swapRemove r.live l₁.length hlen
  refine ⟨htrue, t.password.str, ?_⟩
  have hpair : (website.str, t.password.str) = WPTuple.pair r.live[l₁.length] := by
    simp [WPTuple.pair, hlive, ← ht]
  rw [Records.pairs, Records.pairs, hremoved, hpair, ← Multiset.map_coe, ← Multiset.map_coe, hcoe,
    Multiset.map_cons]

theorem changePassword_live {l₁ l₂ : List WPTuple} {t : WPTuple}
    (hlive : r.live = l₁ ++ t :: l₂) (ht : t.website.str = website.str)
    (hlater : ∀ t' ∈ l₂, t'.website.str ≠ website.str) :
    (r.changePassword website password).1 = true ∧
      (r.changePassword website password).2.live = l₁ ++ t.withPassword password :: l₂ := by
  have hpos := getPosition_of_selects hlive ht hlater
  rw [Records.changePassword, hpos]
  refine ⟨rfl, ?_⟩
  rw [Records.live_setPassword, hlive, Lists.modify_append_cons]

theorem searchPassword_selects {t : WPTuple} (h : r.Selects website t) :
    r.searchPassword website = some (printed t) := by
  obtain ⟨l₁, l₂, hlive, ht, hlater⟩ := h
  have hlt : l₁.length < r.numOfPass := by
    have hlen := r.length_live
    simp only [hlive, List.length_append, List.length_cons] at hlen
    omega
  rw [Records.searchPassword, getPosition_of_selects hlive ht hlater]
  change r.slots[l₁.length]?.map printed = some (printed t)
  rw [← r.getElem?_live hlt, hlive, List.getElem?_append_right (Nat.le_refl _), Nat.sub_self]
  rfl

/-! ## What holds of every entry -/

section
variable {P : WPTuple → Prop} (h : ∀ t ∈ r.live, P t)
include h

theorem forall_addPassword (room : r.numOfPass ≠ maxStored)
    (hnew : P ((r.next room).overwrite website password)) :
    ∀ t ∈ (r.addPassword website password).2.live, P t := by
  rw [(Records.addPassword_room room website password).2]
  intro t ht
  rcases List.mem_append.mp ht with ht | ht
  · exact h t ht
  · rwa [List.mem_singleton.mp ht]

theorem forall_remove {i : Nat} (found : r.getPosition website = some i) :
    ∀ t ∈ (r.remove website).2.live, P t := by
  rw [(Records.remove_some found).2]
  exact fun t ht => h t (Lists.mem_of_mem_swapRemove ht)

theorem forall_changePassword {t : WPTuple} (found : r.Selects website t)
    (hnew : P (t.withPassword password)) :
    ∀ t ∈ (r.changePassword website password).2.live, P t := by
  obtain ⟨l₁, l₂, hlive, ht, hlater⟩ := found
  rw [(changePassword_live hlive ht hlater).2]
  rw [hlive] at h
  intro t' ht'
  rcases List.mem_append.mp ht' with ht' | ht'
  · exact h t' (List.mem_append_left _ ht')
  rcases List.mem_cons.mp ht' with rfl | ht'
  · exact hnew
  · exact h t' (List.mem_append_right _ (List.mem_cons_of_mem _ ht'))

end

theorem Edit.terminated {r' : Records} (h : ∀ t ∈ r.live, t.Terminated) (he : Edit r r') :
    ∀ t ∈ r'.live, t.Terminated := by
  cases he with
  | add website password room =>
    exact forall_addPassword h room ⟨terminated_strcpy _ _, terminated_strcpy _ _⟩
  | remove website found => exact forall_remove h found
  | change website newPass found =>
    obtain ⟨l₁, t, l₂, hlive, -, ht, hlater⟩ := getPosition_some found
    exact forall_changePassword h ⟨l₁, l₂, hlive, ht, hlater⟩
      ⟨(h t (by simp [hlive])).1, terminated_strcpy _ _⟩

theorem History.terminated (h : History Edit r) : ∀ t ∈ r.live, t.Terminated := by
  induction h with
  | fresh h => simp [Records.live, h]
  | edit _ he ih => exact he.terminated ih
  | reload _ ha hstored hcells hkey hopen ih =>
    rw [live_of_reload ha hstored hcells hkey hopen]
    exact ih

end

/-! ## The refinement -/

/-- The array behaves as the multiset of its pairs. -/
structure Refines (r : Records) : Prop where
  terminated : ∀ t ∈ r.live, 0 ∈ t.website.val ∧ 0 ∈ t.password.val
  add : ∀ website password : Line, r.pairs.card < maxStored →
    (r.addPassword website password).1 = true ∧
      (r.addPassword website password).2.pairs = (website.str, password.str) ::ₘ r.pairs
  addFull : ∀ website password : Line, ¬ r.pairs.card < maxStored →
    r.addPassword website password = (false, r)
  remove : ∀ website, r.Has website → (r.remove website).1 = true ∧
    ∃ old, r.pairs = (website.str, old) ::ₘ (r.remove website).2.pairs
  removeMissing : ∀ website, ¬ r.Has website → r.remove website = (false, r)
  change : ∀ website newPass, r.Has website → (r.changePassword website newPass).1 = true ∧
    (∃ old rest, r.pairs = (website.str, old) ::ₘ rest ∧
      (r.changePassword website newPass).2.pairs = (website.str, newPass.str) ::ₘ rest) ∧
    ∃ t, t.pair = (website.str, newPass.str) ∧
      (r.changePassword website newPass).2.Selects website t ∧
      (r.changePassword website newPass).2.searchPassword website = some (printed t)
  changeMissing : ∀ website newPass, ¬ r.Has website → r.changePassword website newPass = (false, r)
  search : ∀ website, r.Has website →
    ∃ t, r.Selects website t ∧ r.searchPassword website = some (printed t)
  searchMissing : ∀ website, ¬ r.Has website → r.searchPassword website = none

theorem refines_of_terminated {r : Records} (h : ∀ t ∈ r.live, t.Terminated) : Refines r where
  terminated := h
  add website password hroom := by
    have hne : r.numOfPass ≠ maxStored := by rw [card_pairs] at hroom; omega
    exact ⟨(Records.addPassword_room hne website password).1, addPassword_pairs hne⟩
  addFull website password hfull := by
    rw [card_pairs] at hfull
    exact Records.addPassword_full (Nat.le_antisymm r.bound (Nat.le_of_not_lt hfull)) _ _
  remove website hhas := remove_pairs hhas
  removeMissing website hmissing := Records.remove_none (getPosition_none.mpr hmissing)
  change website newPass hhas := by
    obtain ⟨i, hi⟩ := Option.ne_none_iff_exists'.mp fun hnone => getPosition_none.mp hnone hhas
    obtain ⟨l₁, t, l₂, hlive, -, ht, hlater⟩ := getPosition_some hi
    obtain ⟨htrue, hchanged⟩ : _ ∧ (r.changePassword website newPass).2.live = _ :=
      changePassword_live hlive ht hlater
    have hpair : (t.withPassword newPass).pair = (website.str, newPass.str) := by
      simp [WPTuple.pair, WPTuple.withPassword, ht]
    have hselects : (r.changePassword website newPass).2.Selects website (t.withPassword newPass) :=
      ⟨l₁, l₂, hchanged, ht, hlater⟩
    refine ⟨htrue, ⟨t.password.str, (l₁ ++ l₂).map WPTuple.pair, ?_, ?_⟩, _, hpair, hselects,
      searchPassword_selects hselects⟩
    · rw [Records.pairs, hlive, List.map_append, List.map_append, List.map_cons, WPTuple.pair, ht]
      exact Multiset.coe_eq_coe.mpr List.perm_middle
    · rw [Records.pairs, hchanged, List.map_append, List.map_append, List.map_cons, hpair]
      exact Multiset.coe_eq_coe.mpr List.perm_middle
  changeMissing website newPass hmissing := by
    rw [Records.changePassword, getPosition_none.mpr hmissing]
  search website hhas := by
    obtain ⟨i, hi⟩ := Option.ne_none_iff_exists'.mp fun hnone => getPosition_none.mp hnone hhas
    obtain ⟨l₁, t, l₂, hlive, -, ht, hlater⟩ := getPosition_some hi
    have hselects : r.Selects website t := ⟨l₁, l₂, hlive, ht, hlater⟩
    exact ⟨t, hselects, searchPassword_selects hselects⟩
  searchMissing website hmissing := by
    rw [Records.searchPassword, getPosition_none.mpr hmissing]

/-- In every history the array refines the multiset of its pairs of strings. -/
theorem history_refines {r : Records} (h : History Edit r) : Refines r :=
  refines_of_terminated h.terminated

def line (word : String) (h : (bytes word).length < 32) : Line := Line.put (bytes word) h (Field.filled 0)

def twoPasswords : Records :=
  let r := Records.filled 0
  let r := (r.addPassword (line "w" (by decide)) (line "x" (by decide))).2
  let r := (r.addPassword (line "v" (by decide)) (line "old" (by decide))).2
  (r.addPassword (line "v" (by decide)) (line "new" (by decide))).2

theorem history_twoPasswords : History Edit twoPasswords :=
  .edit (.edit (.edit (.fresh rfl) (.add _ _ (by decide))) (.add _ _ (by decide)))
    (.add _ _ (by decide))

theorem history_refines_twoPasswords : Refines twoPasswords := history_refines history_twoPasswords

end PasswordManager.Vault
