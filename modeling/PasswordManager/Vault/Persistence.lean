import PasswordManager.Vault.Log

/-!
# What was committed is found again

At a prompt with nothing to commit, a new object finds the vault of the session on the flash.
-/

open Nor

namespace PasswordManager.Vault

open FlashDriver

/-! ## The invariant -/

/-- What holds at every prompt. The two sides of the flash hold when nothing has to be
committed. -/
structure Settled (address : Nat) (s : Session) : Prop where
  place : s.pm.address = address
  first : inForce s.log = none → s.pm.firstUse = true
  known : HoldsVault s.log → inForce s.log ≠ none
  stored : s.pm.changed = false → HoldsVault s.log →
    ∃ data, Stored s.flash.cells address s.pm.records.numOfPass data ∧
      opens s.pm.key s.pm.records.numOfPass data = some s.pm.records.live
  clear : s.pm.changed = false → ¬ HoldsVault s.log →
    loadData s.flash.cells address = .firstUse

theorem Started.settled {memory : Manager} {address : Nat} {flash : Flash} {s : Session}
    (hslot : SlotContent flash.cells address) (h : Started memory address flash s) :
    Settled address s := by
  cases h with
  | clear console h =>
    have hnone : ¬ HoldsVault [] := by simp [HoldsVault]
    exact ⟨rfl, fun _ => rfl, fun h => absurd h hnone,
      fun _ h => absurd h hnone, fun _ _ => h⟩
  | @login pm console text n data h hfirst hchanged haddress hkey hn hopens =>
    have hstored : Stored flash.cells address n data := by
      rcases hslot with hclear | ⟨n', data', hslot⟩
      · rw [loadData_of_ne hclear] at h
        cases h
      · rw [hslot.loadData] at h
        cases h
        exact hslot
    have hforce : inForce [.login text] = some text := rfl
    have hholds : HoldsVault [.login text] := ⟨_, List.mem_singleton_self _, by simp [Event.vault]⟩
    subst hn
    refine ⟨haddress, ?_, ?_, fun _ _ => ⟨data, hstored, hopens⟩, fun _ h => absurd hholds h⟩
    · intro h
      cases hforce.symm.trans h
    · rintro - h
      cases hforce.symm.trans h

section
variable {address : Nat} {s : Session}

theorem Settled.append (h : Settled address s) {e : Event} (hmaster : e.master = none)
    (hvault : e.vault = none) : Settled address { s with log := s.log ++ [e] } := by
  have hforce : inForce (s.log ++ [e]) = inForce s.log := by rw [inForce_append, hmaster]; rfl
  have hholds : HoldsVault (s.log ++ [e]) ↔ HoldsVault s.log := by
    rw [holdsVault_append, hvault]
    simp
  refine ⟨h.place, ?_, ?_, ?_, ?_⟩ <;> simp only [hforce, hholds]
  · exact h.first
  · exact h.known
  · exact h.stored
  · exact h.clear

theorem Settled.touch (h : Settled address s) (records : Records) :
    Settled address { s with pm := { s.pm with records, changed := true } } :=
  ⟨h.place, h.first, h.known, (by cases ·), (by cases ·)⟩

theorem Settled.console (h : Settled address s) (console : Console) :
    Settled address { s with console } :=
  ⟨h.place, h.first, h.known, h.stored, h.clear⟩

theorem Settled.rekey (h : Settled address s) (hchanged : s.pm.changed = true) {text : List Byte}
    {e : Event} (hmaster : e.master = some text) :
    Settled address
      { s with pm := { s.pm with key := keyOf text }, log := s.log ++ [e] } := by
  have hforce : inForce (s.log ++ [e]) = some text := by rw [inForce_append, hmaster]; rfl
  refine ⟨h.place, ?_, ?_, fun hc => absurd hchanged (by simpa using hc),
    fun hc => absurd hchanged (by simpa using hc)⟩
  · intro hn
    cases hforce.symm.trans hn
  · rintro - hn
    cases hforce.symm.trans hn

theorem Settled.store (h : Settled address s) (ha : SlotAddress address)
    (hchanged : s.pm.changed = true) (hknown : inForce s.log ≠ none) :
    Settled address (store s) := by
  rcases store_cases s with ⟨hok, heq⟩ | ⟨-, heq⟩
  · rw [heq]
    have hforce : inForce (s.log ++ [.stored s.pm.key]) = inForce s.log := inForce_append _ _
    have hholds : HoldsVault (s.log ++ [.stored s.pm.key]) :=
      ⟨_, List.mem_append_right _ (List.mem_singleton_self _), nofun⟩
    have hstored := storeData_stored (by rw [Manager.encrypt_address, h.place]; exact ha) hok
    rw [Manager.encrypt_data, Manager.encrypt_address, h.place, Manager.encrypt_records] at hstored
    have hopens := opens_blob s.pm.key s.pm.records.live
    rw [Records.length_live] at hopens
    refine ⟨h.place, ?_, fun _ => ?_, fun _ _ => ⟨_, hstored, hopens⟩,
      fun _ hc => absurd hholds hc⟩
    · rw [hforce]; exact h.first
    · rw [hforce]; exact hknown
  · rw [heq]
    exact ⟨h.place, h.first, h.known,
      fun hc => absurd hchanged (by simpa using hc), fun hc => absurd hchanged (by simpa using hc)⟩

theorem Settled.effect (h : Settled address s) (ha : SlotAddress address) {letter : Byte}
    {s' : Session} (he : Effect letter s s') : Settled address s' := by
  cases he with
  | idle console => exact h.console console
  | shown console entries => exact (h.console console).append rfl rfl
  | edit console hedit => exact (h.console console).touch _
  | wrongMaster console given hgiven =>
    exact ((h.console console).touch s.pm.records).append rfl rfl
  | newMaster console given new hgiven =>
    exact (((h.console console).touch s.pm.records).append rfl rfl).rekey rfl rfl
  | wrongDelete console given hgiven => exact (h.console console).append rfl rfl
  | deleteFailed console given hgiven hflash =>
    have hcells := deleteData_failed hflash
    have hlog := (h.console console).append (e := .checked s.pm.key given.str true) rfl rfl
    refine ⟨hlog.place, hlog.first, hlog.known, ?_, ?_⟩
    · rw [hcells]; exact hlog.stored
    · rw [hcells]; exact hlog.clear
  | commit console hletter hchanged hfirst =>
    refine (h.console console).store ha hchanged fun hnone => ?_
    rw [h.first hnone] at hfirst
    cases hfirst
  | firstCommit console line hletter hchanged hfirst =>
    refine ((h.console console).rekey hchanged rfl).store ha hchanged ?_
    rw [inForce_append]
    simp [Event.master]

theorem Prompt.settled {memory : Manager} {flash : Flash} {console : Console}
    (ha : SlotAddress address) (hslot : SlotContent flash.cells address)
    (h : Prompt memory address flash console s) : Settled address s :=
  h.induct (fun _ hs => hs.settled hslot) fun _ _ _ hs he => hs.effect ha he

end

/-- At a prompt with nothing to commit, a new object finds the session's entries under the
master password in force, or, when nothing was ever stored, an empty slot. -/
theorem persistence {memory : Manager} {address : Nat} {flash : Flash} {console : Console}
    {s : Session} (ha : SlotAddress address) (hslot : SlotContent flash.cells address)
    (hprompt : Prompt memory address flash console s) (hclean : s.pm.changed = false)
    (other : Manager) :
    (HoldsVault s.log → ∃ text, inForce s.log = some text ∧
      ∀ password : Line, password.str = text →
        ∃ found, reopen other address s.flash.cells password = some (true, found) ∧
          found.records.numOfPass = s.pm.records.numOfPass ∧
          found.records.live = s.pm.records.live) ∧
    (¬ HoldsVault s.log → ∃ found, (construct other address).loadData s.flash.cells = some found ∧
      found.firstUse = true ∧ found.records.numOfPass = 0) := by
  have hsettled := hprompt.settled ha hslot
  have hkey := (Reached.keyed (.inl hprompt)).key
  constructor
  · intro hholds
    obtain ⟨text, hforce⟩ := Option.ne_none_iff_exists'.mp (hsettled.known hholds)
    obtain ⟨data, hstored, hopens⟩ := hsettled.stored hclean hholds
    refine ⟨text, hforce, fun password hpassword => ?_⟩
    rw [hkey, keyAfter, hforce, ← hpassword] at hopens
    exact reopen_stored hstored hopens other
  · intro hholds
    have hclear := hsettled.clear hclean hholds
    have hload : (construct other address).loadData s.flash.cells =
        some { construct other address with firstUse := true } := by
      unfold Manager.loadData
      rw [show (construct other address).address = address from rfl, hclear]
      rfl
    exact ⟨_, hload, rfl, rfl⟩

theorem persistence_first_commit :
    ∃ s, Prompt (Manager.zeroed 0) 0x080F8000 Flash.cleared
        (typed ["add", "site", "secret", "commit", "master"]) s ∧
      ∃ text, inForce s.log = some text ∧ ∀ password : Line, password.str = text →
        ∃ found, reopen (Manager.zeroed 0) 0x080F8000 s.flash.cells password = some (true, found) ∧
          found.records.numOfPass = s.pm.records.numOfPass ∧
          found.records.live = s.pm.records.live := by
  obtain ⟨s₀, s₁, s₂, hbegin, hadd, hcommit⟩ :
      ∃ s₀ s₁ s₂, begin (Manager.zeroed 0) 0x080F8000 Flash.cleared
          (typed ["add", "site", "secret", "commit", "master"]) = .ok s₀ ∧
        Turn s₀ s₁ ∧ Turn s₁ (committed s₂) :=
    ⟨_, _, _, rfl, rfl, turn_of_store rfl fun _ => rfl⟩
  have hprompt : Prompt _ _ _ _ (committed s₂) := ⟨s₀, hbegin, .tail (.single hadd) hcommit⟩
  exact ⟨_, hprompt, (persistence slotAddress_standard (.inl (by decide)) hprompt rfl
    (Manager.zeroed 0)).1 ⟨_, List.mem_append_right _ (List.mem_singleton_self _), nofun⟩⟩

end PasswordManager.Vault
