import PasswordManager.Vault.Session

/-!
# What the log of a session says

The master password in force, the vault on the flash and the key of the object follow from
the log and from what the key held before the session.
-/

namespace PasswordManager.Vault

open FlashDriver Md5

/-! ## Readings of the log -/

/-- The texts that became the master password. -/
def Event.master : Event → Option (List Byte)
  | .login text => some text
  | .prompted text => some text
  | .rekeyed text => some text
  | _ => none

/-- The master password in force. -/
def inForce (log : List Event) : Option (List Byte) := (log.filterMap Event.master).getLast?

/-- The key of a vault that is seen to be on the flash. -/
def Event.vault : Event → Option (Buf 32)
  | .login text => some (keyOf text)
  | .stored key => some key
  | _ => none

def HoldsVault (log : List Event) : Prop := ∃ e ∈ log, e.vault ≠ none

def keyAfter (initial : Buf 32) (log : List Event) : Buf 32 :=
  match inForce log with
  | some text => keyOf text
  | none => initial

theorem inForce_append (log : List Event) (e : Event) :
    inForce (log ++ [e]) = e.master.or (inForce log) := by
  cases h : e.master <;> simp [inForce, h]

theorem holdsVault_append (log : List Event) (e : Event) :
    HoldsVault (log ++ [e]) ↔ HoldsVault log ∨ e.vault ≠ none := by
  simp [HoldsVault, or_and_right, exists_or]

theorem keyAfter_of_none {e : Event} (h : e.master = none) (initial : Buf 32) (log : List Event) :
    keyAfter initial (log ++ [e]) = keyAfter initial log := by
  rw [keyAfter, inForce_append, h]
  rfl

theorem keyAfter_of_some {e : Event} {text : List Byte} (h : e.master = some text)
    (initial : Buf 32) (log : List Event) : keyAfter initial (log ++ [e]) = keyOf text := by
  rw [keyAfter, inForce_append, h]
  rfl

theorem eq_append_cons {log before after : List Event} {e e' : Event}
    (h : log ++ [e] = before ++ e' :: after) :
    (before = log ∧ e' = e) ∨ ∃ after', after = after' ++ [e] ∧ log = before ++ e' :: after' := by
  rcases List.eq_nil_or_concat after with rfl | ⟨after', last, rfl⟩
  · obtain ⟨rfl, heq⟩ := List.append_inj' h rfl
    cases heq
    exact .inl ⟨rfl, rfl⟩
  · rw [List.concat_eq_append, ← List.cons_append, ← List.append_assoc] at h
    obtain ⟨hlog, hlast⟩ := List.append_inj' h rfl
    cases hlast
    exact .inr ⟨after', List.concat_eq_append, hlog⟩

/-! ## The key of the object -/

/-- The key is the one that the log says, and so was every answer to a check. -/
structure Keyed (initial : Buf 32) (s : Session) : Prop where
  key : s.pm.key = keyAfter initial s.log
  answers : ∀ before key text ok after, s.log = before ++ .checked key text ok :: after →
    ok = decide ((md5 (padded text)).val = (keyAfter initial before).val.take 16)

theorem accepted_eq (key : Buf 32) (given : Line) :
    accepted key given = decide ((md5 (padded given.str)).val = key.val.take 16) := by
  rw [accepted, addCharacters_val]
  rfl

section
variable {initial : Buf 32} {s : Session}

theorem Keyed.console (h : Keyed initial s) (console : Console) :
    Keyed initial { s with console } := ⟨h.key, h.answers⟩

theorem Keyed.object (h : Keyed initial s) (pm : Manager) (flash : Flash)
    (hkey : pm.key = s.pm.key) : Keyed initial { s with pm, flash } := ⟨hkey.trans h.key, h.answers⟩

theorem Keyed.append (h : Keyed initial s) {e : Event} (hmaster : e.master = none)
    (hcheck : ∀ key text ok, e ≠ .checked key text ok) :
    Keyed initial { s with log := s.log ++ [e] } := by
  refine ⟨?_, ?_⟩
  · rw [keyAfter_of_none hmaster]
    exact h.key
  · intro before key text ok after heq
    rcases eq_append_cons heq with ⟨-, he⟩ | ⟨after', -, heq⟩
    · exact absurd he.symm (hcheck key text ok)
    · exact h.answers before key text ok after' heq

theorem Keyed.check (h : Keyed initial s) {given : Line} {ok : Bool}
    (hok : accepted s.pm.key given = ok) :
    Keyed initial { s with log := s.log ++ [.checked s.pm.key given.str ok] } := by
  refine ⟨?_, ?_⟩
  · rw [keyAfter_of_none rfl]
    exact h.key
  · intro before key text ok' after heq
    rcases eq_append_cons heq with ⟨rfl, he⟩ | ⟨after', -, heq⟩
    · cases he
      rw [← h.key, ← accepted_eq]
      exact hok.symm
    · exact h.answers before key text ok' after' heq

theorem Keyed.rekey (h : Keyed initial s) {e : Event} {text : List Byte}
    (hmaster : e.master = some text) :
    Keyed initial { s with pm := { s.pm with key := keyOf text }, log := s.log ++ [e] } := by
  refine ⟨?_, ?_⟩
  · rw [keyAfter_of_some hmaster]
  · intro before key t ok after heq
    rcases eq_append_cons heq with ⟨-, rfl⟩ | ⟨after', -, heq⟩
    · cases hmaster
    · exact h.answers before key t ok after' heq

theorem Keyed.store (h : Keyed initial s) : Keyed initial (store s) := by
  rcases store_cases s with ⟨-, heq⟩ | ⟨-, heq⟩
  · rw [heq]
    exact (h.append (e := .stored s.pm.key) rfl nofun).object _ _ rfl
  · rw [heq]
    exact h.object _ _ rfl

theorem Started.keyed {memory : Manager} {address : Nat} {flash : Flash}
    (h : Started memory address flash s) : Keyed memory.key s := by
  cases h with
  | clear console h => exact ⟨rfl, by simp⟩
  | login pm console text h hfirst hchanged haddress hkey hn hopens =>
    refine ⟨hkey, fun before key t ok after heq => ?_⟩
    obtain ⟨-, he⟩ | ⟨after', -, heq⟩ := @eq_append_cons [] before after _ _ heq
    · cases he
    · simp at heq

theorem Keyed.effect (h : Keyed initial s) {letter : Byte} {s' : Session}
    (he : Effect letter s s') : Keyed initial s' := by
  cases he with
  | idle console => exact h.console console
  | shown console entries => exact (h.console console).append rfl nofun
  | edit console hedit => exact (h.console console).object _ _ rfl
  | wrongMaster console given hgiven => exact ((h.console console).check hgiven).object _ _ rfl
  | newMaster console given new hgiven =>
    exact (((h.console console).check hgiven).object { s.pm with changed := true } s.flash rfl).rekey rfl
  | wrongDelete console given hgiven => exact (h.console console).check hgiven
  | deleteFailed console given hgiven hflash => exact ((h.console console).check hgiven).object _ _ rfl
  | commit console hletter hchanged hfirst => exact (h.console console).store
  | firstCommit console line hletter hchanged hfirst => exact ((h.console console).rekey rfl).store

theorem Keyed.ending (h : Keyed initial s) {s' : Session} (he : Ending s s') :
    Keyed initial s' := by
  cases he with
  | left console => exact h.console console
  | deleted console given hgiven hflash => exact ((h.console console).check hgiven).object _ _ rfl

theorem Reached.keyed {memory : Manager} {address : Nat} {flash : Flash} {console : Console}
    (h : Reached memory address flash console s) : Keyed memory.key s :=
  h.induct (fun _ hs => hs.keyed) (fun _ _ _ hs he => hs.effect he) fun _ _ hs he => hs.ending he

end

end PasswordManager.Vault
