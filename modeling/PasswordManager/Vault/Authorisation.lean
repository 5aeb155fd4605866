import PasswordManager.Vault.SafeRuns

/-!
# Which texts pass the check of the master password

No constructor sets the key. Until a master password is established the check compares with
what the memory of the object held before.
-/

namespace PasswordManager.Vault

open FlashDriver Md5

/-- Each check that was passed has a master password to show for it, with the same hash. -/
def Authorised (log : List Event) : Prop :=
  ∀ before key text after, log = before ++ .checked key text true :: after →
    ∃ q, inForce before = some q ∧ md5 (padded text) = md5 (padded q)

/-- No text that was typed at a check before there was a master password hashes to the first
half of the key bytes that the object found in its memory. -/
def Unguessed (initial : Buf 32) (log : List Event) : Prop :=
  ∀ before key text ok after, log = before ++ .checked key text ok :: after →
    inForce before = none → (md5 (padded text)).val ≠ initial.val.take 16

theorem Keyed.authorised_iff {initial : Buf 32} {s : Session} (h : Keyed initial s) :
    Authorised s.log ↔ Unguessed initial s.log := by
  constructor
  · intro hauth before key text ok after heq hnone hguess
    have hok := h.answers before key text ok after heq
    rw [keyAfter, hnone, decide_eq_true hguess] at hok
    subst hok
    obtain ⟨q, hq, -⟩ := hauth before key text after heq
    cases hnone.symm.trans hq
  · intro hunguessed before key text after heq
    have hok := of_decide_eq_true (h.answers before key text true after heq).symm
    cases hforce : inForce before with
    | none =>
      rw [keyAfter, hforce] at hok
      exact absurd hok (hunguessed before key text true after heq hforce)
    | some q =>
      rw [keyAfter, hforce, take_keyOf] at hok
      exact ⟨q, rfl, Subtype.ext hok⟩

/-- In every run, a check is passed only with the master password of the session, exactly when
no early text hits what was left in the key's memory. -/
theorem authorisation {memory : Manager} {address : Nat} {flash : Flash} {console : Console}
    {s : Session} (h : Reached memory address flash console s) :
    Authorised s.log ↔ Unguessed memory.key s.log :=
  h.keyed.authorised_iff

/-- A check that is refused, a first commit, and a check that is passed. -/
theorem authorisation_clear_slot :
    ∃ s, Reached (Manager.zeroed 0) 0x080F8000 Flash.cleared (typed ["masterPassword", "guess",
        "add", "a", "b", "commit", "first", "masterPassword", "first", "new"]) s ∧
      s.log = [.checked (Field.filled 0) (bytes "guess") false, .prompted (bytes "first"),
        .stored (keyOf (bytes "first")), .checked (keyOf (bytes "first")) (bytes "first") true,
        .rekeyed (bytes "new")] ∧
      (Authorised s.log ↔ Unguessed (Manager.zeroed 0).key s.log) := by
  set words := typed ["masterPassword", "guess", "add", "a", "b", "commit", "first", "masterPassword",
    "first", "new"]
  have hload : loadData Flash.cleared.cells 0x080F8000 = .firstUse := loadData_of_ne (read_ne_ident rfl)
  have hshows := @unused_shows (Manager.zeroed 0) _ _ words slotAddress_standard (fun _ => rfl) hload
  obtain ⟨t₁, t₂, t₃, hwrong, hadd, hcommit, hkey, hstdin, hlog⟩ :
      ∃ t₁ t₂ t₃, Safe.Turn (Safe.unused (Field.filled 0) words.stdin) t₁ ∧ t₁.Turn t₂ ∧ t₂.Turn t₃ ∧
        t₃.key = keyOf (bytes "first") ∧
        t₃.stdin = [bytes "masterPassword", bytes "first", bytes "new"] ∧
        t₃.log = [.checked (Field.filled 0) (bytes "guess") false, .prompted (bytes "first"),
          .stored (keyOf (bytes "first"))] :=
    ⟨_, _, _, Safe.wrong_turn rfl (by decide) rfl (by decide) (by decide +kernel), rfl, rfl, rfl, rfl, rfl⟩
  have hrekey := Safe.rekey_turn hstdin (by decide) rfl (by decide) hkey (by decide)
  obtain ⟨s, hturns, hend⟩ := turns_back hshows
    ((((Relation.ReflTransGen.single hwrong).tail hadd).tail hcommit).tail hrekey)
  have hreached : Reached (Manager.zeroed 0) 0x080F8000 Flash.cleared words s :=
    .inl ⟨_, begin_unused hload, hturns⟩
  refine ⟨s, hreached, ?_, authorisation hreached⟩
  rw [← hend.log, hlog, hkey]
  rfl

/-! ## A key that was left behind -/

def leftOver (text : List Byte) : Manager := { Manager.zeroed 0 with key := keyOf text }

theorem accepted_keyOf {given : Line} : accepted (keyOf given.str) given = true := by
  rw [accepted_eq, take_keyOf, decide_eq_true rfl]

theorem masterPassword_of_accepted {s : Session} {given new : Line} {console console' : Console}
    (hgiven : s.console.scanNew = .ok (given, console)) (hok : accepted s.pm.key given = true)
    (hnew : console.scanNew = .ok (new, console')) :
    masterPassword s = .ok (.again { s with
      console := console'
      pm := { s.pm with changed := true }.createKey new
      log := s.log ++ [.checked s.pm.key given.str true] ++ [.rekeyed new.str] }) := by
  have hcheck : checkMasterPassword { s with pm := { s.pm with changed := true } } =
      .ok (true, { s with
        console
        pm := { s.pm with changed := true }
        log := s.log ++ [.checked s.pm.key given.str true] }) := by
    have hscan := @checkMasterPassword_eq { s with pm := { s.pm with changed := true } } _ _ hgiven
    dsimp only at hscan
    rwa [hok] at hscan
  have hscan : console.alloc.2.scanPassword console.alloc.1 = .ok (new, console') := hnew
  unfold masterPassword changeMasterPassword
  rw [hcheck]
  exact congrArg (· >>= _) (bind_ok hscan _)

/-- On a clear slot, nothing stored and no master password set: the text of another session's
key passes the check and sets a master password. -/
theorem leftOver_passes :
    ∃ s, Reached (leftOver (bytes "guess")) 0x080F8000 Flash.cleared
        (typed ["masterPassword", "guess", "new"]) s ∧ ¬ Authorised s.log := by
  obtain ⟨s₀, s, hbegin, hturn, hlog⟩ :
      ∃ s₀ s, begin (leftOver (bytes "guess")) 0x080F8000 Flash.cleared
          (typed ["masterPassword", "guess", "new"]) = .ok s₀ ∧ Turn s₀ s ∧
        s.log = [] ++ .checked (keyOf (bytes "guess")) (bytes "guess") true ::
          [.rekeyed (bytes "new")] :=
    ⟨_, _, rfl, masterPassword_of_accepted rfl accepted_keyOf rfl, rfl⟩
  refine ⟨s, .inl ⟨s₀, hbegin, .single hturn⟩, fun hauth => ?_⟩
  obtain ⟨q, hq, -⟩ := hauth _ _ _ _ hlog
  cases hq

end PasswordManager.Vault
