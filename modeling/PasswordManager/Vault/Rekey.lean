import PasswordManager.Vault.SafeRuns

/-!
# Who can give a vault a new master password

`firstUse` stays set after the first commit, so a second commit of that session asks for a
master password again and needs no old one.
-/

namespace PasswordManager.Vault

open FlashDriver Alike

/-- The old master password was given to the `masterPassword` command, then a new one. -/
def Rekeys (key : Buf 32) (events : List Event) : Prop :=
  ∃ l text new r, events = l ++ .checked key text true :: .rekeyed new :: r

/-- A vault that is stored after another one has its key, unless the old master password was
given in between. -/
def RekeyedWithOld (log : List Event) : Prop :=
  ∀ before e key mid key' after, log = before ++ e :: (mid ++ .stored key' :: after) →
    e.vault = some key → key' = key ∨ Rekeys key mid

/-- No commit asks for a master password when there is a vault. -/
def NeverAsksAgain (log : List Event) : Prop :=
  ∀ before text after, log = before ++ .prompted text :: after → ¬ HoldsVault before

/-- The next command is a commit that asks, though there is a vault. -/
def AsksAgain (s : Session) : Prop :=
  s.letter = some (ascii 'c') ∧ s.pm.changed = true ∧ s.pm.firstUse = true ∧ HoldsVault s.log

def CarefulPrompt (memory : Manager) (address : Nat) (flash : Flash) (console : Console)
    (s : Session) : Prop :=
  ∃ s₀, begin memory address flash console = .ok s₀ ∧
    Relation.ReflTransGen (fun s s' => Turn s s' ∧ ¬ AsksAgain s) s₀ s

theorem Rekeys.append {key : Buf 32} {events : List Event} (h : Rekeys key events)
    (more : List Event) : Rekeys key (events ++ more) := by
  obtain ⟨l, text, new, r, rfl⟩ := h
  exact ⟨l, text, new, r ++ more, by simp⟩

/-! ## The invariant -/

structure Guarded (s : Session) : Prop where
  current : ∀ before e key mid, s.log = before ++ e :: mid → e.vault = some key →
    s.pm.key = key ∨ Rekeys key mid
  stored : RekeyedWithOld s.log
  asked : NeverAsksAgain s.log

section
variable {s : Session}

theorem Guarded.object (h : Guarded s) (pm : Manager) (flash : Flash) (console : Console)
    (hkey : pm.key = s.pm.key) : Guarded { s with pm, flash, console } :=
  ⟨by rw [hkey]; exact h.current, h.stored, h.asked⟩

theorem RekeyedWithOld.append {log : List Event} (h : RekeyedWithOld log) {e : Event}
    (hstored : ∀ key, e ≠ .stored key) : RekeyedWithOld (log ++ [e]) := by
  intro before e' key mid key' after heq hkey
  rw [← List.cons_append, ← List.append_assoc] at heq
  rcases eq_append_cons heq with ⟨-, he⟩ | ⟨after', -, hlog⟩
  · exact absurd he.symm (hstored key')
  · exact h before e' key mid key' after' (by simpa using hlog) hkey

theorem NeverAsksAgain.append {log : List Event} (h : NeverAsksAgain log) {e : Event}
    (hprompt : ∀ text, e = .prompted text → ¬ HoldsVault log) : NeverAsksAgain (log ++ [e]) := by
  intro before text after heq
  rcases eq_append_cons heq with ⟨rfl, he⟩ | ⟨after', -, hlog⟩
  · exact hprompt text he.symm
  · exact h before text after' hlog

theorem Guarded.append (h : Guarded s) {e : Event} (hvault : e.vault = none)
    (hprompt : ∀ text, e ≠ .prompted text) : Guarded { s with log := s.log ++ [e] } := by
  refine ⟨?_, h.stored.append ?_, h.asked.append fun text he => absurd he (hprompt text)⟩
  on_goal 2 => rintro key rfl; cases hvault
  intro before e' key mid heq hkey
  rcases eq_append_cons heq with ⟨-, rfl⟩ | ⟨mid', rfl, hlog⟩
  · rw [hvault] at hkey
    cases hkey
  · exact (h.current before e' key mid' hlog hkey).imp_right fun hr => hr.append _

theorem Guarded.rekey (h : Guarded s) (text new : List Byte) (pm : Manager) :
    Guarded { s with
      pm
      log := s.log ++ [.checked s.pm.key text true] ++ [.rekeyed new] } := by
  refine ⟨?_, (h.stored.append (by rintro _ ⟨⟩)).append (by rintro _ ⟨⟩),
    (h.asked.append (by rintro _ ⟨⟩)).append (by rintro _ ⟨⟩)⟩
  intro before e key mid heq hkey
  rcases eq_append_cons heq with ⟨-, rfl⟩ | ⟨mid', rfl, hchecked⟩
  · cases hkey
  rcases eq_append_cons hchecked with ⟨-, rfl⟩ | ⟨mid'', rfl, hlog⟩
  · cases hkey
  right
  rcases h.current before e key mid'' hlog hkey with rfl | hr
  · exact ⟨mid'', text, new, [], by simp⟩
  · rw [List.append_assoc]
    exact hr.append _

theorem Guarded.prompt (h : Guarded s) (hnone : ¬ HoldsVault s.log) (text : List Byte) (pm : Manager) :
    Guarded { s with pm, log := s.log ++ [.prompted text] } := by
  refine ⟨?_, h.stored.append (by rintro _ ⟨⟩), h.asked.append fun _ _ => hnone⟩
  intro before e key mid heq hkey
  rcases eq_append_cons heq with ⟨-, rfl⟩ | ⟨mid', rfl, hlog⟩
  · cases hkey
  · refine absurd ⟨e, ?_, by rw [hkey]; nofun⟩ hnone
    rw [hlog]
    simp

theorem Guarded.store (h : Guarded s) : Guarded (store s) := by
  rcases store_cases s with ⟨-, heq⟩ | ⟨-, heq⟩
  · rw [heq]
    refine ⟨?_, ?_, h.asked.append (by rintro _ ⟨⟩)⟩
    · intro before e key mid heq hkey
      rcases eq_append_cons heq with ⟨-, rfl⟩ | ⟨mid', rfl, hlog⟩
      · cases hkey
        exact .inl rfl
      · exact (h.current before e key mid' hlog hkey).imp_right fun hr => hr.append _
    · intro before e key mid key' after heq hkey
      rw [← List.cons_append, ← List.append_assoc] at heq
      rcases eq_append_cons heq with ⟨hlog, he⟩ | ⟨after', -, hlog⟩
      · cases he
        exact h.current before e key mid hlog.symm hkey
      · exact h.stored before e key mid key' after' (by simpa using hlog) hkey
  · rw [heq]
    exact h.object _ _ _ rfl

theorem Started.guarded {memory : Manager} {address : Nat} {flash : Flash}
    (h : Started memory address flash s) : Guarded s := by
  cases h with
  | clear console h => exact ⟨by simp, by simp [RekeyedWithOld], by simp [NeverAsksAgain]⟩
  | login pm console text h hfirst hchanged haddress hkey hn hopens =>
    refine ⟨?_, ?_, ?_⟩
    · intro before e key mid heq hvault
      obtain ⟨-, rfl⟩ | ⟨mid', -, hlog⟩ := @eq_append_cons [] before mid _ _ heq
      · cases hvault
        exact .inl hkey
      · simp at hlog
    · exact @RekeyedWithOld.append [] (by simp [RekeyedWithOld]) _ nofun
    · exact @NeverAsksAgain.append [] (by simp [NeverAsksAgain]) _ (by rintro _ ⟨⟩)

theorem Guarded.effect (h : Guarded s) {letter : Byte} (hletter : s.letter = some letter)
    (hcareful : ¬ AsksAgain s) {s' : Session} (he : Effect letter s s') : Guarded s' := by
  cases he with
  | idle console => exact h.object s.pm s.flash console rfl
  | shown console entries => exact (h.object s.pm s.flash console rfl).append rfl nofun
  | edit console hedit => exact h.object _ s.flash console rfl
  | wrongMaster console given hgiven =>
    exact (h.object { s.pm with changed := true } s.flash console rfl).append rfl nofun
  | newMaster console given new hgiven =>
    exact (h.object s.pm s.flash console rfl).rekey given.str new.str _
  | wrongDelete console given hgiven =>
    exact (h.object s.pm s.flash console rfl).append rfl nofun
  | deleteFailed console given hgiven hflash =>
    exact (h.object s.pm _ console rfl).append rfl nofun
  | commit console hc hchanged hfirst => exact (h.object s.pm s.flash console rfl).store
  | firstCommit console line hc hchanged hfirst =>
    have hnone : ¬ HoldsVault s.log := fun hvault =>
      hcareful ⟨by rw [hletter, hc], hchanged, hfirst, hvault⟩
    exact ((h.object s.pm s.flash console rfl).prompt hnone line.str _).store

theorem CarefulPrompt.guarded {memory : Manager} {address : Nat} {flash : Flash} {console : Console}
    (h : CarefulPrompt memory address flash console s) : Guarded s := by
  obtain ⟨s₀, hbegin, hturns⟩ := h
  induction hturns with
  | refl => exact (begin_started hbegin).guarded
  | tail _ hturn ih =>
    obtain ⟨letter, hletter, heffect⟩ := command_outcome hturn.1
    exact ih.effect hletter hturn.2 heffect

end

/-- As long as no commit asks again: a vault is stored under a new key only after its old master
password was given to the `masterPassword` command, and no commit asks while there is a vault. -/
theorem rekey_only_with_old {memory : Manager} {address : Nat} {flash : Flash} {console : Console}
    {s : Session} (h : CarefulPrompt memory address flash console s) :
    RekeyedWithOld s.log ∧ NeverAsksAgain s.log :=
  ⟨h.guarded.stored, h.guarded.asked⟩

/-- A session that is not the first one never asks. -/
theorem careful_back {s : Session} {t t' : Safe} (h : Shows s t)
    (hrun : Relation.ReflTransGen (fun t t' => t.Turn t' ∧ t.firstUse = false) t t') :
    ∃ s', Relation.ReflTransGen (fun s s' => Turn s s' ∧ ¬ AsksAgain s) s s' ∧ Shows s' t' := by
  refine runs (R := fun t s => Shows s t) (fun t t' s h hturn => ?_) hrun h
  obtain ⟨s', hturn', h'⟩ := turn_back h hturn.1
  refine ⟨s', ⟨hturn', fun hasks => ?_⟩, h'⟩
  rw [AsksAgain, ← h.firstUse, hturn.2] at hasks
  exact Bool.false_ne_true hasks.2.2.1

/-- An entry is added and committed, and a new master password is set and committed. -/
theorem rekey_only_with_old_newMaster :
    ∃ flash s, CarefulPrompt (Manager.zeroed 0) 0x080F8000 flash (typed ["p", "add", "a", "b", "commit",
        "masterPassword", "p", "new", "commit"]) s ∧
      s.log = [.login (bytes "p"), .stored (keyOf (bytes "p")),
        .checked (keyOf (bytes "p")) (bytes "p") true, .rekeyed (bytes "new"),
        .stored (keyOf (bytes "new"))] ∧
      RekeyedWithOld s.log ∧ NeverAsksAgain s.log := by
  obtain ⟨flash, haccepts, hstored⟩ := exists_vault slotAddress_standard (keyOf (bytes "p")) twoPasswords
  obtain ⟨s₀, hbegin, hshows⟩ := @begin_own _ _ (bytes "p") _ _ (Manager.zeroed 0)
    (typed ["p", "add", "a", "b", "commit", "masterPassword", "p", "new", "commit"]) slotAddress_standard
    haccepts (by decide) hstored rfl
  obtain ⟨t₁, t₂, t₃, t₄, hadd, hcommit, hrekey, hcommit', hfirst₁, hfirst₂, hfirst₃, hlog⟩ :
      ∃ t₁ t₂ t₃ t₄, Safe.Turn (Safe.opened (some (keyOf (bytes "p"), twoPasswords.live.map WPTuple.pair))
          (bytes "p", twoPasswords.live, ["add", "a", "b", "commit", "masterPassword", "p", "new",
            "commit"].map bytes)) t₁ ∧
        t₁.Turn t₂ ∧ t₂.Turn t₃ ∧ t₃.Turn t₄ ∧ t₁.firstUse = false ∧ t₂.firstUse = false ∧
        t₃.firstUse = false ∧
        t₄.log = [.login (bytes "p"), .stored (keyOf (bytes "p")),
          .checked (keyOf (bytes "p")) (bytes "p") true, .rekeyed (bytes "new"),
          .stored (keyOf (bytes "new"))] :=
    ⟨_, _, _, _, rfl, rfl, Safe.rekey_turn rfl (by decide) rfl (by decide) rfl (by decide), rfl, rfl, rfl,
      rfl, rfl⟩
  obtain ⟨s, hturns, hend⟩ := careful_back hshows ((Relation.ReflTransGen.single ⟨hadd, rfl⟩).tail
    ⟨hcommit, hfirst₁⟩ |>.tail ⟨hrekey, hfirst₂⟩ |>.tail ⟨hcommit', hfirst₃⟩)
  have hprompt : CarefulPrompt (Manager.zeroed 0) 0x080F8000 flash (typed ["p", "add", "a", "b", "commit",
    "masterPassword", "p", "new", "commit"]) s := ⟨s₀, hbegin, hturns⟩
  exact ⟨flash, s, hprompt, hend.log.symm.trans hlog, rekey_only_with_old hprompt⟩

/-- A slot that was clear: the second commit of the session takes a master password that nobody
had to authorise. -/
theorem second_commit_rekeys :
    ∃ s, Prompt (Manager.zeroed 0) 0x080F8000 Flash.cleared
        (typed ["add", "a", "b", "commit", "first", "add", "c", "d", "commit", "second"]) s ∧
      ¬ (RekeyedWithOld s.log ∧ NeverAsksAgain s.log) := by
  obtain ⟨s₀, s₁, s₂, s₃, s₄, hbegin, hadd, hcommit, hadd', hcommit', hlog⟩ :
      ∃ s₀ s₁ s₂ s₃ s₄, begin (Manager.zeroed 0) 0x080F8000 Flash.cleared
          (typed ["add", "a", "b", "commit", "first", "add", "c", "d", "commit", "second"]) =
            .ok s₀ ∧
        Turn s₀ s₁ ∧ Turn s₁ (committed s₂) ∧ Turn (committed s₂) s₃ ∧
        Turn s₃ (committed s₄) ∧
        (committed s₄).log = [.prompted (bytes "first")] ++ .stored (keyOf (bytes "first")) ::
          ([.prompted (bytes "second")] ++ [.stored (keyOf (bytes "second"))]) :=
    ⟨_, _, _, _, _, rfl, rfl, turn_of_store rfl fun _ => rfl, rfl, turn_of_store rfl fun _ => rfl,
      rfl⟩
  refine ⟨_, ⟨s₀, hbegin, .tail (.tail (.tail (.single hadd) hcommit) hadd') hcommit'⟩, ?_⟩
  rintro ⟨hold, -⟩
  rcases hold _ _ _ _ _ _ hlog rfl with hkey | ⟨l, text, new, r, heq⟩
  · have hne : keyOf (bytes "second") ≠ keyOf (bytes "first") := by decide +kernel
    exact hne hkey
  · have hlen := congrArg List.length heq
    simp at hlen
    omega

end PasswordManager.Vault
