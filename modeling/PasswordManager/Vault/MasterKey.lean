import PasswordManager.Vault.Session

/-!
# Two tests of a master password

`createKey` hashes the padded string and doubles the hash, and `checkMasterPassword` compares the
hash of the padded string with the first half of the key. The padding loses nothing.
-/

open Nor

namespace PasswordManager.Vault

open FlashDriver Md5

theorem addCharacters_inj (p q : Line) :
    (addCharacters p).field = (addCharacters q).field ↔ p.str = q.str := by
  constructor
  · intro h
    have hstr := congrArg Field.str h
    rwa [str_addCharacters, str_addCharacters] at hstr
  · intro h
    apply Buf.ext
    rw [addCharacters_val, addCharacters_val, h]

theorem keyOf_inj (s t : List Byte) : keyOf s = keyOf t ↔ md5 (padded s) = md5 (padded t) := by
  constructor
  · intro h
    have hval := congrArg Subtype.val h
    exact Buf.ext (List.append_inj_left hval (by rw [(md5 _).property, (md5 _).property]))
  · intro h
    apply Buf.ext
    simp only [keyOf, h]

theorem accepted_eq_sameKey (t : List Byte) (p : Line) :
    accepted (keyOf t) p = decide (keyOf p.str = keyOf t) := by
  rw [accepted, take_keyOf, addCharacters_val, decide_eq_decide, keyOf_inj]
  exact Subtype.ext_iff.symm

theorem checkMasterPassword_typed {s : Session} {p : Line} {rest : List (List Byte)}
    (hstdin : s.console.stdin = p.str :: rest) :
    ∃ s', checkMasterPassword s = .ok (accepted s.pm.key p, s') := by
  have hlen : p.str.length < 32 := p.strlen_lt
  have hstr : ∀ memory, (Line.put p.str hlen memory).str = p.str := fun memory =>
    CString.str_append_cons (CString.not_mem_str _) _
  have hsame : ∀ memory, accepted s.pm.key (Line.put p.str hlen memory) = accepted s.pm.key p := by
    intro memory
    rw [accepted, accepted, addCharacters_val, addCharacters_val, hstr]
  unfold checkMasterPassword Console.scanPassword Console.scanf Console.alloc
  simp only [hstdin, receive, dif_pos hlen]
  exact ⟨_, by rw [← hsame]; rfl⟩

/-- Two master passwords share a key only when the strings are equal or their padded forms
collide under MD5, and `checkMasterPassword` takes those that would give the current key. -/
theorem confused_only_by_collision (m m' : Manager) (p q : Line) :
    ((addCharacters p).field = (addCharacters q).field ↔ p.str = q.str) ∧
    ((m.createKey p).key = (m'.createKey q).key → p.str = q.str ∨
      ((addCharacters p).field ≠ (addCharacters q).field ∧
        md5 (addCharacters p).field.val = md5 (addCharacters q).field.val)) ∧
    ∀ (s : Session) (rest : List (List Byte)), s.pm.key = (m'.createKey q).key →
      s.console.stdin = p.str :: rest →
        ∃ s', checkMasterPassword s = .ok (decide ((m.createKey p).key = s.pm.key), s') := by
  refine ⟨addCharacters_inj p q, ?_, ?_⟩
  · intro hkey
    rw [createKey_eq, createKey_eq] at hkey
    by_cases hstr : p.str = q.str
    · exact .inl hstr
    · right
      constructor
      · intro h
        exact hstr ((addCharacters_inj p q).mp h)
      · rw [addCharacters_val, addCharacters_val]
        exact (keyOf_inj p.str q.str).mp hkey
  · intro s rest hkey hstdin
    have hq : s.pm.key = keyOf q.str := by rw [hkey, createKey_eq]
    have hp : (m.createKey p).key = keyOf p.str := by rw [createKey_eq]
    obtain ⟨s', hcheck⟩ := checkMasterPassword_typed hstdin
    rw [hq, accepted_eq_sameKey] at hcheck
    exact ⟨s', by rw [hp, hq, hcheck]⟩

def secret : Line := Line.put (bytes "secret") (by decide) (Field.filled 0)

def guess : Line := Line.put (bytes "guess") (by decide) (Field.filled 1)

theorem confused_only_by_collision_secret :
    guess.str ≠ secret.str ∧
      ((addCharacters guess).field = (addCharacters secret).field ↔ guess.str = secret.str) ∧
      ∃ s', checkMasterPassword
          { pm := (Manager.zeroed 0).createKey secret, flash := Flash.cleared
            console := typed ["guess"], log := [] } =
        .ok (decide (((Manager.zeroed 0).createKey guess).key = ((Manager.zeroed 0).createKey secret).key),
          s') := by
  obtain ⟨hpadding, -, hcheck⟩ :=
    confused_only_by_collision (Manager.zeroed 0) (Manager.zeroed 0) guess secret
  exact ⟨by decide, hpadding, hcheck _ [] rfl (by decide)⟩

end PasswordManager.Vault
