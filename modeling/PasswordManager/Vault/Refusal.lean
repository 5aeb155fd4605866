import PasswordManager.Vault.Session

/-!
# Refused commands

`startUI` sets `changed` before `changeMasterPassword` asks for the old password. The other
commands find out that they are refused before they touch anything.
-/

open Nor

namespace PasswordManager.Vault

open FlashDriver

inductive Refusal
  | full
  | notRemoved
  | notFound
  | noWebsite
  | wrongMaster
  | unconfirmed
  | wrongDelete
  | eraseFailed
  deriving DecidableEq, Repr

/-- The next word is a command with this first letter. -/
def Given (s : Session) (letter : Char) (console : Console) : Prop :=
  ∃ line, s.console.scanInput = .ok (line, console) ∧ line.first = ascii letter

/-- The next command, with the words it asks for, is one that the code refuses. -/
inductive Refused (s : Session) : Refusal → Prop
  | full {website password : Line} {c c' c'' : Console} (hcommand : Given s 'a' c)
      (hwebsite : c.scanNew = .ok (website, c')) (hpassword : c'.scanInput = .ok (password, c''))
      (hrefused : (s.pm.addPassword website password).1 = false) : Refused s .full
  | notRemoved {website : Line} {c c' : Console} (hcommand : Given s 'r' c)
      (hwebsite : c.scanInput = .ok (website, c')) (hrefused : (s.pm.remove website).1 = false) :
      Refused s .notRemoved
  | notFound {website : Line} {c c' : Console} (hcommand : Given s 's' c)
      (hwebsite : c.scanInput = .ok (website, c'))
      (hrefused : s.pm.records.searchPassword website = none) : Refused s .notFound
  | noWebsite {website : Line} {c c' : Console} (hcommand : Given s 'w' c)
      (hwebsite : c.scanInput = .ok (website, c'))
      (hrefused : s.pm.records.getPosition website = none) : Refused s .noWebsite
  | wrongMaster {given : Line} {c c' : Console} (hcommand : Given s 'm' c)
      (hgiven : c.scanNew = .ok (given, c')) (hrefused : accepted s.pm.key given = false) :
      Refused s .wrongMaster
  | unconfirmed {answer : Line} {c c' : Console} (hcommand : Given s 'd' c)
      (hanswer : c.scanInput = .ok (answer, c')) (hrefused : answer.first ≠ ascii 'y') :
      Refused s .unconfirmed
  | wrongDelete {answer given : Line} {c c' c'' : Console} (hcommand : Given s 'd' c)
      (hanswer : c.scanInput = .ok (answer, c')) (hyes : answer.first = ascii 'y')
      (hgiven : c'.scanNew = .ok (given, c'')) (hrefused : accepted s.pm.key given = false) :
      Refused s .wrongDelete
  | eraseFailed {answer given : Line} {c c' c'' : Console} (hcommand : Given s 'd' c)
      (hanswer : c.scanInput = .ok (answer, c')) (hyes : answer.first = ascii 'y')
      (hgiven : c'.scanNew = .ok (given, c'')) (haccepted : accepted s.pm.key given = true)
      (hrefused : (deleteData s.pm s.flash).1 = false) : Refused s .eraseFailed

/-- What a refused command must leave as it was. -/
structure Unchanged (s s' : Session) : Prop where
  live : s'.pm.records.live = s.pm.records.live
  numOfPass : s'.pm.records.numOfPass = s.pm.records.numOfPass
  key : s'.pm.key = s.pm.key
  firstUse : s'.pm.firstUse = s.pm.firstUse
  changed : s'.pm.changed = s.pm.changed
  cells : s'.flash.cells = s.flash.cells

theorem unchanged_of {s s' : Session} (hpm : s'.pm = s.pm) (hcells : s'.flash.cells = s.flash.cells) :
    Unchanged s s' := by
  refine ⟨?_, ?_, ?_, ?_, ?_, hcells⟩ <;> rw [hpm]

/-! ## The commands by their letters -/

/-- What a letter at the prompt stands for. -/
def chosen (letter : Byte) (s : Session) : Except Stop Next :=
  if letter = ascii 'h' then return .again s
  else if letter = ascii 'a' then add s
  else if letter = ascii 's' then search s
  else if letter = ascii 'p' then printAll s
  else if letter = ascii 'm' then masterPassword s
  else if letter = ascii 'w' then websitePassword s
  else if letter = ascii 'r' then removeEntry s
  else if letter = ascii 'd' then delete s
  else if letter = ascii 'c' then commit s
  else if letter = ascii 'e' ∨ letter = ascii 'q' then quit s
  else return .again s

section
variable {s : Session} {letter : Char} {console : Console}

theorem command_chosen (h : Given s letter console) :
    command s = chosen (ascii letter) { s with console } := by
  obtain ⟨line, hline, hletter⟩ := h
  rw [command, bind_ok hline, ← hletter]
  rfl

theorem command_a (h : Given s 'a' console) : command s = add { s with console } := command_chosen h

theorem command_s (h : Given s 's' console) : command s = search { s with console } := command_chosen h

theorem command_m (h : Given s 'm' console) : command s = masterPassword { s with console } :=
  command_chosen h

theorem command_w (h : Given s 'w' console) : command s = websitePassword { s with console } :=
  command_chosen h

theorem command_r (h : Given s 'r' console) : command s = removeEntry { s with console } :=
  command_chosen h

theorem command_d (h : Given s 'd' console) : command s = delete { s with console } := command_chosen h

end

/-! ## What is left of a refused command -/

theorem Manager.addPassword_refused {m : Manager} {website password : Line}
    (h : (m.addPassword website password).1 = false) : (m.addPassword website password).2 = m := by
  by_cases hfull : m.records.numOfPass = maxStored
  · exact Manager.addPassword_full hfull website password
  · have htrue := (Records.addPassword_room hfull website password).1
    unfold Manager.addPassword at h
    split at h
    next heq => rw [heq] at htrue; cases htrue
    next => cases h

theorem Manager.remove_refused {m : Manager} {website : Line} (h : (m.remove website).1 = false) :
    (m.remove website).2 = m := by
  cases hpos : m.records.getPosition website with
  | none => exact Manager.remove_none hpos
  | some i =>
    have htrue := (Records.remove_some hpos).1
    unfold Manager.remove at h
    split at h
    next heq => rw [heq] at htrue; cases htrue
    next => cases h

section
variable {s : Session} {website password answer given : Line} {c c' c'' : Console}

theorem full_turn (hcommand : Given s 'a' c) (hwebsite : c.scanNew = .ok (website, c'))
    (hpassword : c'.scanInput = .ok (password, c''))
    (hrefused : (s.pm.addPassword website password).1 = false) : Turn s { s with console := c'' } := by
  rw [Turn, command_a hcommand, add, bind_ok hwebsite]
  dsimp only
  rw [bind_ok hpassword]
  dsimp only
  rw [Manager.addPassword_refused hrefused]
  rfl

theorem notRemoved_turn (hcommand : Given s 'r' c) (hwebsite : c.scanInput = .ok (website, c'))
    (hrefused : (s.pm.remove website).1 = false) : Turn s { s with console := c' } := by
  rw [Turn, command_r hcommand, removeEntry, bind_ok hwebsite]
  dsimp only
  rw [Manager.remove_refused hrefused]
  rfl

theorem notFound_turn (hcommand : Given s 's' c) (hwebsite : c.scanInput = .ok (website, c'))
    (hrefused : s.pm.records.searchPassword website = none) :
    Turn s { s with console := c', log := s.log ++ [.shown []] } := by
  rw [Turn, command_s hcommand, search, bind_ok hwebsite]
  dsimp only
  rw [hrefused]
  rfl

theorem noWebsite_turn (hcommand : Given s 'w' c) (hwebsite : c.scanInput = .ok (website, c'))
    (hrefused : s.pm.records.getPosition website = none) : Turn s { s with console := c' } := by
  rw [Turn, command_w hcommand, websitePassword, bind_ok hwebsite]
  dsimp only
  rw [changePassword]
  dsimp only
  rw [hrefused]
  rfl

theorem wrongMaster_turn (hcommand : Given s 'm' c)
    (hgiven : c.scanNew = .ok (given, c')) (hrefused : accepted s.pm.key given = false) :
    Turn s { s with
      console := c'
      pm := { s.pm with changed := true }
      log := s.log ++ [.checked s.pm.key given.str false] } := by
  rw [Turn, command_m hcommand, masterPassword, changeMasterPassword,
    checkMasterPassword_eq (s := { s with console := c, pm := { s.pm with changed := true } }) hgiven]
  dsimp only
  rw [hrefused]
  rfl

theorem unconfirmed_turn (hcommand : Given s 'd' c) (hanswer : c.scanInput = .ok (answer, c'))
    (hrefused : answer.first ≠ ascii 'y') : Turn s { s with console := c' } := by
  rw [Turn, command_d hcommand, delete, bind_ok hanswer]
  exact if_neg hrefused

theorem wrongDelete_turn (hcommand : Given s 'd' c) (hanswer : c.scanInput = .ok (answer, c'))
    (hyes : answer.first = ascii 'y') (hgiven : c'.scanNew = .ok (given, c''))
    (hrefused : accepted s.pm.key given = false) :
    Turn s { s with console := c'', log := s.log ++ [.checked s.pm.key given.str false] } := by
  rw [Turn, command_d hcommand, delete, bind_ok hanswer]
  dsimp only
  rw [if_pos hyes, checkMasterPassword_eq (s := { s with console := c' }) hgiven]
  dsimp only
  rw [hrefused]
  rfl

theorem eraseFailed_turn (hcommand : Given s 'd' c) (hanswer : c.scanInput = .ok (answer, c'))
    (hyes : answer.first = ascii 'y') (hgiven : c'.scanNew = .ok (given, c''))
    (haccepted : accepted s.pm.key given = true) (hrefused : (deleteData s.pm s.flash).1 = false) :
    Turn s { s with
      console := c''
      flash := (deleteData s.pm s.flash).2
      log := s.log ++ [.checked s.pm.key given.str true] } := by
  have herase : deleteData s.pm s.flash = (false, (deleteData s.pm s.flash).2) := Prod.ext hrefused rfl
  rw [Turn, command_d hcommand, delete, bind_ok hanswer]
  dsimp only
  rw [if_pos hyes, checkMasterPassword_eq (s := { s with console := c' }) hgiven]
  dsimp only
  rw [haccepted, bind_ok rfl, if_pos rfl]
  dsimp only
  rw [herase]
  rfl

end

/-- A refused command leads to the next prompt and leaves all as it was, but for `masterPassword`
when nothing was changed before: it sets `changed`. -/
theorem refused_unchanged_iff {s : Session} {refusal : Refusal} (h : Refused s refusal) :
    ∃ s', Turn s s' ∧ (Unchanged s s' ↔ ¬ (refusal = .wrongMaster ∧ s.pm.changed = false)) := by
  cases h with
  | full hcommand hwebsite hpassword hrefused =>
    refine ⟨_, full_turn hcommand hwebsite hpassword hrefused, iff_of_true (unchanged_of rfl rfl) ?_⟩
    simp
  | notRemoved hcommand hwebsite hrefused =>
    refine ⟨_, notRemoved_turn hcommand hwebsite hrefused, iff_of_true (unchanged_of rfl rfl) ?_⟩
    simp
  | notFound hcommand hwebsite hrefused =>
    refine ⟨_, notFound_turn hcommand hwebsite hrefused, iff_of_true (unchanged_of rfl rfl) ?_⟩
    simp
  | noWebsite hcommand hwebsite hrefused =>
    refine ⟨_, noWebsite_turn hcommand hwebsite hrefused, iff_of_true (unchanged_of rfl rfl) ?_⟩
    simp
  | wrongMaster hcommand hgiven hrefused =>
    refine ⟨_, wrongMaster_turn hcommand hgiven hrefused, fun h hfalse => ?_, fun h => ?_⟩
    · have hchanged := h.changed
      rw [hfalse.2] at hchanged
      cases hchanged
    · refine ⟨rfl, rfl, rfl, rfl, ?_, rfl⟩
      cases hchanged : s.pm.changed with
      | true => rfl
      | false => exact absurd ⟨rfl, hchanged⟩ h
  | unconfirmed hcommand hanswer hrefused =>
    refine ⟨_, unconfirmed_turn hcommand hanswer hrefused, iff_of_true (unchanged_of rfl rfl) ?_⟩
    simp
  | wrongDelete hcommand hanswer hyes hgiven hrefused =>
    refine ⟨_, wrongDelete_turn hcommand hanswer hyes hgiven hrefused,
      iff_of_true (unchanged_of rfl rfl) ?_⟩
    simp
  | eraseFailed hcommand hanswer hyes hgiven haccepted hrefused =>
    refine ⟨_, eraseFailed_turn hcommand hanswer hyes hgiven haccepted hrefused,
      iff_of_true (unchanged_of rfl (deleteData_failed hrefused)) ?_⟩
    simp

/-- The first prompt on an erased chip. -/
def firstPrompt (words : List String) : Session where
  pm := { construct (Manager.zeroed 0) 0x080F8000 with firstUse := true }
  flash := Flash.cleared
  console := typed words
  log := []

theorem refused_unchanged_notRemoved :
    ∃ s', Turn (firstPrompt ["r", "v"]) s' ∧ (Unchanged (firstPrompt ["r", "v"]) s' ↔
      ¬ (Refusal.notRemoved = .wrongMaster ∧ (firstPrompt ["r", "v"]).pm.changed = false)) :=
  refused_unchanged_iff (.notRemoved ⟨_, rfl, by decide⟩ rfl (by decide))

/-- A wrong old password leaves behind that there is something to save. -/
theorem wrong_master_marks_changed :
    ∃ s s', Prompt (Manager.zeroed 0) 0x080F8000 Flash.cleared (typed ["m", "x"]) s ∧
      Refused s .wrongMaster ∧ Turn s s' ∧ s.pm.changed = false ∧ s'.pm.changed = true := by
  have hprompt : Prompt (Manager.zeroed 0) 0x080F8000 Flash.cleared (typed ["m", "x"])
      (firstPrompt ["m", "x"]) := ⟨_, rfl, .refl⟩
  exact ⟨_, _, hprompt, .wrongMaster ⟨_, rfl, by decide⟩ rfl (by decide +kernel),
    wrongMaster_turn ⟨_, rfl, by decide⟩ rfl (by decide +kernel), rfl, rfl⟩

end PasswordManager.Vault
