import PasswordManager.Vault.History
import Mathlib.Logic.Relation

/-!
# A session of the password manager

A session goes from prompt to prompt. It stops where the console has no more to read, and
where memory would be overrun: a token that its buffer has no room for, or a count on the
flash that `encryptedData` has no room for.
-/

open Nor

namespace PasswordManager.Vault

open FlashDriver Md5

/-! ## The console -/

inductive Stop
  | noInput
  | overflow
  | overrun
  deriving DecidableEq, Repr

structure Console where
  input : Field
  stdin : List (List Byte)
  /-- What the buffers to be allocated will hold. -/
  fresh : Nat → Field

def receive (token : List Byte) (memory : Field) : Except Stop Line :=
  if h : token.length < 32 then .ok (Line.put token h memory) else .error .overflow

/-- `scanf("%s", memory)`. -/
def Console.scanf (c : Console) (memory : Field) : Except Stop (Line × Console) :=
  match c.stdin with
  | [] => .error .noInput
  | token :: stdin => do
    let line ← receive token memory
    return (line, { c with stdin })

def Console.scanInput (c : Console) : Except Stop (Line × Console) := do
  let (line, c) ← c.scanf c.input
  return (line, { c with input := line.field })

/-- A buffer of 32 bytes from the heap or the stack. -/
def Console.alloc (c : Console) : Field × Console :=
  (c.fresh 0, { c with fresh := fun n => c.fresh (n + 1) })

def Console.scanNew (c : Console) : Except Stop (Line × Console) := do
  let (memory, c) := c.alloc
  c.scanf memory

def Console.scanPassword (c : Console) (memory : Field) : Except Stop (Line × Console) :=
  c.scanf memory

/-! ## What happens in a session -/

/-- The program does not keep these. -/
inductive Event
  | shown (entries : List (Text × Text))
  | login (text : List Byte)
  | prompted (text : List Byte)
  | checked (key : Buf 32) (text : List Byte) (accepted : Bool)
  | rekeyed (text : List Byte)
  | stored (key : Buf 32)
  deriving DecidableEq

structure Session where
  pm : Manager
  flash : Flash
  console : Console
  log : List Event

inductive Next
  | again (s : Session)
  | done (s : Session)

def Line.first (l : Line) : Byte := l.field.val.headD 0

/-! ## The commands -/

def Manager.addPassword (m : Manager) (website password : Line) : Bool × Manager :=
  match m.records.addPassword website password with
  | (false, records) => (false, { m with records })
  | (true, records) => (true, { m with records, changed := true })

def Manager.remove (m : Manager) (website : Line) : Bool × Manager :=
  match m.records.remove website with
  | (false, records) => (false, { m with records })
  | (true, records) => (true, { m with records, changed := true })

def add (s : Session) : Except Stop Next := do
  let (website, console) ← s.console.scanNew
  let (password, console) ← console.scanInput
  return .again { s with console, pm := (s.pm.addPassword website password).2 }

def search (s : Session) : Except Stop Next := do
  let (website, console) ← s.console.scanInput
  return .again
    { s with console, log := s.log ++ [.shown (s.pm.records.searchPassword website).toList] }

def printAll (s : Session) : Except Stop Next :=
  return .again { s with log := s.log ++ [.shown s.pm.records.printAll] }

def changePassword (s : Session) (website : Line) : Except Stop Session :=
  match s.pm.records.getPosition website with
  | none => return s
  | some i => do
    let (newPass, console) ← s.console.scanNew
    return { s with
      console
      pm := { s.pm with records := s.pm.records.setPassword i newPass, changed := true } }

def websitePassword (s : Session) : Except Stop Next := do
  let (website, console) ← s.console.scanInput
  return .again (← changePassword { s with console } website)

def removeEntry (s : Session) : Except Stop Next := do
  let (website, console) ← s.console.scanInput
  return .again { s with console, pm := (s.pm.remove website).2 }

/-- What `checkMasterPassword` compares. -/
def accepted (key : Buf 32) (given : Line) : Bool :=
  (md5 (addCharacters given).field.val).val = key.val.take 16

def checkMasterPassword (s : Session) : Except Stop (Bool × Session) := do
  let (memory, console) := s.console.alloc
  let (given, console) ← console.scanPassword memory
  let ok := accepted s.pm.key given
  return (ok, { s with console, log := s.log ++ [.checked s.pm.key given.str ok] })

def changeMasterPassword (s : Session) : Except Stop (Bool × Session) := do
  let (ok, s) ← checkMasterPassword s
  if ok then
    let (memory, console) := s.console.alloc
    let (given, console) ← console.scanPassword memory
    return (true, { s with console, pm := s.pm.createKey given, log := s.log ++ [.rekeyed given.str] })
  else return (false, s)

def masterPassword (s : Session) : Except Stop Next := do
  let (_, s) ← changeMasterPassword { s with pm := { s.pm with changed := true } }
  return .again s

def delete (s : Session) : Except Stop Next := do
  let (line, console) ← s.console.scanInput
  let s := { s with console }
  if line.first = ascii 'y' then
    let (ok, s) ← checkMasterPassword s
    if ok then
      match deleteData s.pm s.flash with
      | (true, flash) => return .done { s with flash }
      | (false, flash) => return .again { s with flash }
    else return .again s
  else return .again s

/-- The question that a commit asks on first use. -/
def askMasterPassword (s : Session) : Except Stop Session :=
  if s.pm.firstUse then do
    let (line, console) ← s.console.scanPassword s.console.input
    let console := { console with input := line.field }
    return { s with console, pm := s.pm.createKey line, log := s.log ++ [.prompted line.str] }
  else return s

/-- The rest of a commit. -/
def store (s : Session) : Session :=
  let pm := s.pm.encrypt
  match storeData pm s.flash with
  | (true, flash) =>
    { s with pm := { pm with changed := false }, flash, log := s.log ++ [.stored pm.key] }
  | (false, flash) => { s with pm, flash }

def commit (s : Session) : Except Stop Next :=
  if s.pm.changed then do
    let s ← askMasterPassword s
    return .again (store s)
  else return .again s

def quit (s : Session) : Except Stop Next :=
  if s.pm.changed then do
    let (line, console) ← s.console.scanInput
    let s := { s with console }
    if line.first = ascii 'y' then return .done s else return .again s
  else return .done s

/-- One turn of the loop. -/
def command (s : Session) : Except Stop Next := do
  let (line, console) ← s.console.scanInput
  let s := { s with console }
  let letter := line.first
  if letter = ascii 'h' then return .again s
  else if letter = ascii 'a' then add s
  else if letter = ascii 's' then search s
  else if letter = ascii 'p' then printAll s
  else if letter = ascii 'm' then masterPassword s
  else if letter = ascii 'w' then websitePassword s
  else if letter = ascii 'r' then removeEntry s
  else if letter = ascii 'd' then delete s
  else if letter = ascii 'c' then commit s
  else if letter = ascii 'e' ∨ letter = ascii 'q' then quit s
  else return .again s

def Turn (s s' : Session) : Prop := command s = .ok (.again s')

/-! ## The start of a session -/

/-- `"..... ..... ..... ..... ..... ."`. -/
def dots : Field :=
  ⟨bytes "..... ..... ..... ..... ..... ." ++ [0], by decide⟩

/-- The loop at `checkpass`, over the words that are still to be typed. -/
def checkpass (s : Session) : List (List Byte) → Except Stop Session
  | [] => .error .noInput
  | token :: stdin => do
    let line ← receive token s.console.input
    let pm := s.pm.createKey line
    match pm.decrypt pm.encryptedData.val with
    | (true, pm) =>
      return { s with
        pm
        console := { s.console with input := dots, stdin }
        log := s.log ++ [.login line.str] }
    | (false, pm) =>
      checkpass { s with pm, console := { s.console with input := line.field, stdin } } stdin

/-- `startUI` up to the first prompt. -/
def begin (memory : Manager) (address : Nat) (flash : Flash) (console : Console) :
    Except Stop Session :=
  match (construct memory address).loadData flash.cells with
  | none => .error .overrun
  | some pm =>
    let s : Session := { pm, flash, console, log := [] }
    if pm.firstUse then .ok s else checkpass s console.stdin

def Prompt (memory : Manager) (address : Nat) (flash : Flash) (console : Console) (s : Session) :
    Prop :=
  ∃ s₀, begin memory address flash console = .ok s₀ ∧ Relation.ReflTransGen Turn s₀ s

def typed (words : List String) : Console where
  input := Field.filled 0
  stdin := words.map bytes
  fresh _ := Field.filled 0

/-! ## What a turn does -/

def Session.letter (s : Session) : Option Byte := s.console.stdin.head?.map fun token => token.headD 0

/-- The cases of a turn that leads to the next prompt. -/
inductive Effect (letter : Byte) (s : Session) : Session → Prop
  | idle (console : Console) : Effect letter s { s with console }
  | shown (console : Console) (entries : List (Text × Text)) :
      Effect letter s { s with console, log := s.log ++ [.shown entries] }
  | edit (console : Console) {records : Records} (h : Edit s.pm.records records) :
      Effect letter s { s with console, pm := { s.pm with records, changed := true } }
  | wrongMaster (console : Console) (given : Line) (h : accepted s.pm.key given = false) :
      Effect letter s { s with
        console
        pm := { s.pm with changed := true }
        log := s.log ++ [.checked s.pm.key given.str false] }
  | newMaster (console : Console) (given new : Line) (h : accepted s.pm.key given = true) :
      Effect letter s { s with
        console
        pm := { s.pm with changed := true, key := keyOf new.str }
        log := s.log ++ [.checked s.pm.key given.str true] ++ [.rekeyed new.str] }
  | wrongDelete (console : Console) (given : Line) (h : accepted s.pm.key given = false) :
      Effect letter s { s with console, log := s.log ++ [.checked s.pm.key given.str false] }
  | deleteFailed (console : Console) (given : Line) (h : accepted s.pm.key given = true)
      (hflash : (deleteData s.pm s.flash).1 = false) :
      Effect letter s { s with
        console
        flash := (deleteData s.pm s.flash).2
        log := s.log ++ [.checked s.pm.key given.str true] }
  | commit (console : Console) (hletter : letter = ascii 'c') (hchanged : s.pm.changed = true)
      (hfirst : s.pm.firstUse = false) : Effect letter s (store { s with console })
  | firstCommit (console : Console) (line : Line) (hletter : letter = ascii 'c')
      (hchanged : s.pm.changed = true) (hfirst : s.pm.firstUse = true) :
      Effect letter s (store { s with
        console
        pm := { s.pm with key := keyOf line.str }
        log := s.log ++ [.prompted line.str] })

inductive Ending (s : Session) : Session → Prop
  | left (console : Console) : Ending s { s with console }
  | deleted (console : Console) (given : Line) (h : accepted s.pm.key given = true)
      (hflash : (deleteData s.pm s.flash).1 = true) :
      Ending s { s with
        console
        flash := (deleteData s.pm s.flash).2
        log := s.log ++ [.checked s.pm.key given.str true] }

def Outcome (letter : Byte) (s : Session) : Next → Prop
  | .again s' => Effect letter s s'
  | .done s' => Ending s s'

theorem ok_of_bind {ε α β : Type} {x : Except ε α} {f : α → Except ε β} {b : β}
    (h : x >>= f = .ok b) : ∃ a, x = .ok a ∧ f a = .ok b := by
  cases x with
  | error e => cases h
  | ok a => exact ⟨a, rfl, h⟩

theorem bind_ok {ε α β : Type} {x : Except ε α} {a : α} (h : x = .ok a) (f : α → Except ε β) :
    (x >>= f) = f a := by
  rw [h]
  rfl

theorem ite_eq {α : Type} {c : Prop} [Decidable c] {x y b : α} (h : (if c then x else y) = b) :
    c ∧ x = b ∨ ¬ c ∧ y = b := by
  by_cases hc : c
  · exact .inl ⟨hc, by rwa [if_pos hc] at h⟩
  · exact .inr ⟨hc, by rwa [if_neg hc] at h⟩

theorem Manager.addPassword_full {m : Manager} (h : m.records.numOfPass = maxStored)
    (website password : Line) : (m.addPassword website password).2 = m := by
  unfold Manager.addPassword
  rw [Records.addPassword_full h]

theorem Manager.addPassword_room {m : Manager} (h : m.records.numOfPass ≠ maxStored)
    (website password : Line) :
    (m.addPassword website password).2 =
      { m with records := (m.records.addPassword website password).2, changed := true } := by
  have htrue := (Records.addPassword_room h website password).1
  unfold Manager.addPassword
  split
  next heq => simp [heq] at htrue
  next heq => rw [heq]

theorem Manager.remove_none {m : Manager} {website : Line}
    (h : m.records.getPosition website = none) : (m.remove website).2 = m := by
  unfold Manager.remove
  rw [Records.remove_none h]

theorem Manager.remove_some {m : Manager} {website : Line} {i : Nat}
    (h : m.records.getPosition website = some i) :
    (m.remove website).2 =
      { m with records := (m.records.remove website).2, changed := true } := by
  have htrue := (Records.remove_some h).1
  unfold Manager.remove
  split
  next heq => simp [heq] at htrue
  next heq => rw [heq]

theorem checkMasterPassword_eq {s : Session} {given : Line} {console : Console}
    (h : s.console.scanNew = .ok (given, console)) :
    checkMasterPassword s = .ok (accepted s.pm.key given,
      { s with console, log := s.log ++ [.checked s.pm.key given.str (accepted s.pm.key given)] }) := by
  have hscan : s.console.alloc.2.scanPassword s.console.alloc.1 = .ok (given, console) := h
  rw [checkMasterPassword]
  exact bind_ok hscan _

section
variable {letter : Byte} {s : Session} {next : Next}

theorem Outcome.of_console {console : Console} (h : Outcome letter { s with console } next) :
    Outcome letter s next := by
  cases next with
  | again s' =>
    cases h with
    | idle console => exact Effect.idle console
    | shown console entries => exact Effect.shown console entries
    | edit console h => exact Effect.edit console h
    | wrongMaster console given h => exact Effect.wrongMaster console given h
    | newMaster console given new h => exact Effect.newMaster console given new h
    | wrongDelete console given h => exact Effect.wrongDelete console given h
    | deleteFailed console given h hflash => exact Effect.deleteFailed console given h hflash
    | commit console hletter hchanged hfirst => exact Effect.commit console hletter hchanged hfirst
    | firstCommit console line hletter hchanged hfirst =>
      exact Effect.firstCommit console line hletter hchanged hfirst
  | done s' =>
    cases h with
    | left console => exact Ending.left console
    | deleted console given h hflash => exact Ending.deleted console given h hflash

theorem add_outcome (h : add s = .ok next) : Outcome letter s next := by
  obtain ⟨⟨website, console⟩, -, h⟩ := ok_of_bind h
  obtain ⟨⟨password, console⟩, -, h⟩ := ok_of_bind h
  cases h
  by_cases hfull : s.pm.records.numOfPass = maxStored
  · rw [Manager.addPassword_full hfull]
    exact Effect.idle console
  · rw [Manager.addPassword_room hfull]
    exact Effect.edit console (.add website password hfull)

theorem search_outcome (h : search s = .ok next) : Outcome letter s next := by
  obtain ⟨⟨website, console⟩, -, h⟩ := ok_of_bind h
  cases h
  exact Effect.shown console _

theorem printAll_outcome (h : printAll s = .ok next) : Outcome letter s next := by
  cases h
  exact Effect.shown s.console _

theorem websitePassword_outcome (h : websitePassword s = .ok next) : Outcome letter s next := by
  obtain ⟨⟨website, console⟩, -, h⟩ := ok_of_bind h
  obtain ⟨s', hs', h⟩ := ok_of_bind h
  cases h
  unfold changePassword at hs'
  split at hs'
  next => cases hs'; exact Effect.idle console
  next i hfound =>
    obtain ⟨⟨newPass, console⟩, -, hs'⟩ := ok_of_bind hs'
    cases hs'
    have hedit := Edit.change website newPass hfound
    simp only [Records.changePassword, hfound] at hedit
    exact Effect.edit console hedit

theorem removeEntry_outcome (h : removeEntry s = .ok next) : Outcome letter s next := by
  obtain ⟨⟨website, console⟩, -, h⟩ := ok_of_bind h
  cases h
  cases hfound : s.pm.records.getPosition website with
  | none =>
    rw [Manager.remove_none hfound]
    exact Effect.idle console
  | some i =>
    rw [Manager.remove_some hfound]
    exact Effect.edit console (.remove website hfound)

theorem checkMasterPassword_ok {ok : Bool} {s' : Session}
    (h : checkMasterPassword s = .ok (ok, s')) :
    ∃ (console : Console) (given : Line), accepted s.pm.key given = ok ∧
      s' = { s with console, log := s.log ++ [.checked s.pm.key given.str ok] } := by
  obtain ⟨⟨given, console⟩, -, h⟩ := ok_of_bind h
  cases h
  exact ⟨console, given, rfl, rfl⟩

theorem masterPassword_outcome (h : masterPassword s = .ok next) : Outcome letter s next := by
  obtain ⟨⟨_, s'⟩, hs', h⟩ := ok_of_bind h
  cases h
  obtain ⟨⟨ok, s''⟩, hcheck, hs'⟩ := ok_of_bind hs'
  obtain ⟨console, given, haccepted, rfl⟩ := checkMasterPassword_ok hcheck
  cases ok with
  | false =>
    cases hs'
    exact Effect.wrongMaster console given haccepted
  | true =>
    obtain ⟨⟨new, console⟩, -, hs'⟩ := ok_of_bind hs'
    cases hs'
    rw [createKey_eq]
    exact Effect.newMaster console given new haccepted

theorem delete_outcome (h : delete s = .ok next) : Outcome letter s next := by
  obtain ⟨⟨line, console⟩, -, h⟩ := ok_of_bind h
  simp only at h
  split at h
  next =>
    obtain ⟨⟨ok, s'⟩, hcheck, h⟩ := ok_of_bind h
    obtain ⟨console, given, haccepted, rfl⟩ := checkMasterPassword_ok hcheck
    cases ok with
    | false =>
      cases h
      exact Effect.wrongDelete console given haccepted
    | true =>
      simp only [if_true] at h
      split at h
      next flash hflash =>
        cases h
        have hend := Ending.deleted console given haccepted (by rw [hflash])
        rw [hflash] at hend
        exact Outcome.of_console hend
      next flash hflash =>
        cases h
        have heffect := @Effect.deleteFailed letter _ console given haccepted (by rw [hflash])
        rw [hflash] at heffect
        exact Outcome.of_console heffect
  next => cases h; exact Effect.idle console

theorem commit_outcome (hletter : letter = ascii 'c') (h : commit s = .ok next) : Outcome letter s next := by
  unfold commit at h
  split at h
  next hchanged =>
    obtain ⟨ready, hready, h⟩ := ok_of_bind h
    cases h
    unfold askMasterPassword at hready
    split at hready
    next hfirst =>
      obtain ⟨⟨line, console⟩, -, hready⟩ := ok_of_bind hready
      cases hready
      rw [createKey_eq]
      exact Effect.firstCommit _ line hletter hchanged hfirst
    next hfirst =>
      cases hready
      exact Effect.commit s.console hletter hchanged (by simpa using hfirst)
  next => cases h; exact Effect.idle s.console

theorem quit_outcome (h : quit s = .ok next) : Outcome letter s next := by
  unfold quit at h
  split at h
  next =>
    obtain ⟨⟨line, console⟩, -, h⟩ := ok_of_bind h
    simp only at h
    split at h
    next => cases h; exact Ending.left console
    next => cases h; exact Effect.idle console
  next => cases h; exact Ending.left s.console

theorem scanInput_letter {console : Console} {line : Line}
    (h : s.console.scanInput = .ok (line, console)) : s.letter = some line.first := by
  obtain ⟨⟨line', console'⟩, hscan, h⟩ := ok_of_bind h
  cases h
  unfold Console.scanf at hscan
  split at hscan
  next => cases hscan
  next token stdin hstdin =>
    obtain ⟨received, hreceive, hscan⟩ := ok_of_bind hscan
    cases hscan
    unfold receive at hreceive
    split at hreceive
    next =>
      cases hreceive
      rw [Session.letter, hstdin]
      cases token <;> rfl
    next => cases hreceive

theorem command_outcome (h : command s = .ok next) :
    ∃ letter, s.letter = some letter ∧ Outcome letter s next := by
  obtain ⟨⟨line, console⟩, hscan, h⟩ := ok_of_bind h
  refine ⟨line.first, scanInput_letter hscan, ?_⟩
  refine Outcome.of_console (?_ : Outcome line.first { s with console } next)
  rcases ite_eq h with ⟨-, h⟩ | ⟨-, h⟩
  · cases h; exact Effect.idle console
  rcases ite_eq h with ⟨-, h⟩ | ⟨-, h⟩
  · exact add_outcome h
  rcases ite_eq h with ⟨-, h⟩ | ⟨-, h⟩
  · exact search_outcome h
  rcases ite_eq h with ⟨-, h⟩ | ⟨-, h⟩
  · exact printAll_outcome h
  rcases ite_eq h with ⟨-, h⟩ | ⟨-, h⟩
  · exact masterPassword_outcome h
  rcases ite_eq h with ⟨-, h⟩ | ⟨-, h⟩
  · exact websitePassword_outcome h
  rcases ite_eq h with ⟨-, h⟩ | ⟨-, h⟩
  · exact removeEntry_outcome h
  rcases ite_eq h with ⟨-, h⟩ | ⟨-, h⟩
  · exact delete_outcome h
  rcases ite_eq h with ⟨hc, h⟩ | ⟨-, h⟩
  · exact commit_outcome hc h
  rcases ite_eq h with ⟨-, h⟩ | ⟨-, h⟩
  · exact quit_outcome h
  · cases h; exact Effect.idle console

end

theorem store_cases (s : Session) :
    ((storeData s.pm.encrypt s.flash).1 = true ∧
      store s = { s with
        pm := { s.pm.encrypt with changed := false }
        flash := (storeData s.pm.encrypt s.flash).2
        log := s.log ++ [.stored s.pm.key] }) ∨
    ((storeData s.pm.encrypt s.flash).1 = false ∧
      store s = { s with pm := s.pm.encrypt, flash := (storeData s.pm.encrypt s.flash).2 }) := by
  unfold store
  dsimp only
  split
  next flash heq => exact .inl ⟨by rw [heq], by simp only [heq, Manager.encrypt_key]⟩
  next flash heq => exact .inr ⟨by rw [heq], by simp only [heq]⟩

def committed (s : Session) : Session :=
  { s with
    pm := { s.pm.encrypt with changed := false }
    flash := { s.flash with
      cells := (storeData s.pm.encrypt s.flash).2.cells
      trace := (storeData s.pm.encrypt s.flash).2.trace }
    log := s.log ++ [.stored s.pm.key] }

theorem store_accepted {s : Session} (h : ∀ i, s.flash.accepts i = true) : store s = committed s := by
  rcases store_cases s with ⟨-, heq⟩ | ⟨hfail, -⟩
  · rw [heq, committed, storeData_eq]
  · rw [storeData_accepted _ h] at hfail
    cases hfail

theorem turn_of_store {s s' : Session} (hturn : Turn s (store s'))
    (h : ∀ i, s'.flash.accepts i = true) : Turn s (committed s') := by
  rwa [store_accepted h] at hturn

theorem Effect.flash {letter : Byte} {s s' : Session} (he : Effect letter s s') :
    s'.pm.address = s.pm.address ∧
      (s'.flash = s.flash ∨ s'.flash = (deleteData s.pm s.flash).2 ∨
        ∃ m : Manager, m.address = s.pm.address ∧ s'.flash = (storeData m s.flash).2) := by
  have hstore : ∀ r : Session, r.pm.address = s.pm.address → r.flash = s.flash →
      (store r).pm.address = s.pm.address ∧
        ∃ m : Manager, m.address = s.pm.address ∧ (store r).flash = (storeData m s.flash).2 := by
    intro r haddress hflash
    rcases store_cases r with ⟨-, heq⟩ | ⟨-, heq⟩ <;> rw [heq] <;>
      exact ⟨haddress, r.pm.encrypt, haddress, by rw [hflash]⟩
  cases he with
  | deleteFailed console given hgiven hflash => exact ⟨rfl, .inr (.inl rfl)⟩
  | commit console hletter hchanged hfirst =>
    exact (hstore { s with console } rfl rfl).imp_right fun h => .inr (.inr h)
  | firstCommit console line hletter hchanged hfirst =>
    exact (hstore { s with
      console
      pm := { s.pm with key := keyOf line.str }
      log := s.log ++ [.prompted line.str] } rfl rfl).imp_right fun h => .inr (.inr h)
  | _ => exact ⟨rfl, .inl rfl⟩

theorem Ending.flash {s s' : Session} (he : Ending s s') :
    s'.flash = s.flash ∨ s'.flash = (deleteData s.pm s.flash).2 := by
  cases he with
  | left console => exact .inl rfl
  | deleted console given h hflash => exact .inr rfl

/-! ## What the start does -/

inductive Started (memory : Manager) (address : Nat) (flash : Flash) : Session → Prop
  | clear (console : Console) (h : loadData flash.cells address = .firstUse) :
      Started memory address flash
        { pm := { construct memory address with firstUse := true }, flash, console, log := [] }
  | login (pm : Manager) (console : Console) (text : List Byte) {n : Nat} {data : List Byte}
      (h : loadData flash.cells address = .vault n data) (hfirst : pm.firstUse = false)
      (hchanged : pm.changed = false) (haddress : pm.address = address) (hkey : pm.key = keyOf text)
      (hn : pm.records.numOfPass = n) (hopens : opens pm.key n data = some pm.records.live) :
      Started memory address flash { pm, flash, console, log := [.login text] }

theorem checkpass_ok {s s' : Session} {stdin : List (List Byte)} (h : checkpass s stdin = .ok s') :
    ∃ (console : Console) (text : List Byte) (checksum : Buf 16) (records : Records),
      records.numOfPass = s.pm.records.numOfPass ∧
      opens (keyOf text) records.numOfPass s.pm.encryptedData.val = some records.live ∧
      s' = { s with
        console
        pm := { s.pm with key := keyOf text, checksum, records }
        log := s.log ++ [.login text] } := by
  induction stdin generalizing s with
  | nil => cases h
  | cons token stdin ih =>
    obtain ⟨line, -, h⟩ := ok_of_bind h
    rw [createKey_eq] at h
    set pm := { s.pm with key := keyOf line.str } with hpm
    obtain ⟨checksum, records, hn, hframe⟩ := pm.decrypt_frame pm.encryptedData.val
    obtain ⟨hsome, hlive⟩ := pm.decrypt_eq pm.encryptedData.val
    dsimp only at h
    split at h
    next pm' heq =>
      rw [heq] at hframe hlive hsome
      obtain ⟨l, hl⟩ := Option.isSome_iff_exists.mp hsome.symm
      cases h
      obtain rfl : pm' = { pm with checksum, records } := hframe
      refine ⟨_, line.str, checksum, records, hn, ?_, rfl⟩
      rw [hlive l hl, hn]
      exact hl
    next pm' heq =>
      rw [heq] at hframe
      obtain rfl : pm' = { pm with checksum, records } := hframe
      obtain ⟨console, text, checksum', records', hn', hopens, rfl⟩ := ih h
      exact ⟨console, text, checksum', records', hn'.trans hn, hopens, rfl⟩

theorem receive_ne_overrun (token : List Byte) (memory : Field) :
    receive token memory ≠ .error .overrun := by
  unfold receive
  split <;> simp

theorem checkpass_ne_overrun (s : Session) (stdin : List (List Byte)) :
    checkpass s stdin ≠ .error .overrun := by
  induction stdin generalizing s with
  | nil => simp [checkpass]
  | cons token stdin ih =>
    intro h
    unfold checkpass at h
    cases hreceive : receive token s.console.input with
    | error e =>
      rw [hreceive] at h
      cases h
      exact receive_ne_overrun _ _ hreceive
    | ok line =>
      rw [hreceive] at h
      dsimp only [bind, Except.bind] at h
      split at h
      · cases h
      · exact ih _ h

theorem begin_ne_overrun {flash : Flash} {address : Nat} (hslot : SlotContent flash.cells address)
    (memory : Manager) (console : Console) : begin memory address flash console ≠ .error .overrun := by
  have hload : ∃ m, (construct memory address).loadData flash.cells = some m := by
    rcases hslot with hident | ⟨n, data, hstored⟩
    · obtain ⟨m, hm, -⟩ := Manager.loadData_empty (m := construct memory address) hident
      exact ⟨m, hm⟩
    · obtain ⟨m, -, hm, -⟩ := Manager.loadData_stored (m := construct memory address) hstored
      exact ⟨m, hm⟩
  obtain ⟨m, hm⟩ := hload
  unfold begin
  rw [hm]
  dsimp only
  split
  · simp
  · exact checkpass_ne_overrun _ _

theorem begin_started {memory : Manager} {address : Nat} {flash : Flash} {console : Console}
    {s : Session} (h : begin memory address flash console = .ok s) :
    Started memory address flash s := by
  unfold begin at h
  split at h
  next => cases h
  next pm hload =>
    unfold Manager.loadData at hload
    split at hload
    next hclear =>
      cases hload
      cases h
      exact .clear console hclear
    next n data hvault =>
      split at hload
      next hroom =>
        cases hload
        obtain ⟨console, text, checksum, records, hn, hopens, rfl⟩ := checkpass_ok h
        obtain ⟨k, rfl⟩ := Int.eq_ofNat_of_zero_le hroom.1
        have hk : k ≤ maxStored := by exact_mod_cast hroom.2.2
        have hlen := length_of_loadData hvault
        rw [copySize_of_le hk] at hlen
        obtain rfl : records.numOfPass = k := hn
        refine .login _ console text hvault rfl rfl rfl rfl rfl ?_
        rw [← hopens]
        exact (opens_append _ hlen.ge _).symm
      next => cases hload

/-! ## Runs -/

def Reached (memory : Manager) (address : Nat) (flash : Flash) (console : Console) (s : Session) :
    Prop :=
  Prompt memory address flash console s ∨
    ∃ p, Prompt memory address flash console p ∧ command p = .ok (.done s)

section
variable {memory : Manager} {address : Nat} {flash : Flash} {console : Console} {P : Session → Prop}

/-- What holds at the first prompt and is kept by every turn holds at every prompt. -/
theorem Prompt.induct (hstart : ∀ s, Started memory address flash s → P s)
    (hturn : ∀ s letter s', P s → Effect letter s s' → P s') {s : Session}
    (h : Prompt memory address flash console s) : P s := by
  obtain ⟨s₀, hbegin, hturns⟩ := h
  induction hturns with
  | refl => exact hstart _ (begin_started hbegin)
  | tail _ hnext ih =>
    obtain ⟨letter, -, heffect⟩ := command_outcome hnext
    exact hturn _ letter _ ih heffect

theorem Reached.induct (hstart : ∀ s, Started memory address flash s → P s)
    (hturn : ∀ s letter s', P s → Effect letter s s' → P s')
    (hend : ∀ s s', P s → Ending s s' → P s') {s : Session}
    (h : Reached memory address flash console s) : P s := by
  rcases h with hprompt | ⟨p, hprompt, hdone⟩
  · exact hprompt.induct hstart hturn
  · obtain ⟨letter, -, hending⟩ := command_outcome hdone
    exact hend _ _ (hprompt.induct hstart hturn) hending

theorem Effect.history {letter : Byte} {s s' : Session} (h : History Edit s.pm.records)
    (he : Effect letter s s') : History Edit s'.pm.records := by
  cases he with
  | edit console hedit => exact .edit h hedit
  | commit console hletter hchanged hfirst =>
    rcases store_cases { s with console } with ⟨-, heq⟩ | ⟨-, heq⟩ <;> rw [heq] <;> exact h
  | firstCommit console line hletter hchanged hfirst =>
    rcases store_cases { s with
      console
      pm := { s.pm with key := keyOf line.str }
      log := s.log ++ [.prompted line.str] } with ⟨-, heq⟩ | ⟨-, heq⟩ <;> rw [heq] <;> exact h
  | _ => exact h

/-- The arrays of a session on a clear slot have a history. -/
theorem Prompt.history (hclear : loadData flash.cells address = .firstUse) {s : Session}
    (h : Prompt memory address flash console s) : History Edit s.pm.records := by
  refine h.induct (fun s hs => ?_) fun _ _ _ hs he => he.history hs
  cases hs with
  | clear console _ => exact .fresh rfl
  | login pm console text h _ _ _ _ _ _ =>
    rw [hclear] at h
    cases h

end

end PasswordManager.Vault
