import PasswordManager.Lib.Lists
import PasswordManager.Vault.Log

/-!
# The safe behind a session

A list of pairs of strings, a key and what the slot holds under which key. No arrays, no buffers and no
memory.
-/

namespace PasswordManager.Vault

open Md5

abbrev Entry : Type := List Byte × List Byte

structure Safe where
  entries : List Entry
  changed : Bool
  firstUse : Bool
  key : Buf 32
  /-- The vault in the slot, and its key. -/
  held : Option (Buf 32 × List Entry)
  stdin : List (List Byte)
  log : List Event

inductive Safe.Next
  | again (t : Safe)
  | done (t : Safe)

/-! ## The commands on strings -/

/-- The next word, up to its first NUL. -/
def nextWord : List (List Byte) → Except Stop (List Byte × List (List Byte))
  | [] => .error .noInput
  | token :: stdin => if token.length < 32 then .ok (CString.str 0 token, stdin) else .error .overflow

def find (entries : List Entry) (website : List Byte) : Option Nat :=
  Lists.lastIdx? (fun e => e.1 = website) entries

/-- A byte 0xFF cuts what is shown, and takes the end away. So does a string that fills its buffer. -/
def seen (s : List Byte) : Text :=
  ⟨CString.str 0xFF s, !s.contains 0xFF && decide (s.length < 32)⟩

def display (e : Entry) : Text × Text := (seen e.1, seen e.2)

namespace Safe

def add (t : Safe) : Except Stop Next := do
  let (website, stdin) ← nextWord t.stdin
  let (password, stdin) ← nextWord stdin
  if t.entries.length = maxStored then return .again { t with stdin }
  else return .again { t with stdin, entries := t.entries ++ [(website, password)], changed := true }

def search (t : Safe) : Except Stop Next := do
  let (website, stdin) ← nextWord t.stdin
  let found := (find t.entries website).bind fun i => t.entries[i]?.map display
  return .again { t with stdin, log := t.log ++ [.shown found.toList] }

def printAll (t : Safe) : Except Stop Next :=
  return .again { t with log := t.log ++ [.shown (t.entries.map display)] }

def websitePassword (t : Safe) : Except Stop Next := do
  let (website, stdin) ← nextWord t.stdin
  match find t.entries website with
  | none => return .again { t with stdin }
  | some i => do
    let (newPass, stdin) ← nextWord stdin
    let entries := t.entries.modify i fun e => (e.1, newPass)
    return .again { t with stdin, entries, changed := true }

def removeEntry (t : Safe) : Except Stop Next := do
  let (website, stdin) ← nextWord t.stdin
  match find t.entries website with
  | none => return .again { t with stdin }
  | some i => return .again { t with stdin, entries := Lists.swapRemove t.entries i, changed := true }

def check (t : Safe) : Except Stop (Bool × Safe) := do
  let (given, stdin) ← nextWord t.stdin
  let ok := decide ((md5 (padded given)).val = t.key.val.take 16)
  return (ok, { t with stdin, log := t.log ++ [.checked t.key given ok] })

def masterPassword (t : Safe) : Except Stop Next := do
  let (ok, t) ← check { t with changed := true }
  if ok then
    let (new, stdin) ← nextWord t.stdin
    return .again { t with stdin, key := keyOf new, log := t.log ++ [.rekeyed new] }
  else return .again t

def delete (t : Safe) : Except Stop Next := do
  let (answer, stdin) ← nextWord t.stdin
  let t := { t with stdin }
  if answer.headD 0 = ascii 'y' then
    let (ok, t) ← check t
    if ok then return .done { t with held := none } else return .again t
  else return .again t

def ask (t : Safe) : Except Stop Safe :=
  if t.firstUse then do
    let (new, stdin) ← nextWord t.stdin
    return { t with stdin, key := keyOf new, log := t.log ++ [.prompted new] }
  else return t

def store (t : Safe) : Safe :=
  { t with changed := false, held := some (t.key, t.entries), log := t.log ++ [.stored t.key] }

def commit (t : Safe) : Except Stop Next :=
  if t.changed then do
    let t ← t.ask
    return .again t.store
  else return .again t

def quit (t : Safe) : Except Stop Next :=
  if t.changed then do
    let (answer, stdin) ← nextWord t.stdin
    let t := { t with stdin }
    if answer.headD 0 = ascii 'y' then return .done t else return .again t
  else return .done t

def command (t : Safe) : Except Stop Next := do
  let (name, stdin) ← nextWord t.stdin
  let t := { t with stdin }
  let letter := name.headD 0
  if letter = ascii 'h' then return .again t
  else if letter = ascii 'a' then t.add
  else if letter = ascii 's' then t.search
  else if letter = ascii 'p' then t.printAll
  else if letter = ascii 'm' then t.masterPassword
  else if letter = ascii 'w' then t.websitePassword
  else if letter = ascii 'r' then t.removeEntry
  else if letter = ascii 'd' then t.delete
  else if letter = ascii 'c' then t.commit
  else if letter = ascii 'e' ∨ letter = ascii 'q' then t.quit
  else return .again t

def Turn (t t' : Safe) : Prop := t.command = .ok (.again t')

/-! ## A check of the master password -/

section
variable {t : Safe} {name given new : List Byte} {stdin : List (List Byte)}

theorem nextWord_cons {token : List Byte} (h : token.length < 32) (stdin : List (List Byte)) :
    nextWord (token :: stdin) = .ok (CString.str 0 token, stdin) := if_pos h

theorem command_m (hstdin : t.stdin = name :: stdin) (hname : name.length < 32)
    (hletter : (CString.str 0 name).headD 0 = ascii 'm') :
    t.command = masterPassword { t with stdin } := by
  unfold command
  rw [hstdin, nextWord_cons hname]
  dsimp only [bind, Except.bind]
  rw [hletter]
  rfl

theorem wrong_turn (hstdin : t.stdin = name :: given :: stdin) (hname : name.length < 32)
    (hletter : (CString.str 0 name).headD 0 = ascii 'm') (hgiven : given.length < 32)
    (hwrong : (md5 (padded (CString.str 0 given))).val ≠ t.key.val.take 16) :
    t.Turn { t with
      stdin
      changed := true
      log := t.log ++ [.checked t.key (CString.str 0 given) false] } := by
  rw [Turn, command_m hstdin hname hletter, masterPassword, check]
  dsimp only
  rw [nextWord_cons hgiven]
  dsimp only [bind, Except.bind]
  rw [decide_eq_false hwrong]
  rfl

theorem rekey_turn (hstdin : t.stdin = name :: given :: new :: stdin) (hname : name.length < 32)
    (hletter : (CString.str 0 name).headD 0 = ascii 'm') (hgiven : given.length < 32)
    (hkey : t.key = keyOf (CString.str 0 given)) (hnew : new.length < 32) :
    t.Turn { t with
      stdin
      changed := true
      key := keyOf (CString.str 0 new)
      log := t.log ++ [.checked t.key (CString.str 0 given) true] ++ [.rekeyed (CString.str 0 new)] } := by
  have hright : (md5 (padded (CString.str 0 given))).val = t.key.val.take 16 := by rw [hkey, take_keyOf]
  rw [Turn, command_m hstdin hname hletter, masterPassword, check]
  dsimp only
  rw [nextWord_cons hgiven]
  dsimp only [bind, Except.bind, pure, Except.pure]
  rw [decide_eq_true hright, if_pos rfl, nextWord_cons hnew]

end

end Safe

end PasswordManager.Vault
