import PasswordManager.Lib.Checked
import PasswordManager.Lib.Reading
import PasswordManager.Vault.Session

/-!
# The fixed buffers

The functions of a session once more, on buffers whose indices are checked. An index outside
stops the session with `overflow`. Loops with constant bounds over a whole field, the key or a hash
are taken over as they are.
-/

open Nor

namespace PasswordManager.Vault.Bounds

open FlashDriver Md5

/-! ## The functions -/

/-- `memory` is what `malloc` returns. -/
def addCharacters (memory input : Field) : Option Field := do
  let size ← Checked.strlen 0 input.val
  let output ← Checked.copy memory input (List.range (size + 1))
  Checked.fill output (List.range' (size + 1) (32 - (size + 1))) blank

def addPassword (heap : Nat → Field) (r : Records) (website password : Field) :
    Option (Bool × Records) :=
  if h : r.numOfPass = maxStored then some (false, r)
  else do
    let web ← addCharacters (heap 0) website
    let pass ← addCharacters (heap 1) password
    let entry ← r.slots[r.numOfPass]?
    let website ← Checked.strcpy 0 entry.website web
    let password ← Checked.strcpy 0 entry.password pass
    return (true,
      { slots := r.slots.set r.numOfPass { website, password }
        numOfPass := r.numOfPass + 1
        length_slots := by rw [List.length_set, r.length_slots]
        bound := by have := r.bound; omega })

def getPosition (memory : Field) (r : Records) (input : Field) : Option (Option Nat) := do
  let toSearch ← addCharacters memory input
  (List.range r.numOfPass).foldlM
    (fun position i => do
      let entry ← r.slots[i]?
      return if ← Checked.strcmp 0 entry.website.val toSearch.val then some i else position)
    none

theorem bound_pred (r : Records) : r.numOfPass - 1 ≤ maxStored := by
  have := r.bound
  omega

def remove (memory : Field) (r : Records) (website : Field) : Option (Bool × Records) := do
  match ← getPosition memory r website with
  | none => return (false, r)
  | some toRemove =>
    if r.numOfPass = 1 then
      return (true, { r with numOfPass := r.numOfPass - 1, bound := bound_pred r })
    else
      let entry ← r.slots[toRemove]?
      let last ← r.slots[r.numOfPass - 1]?
      let website ← Checked.copy entry.website last.website (List.range 32)
      let password ← Checked.copy entry.password last.password (List.range 32)
      return (true,
        { slots := r.slots.set toRemove { website, password }
          numOfPass := r.numOfPass - 1
          length_slots := by rw [List.length_set, r.length_slots]
          bound := bound_pred r })

def setPassword (memory : Field) (r : Records) (i : Nat) (newPass : Field) : Option Records := do
  let pass ← addCharacters memory newPass
  let entry ← r.slots[i]?
  let password ← Checked.strcpy 0 entry.password pass
  return { r with
    slots := r.slots.set i { entry with password }
    length_slots := by rw [List.length_set, r.length_slots] }

def createKey (memory : Field) (m : Manager) (password : Field) : Option Manager := do
  let hashedToTransform := md5 (← addCharacters memory password).val
  return { m with key := ⟨hashedToTransform.val ++ hashedToTransform.val, by
    simp [hashedToTransform.property]⟩ }

/-- What `checkMasterPassword` compares. -/
def accepted (memory : Field) (key : Buf 32) (given : Field) : Option Bool := do
  let pass ← addCharacters memory given
  return (md5 pass.val).val = key.val.take 16

/-! ## The commands -/

abbrev Reads (α : Type) := Reading (List Byte) Stop α

def inside {α : Type} : Option α → Reads α := Reading.orStop .overflow

/-- The word and its terminator. -/
def receive (token : List Byte) (memory : Field) : Reads Field := do
  Reading.take token
  inside (Checked.store memory (token ++ [0]))

/-- `scanf("%s", memory)`. -/
def scanf (c : Console) (memory : Field) : Reads (Field × Console) :=
  match c.stdin with
  | [] => Reading.stop .noInput
  | token :: stdin => do
    let memory ← receive token memory
    return (memory, { c with stdin })

def scanInput (c : Console) : Reads (Field × Console) := do
  let (input, c) ← scanf c c.input
  return (input, { c with input })

def scanNew (c : Console) : Reads (Field × Console) := do
  let (memory, c) := c.alloc
  scanf c memory

def edited (m : Manager) : Bool × Records → Manager
  | (false, records) => { m with records }
  | (true, records) => { m with records, changed := true }

section
variable (heap : Nat → Field)

def add (s : Session) : Reads Next := do
  let (website, console) ← scanNew s.console
  let (password, console) ← scanInput console
  let r ← inside (addPassword heap s.pm.records website password)
  return .again { s with console, pm := edited s.pm r }

def search (s : Session) : Reads Next := do
  let (website, console) ← scanInput s.console
  let entries := match ← inside (getPosition (heap 0) s.pm.records website) with
    | none => []
    | some i => (s.pm.records.slots[i]?.map printed).toList
  return .again { s with console, log := s.log ++ [.shown entries] }

def changePassword (s : Session) (website : Field) : Reads Session := do
  match ← inside (getPosition (heap 0) s.pm.records website) with
  | none => return s
  | some i =>
    let _ ← inside (Checked.strlen 0 website.val) -- `printf` shows the website
    let (newPass, console) ← scanNew s.console
    let records ← inside (setPassword (heap 1) s.pm.records i newPass)
    return { s with console, pm := { s.pm with records, changed := true } }

def websitePassword (s : Session) : Reads Next := do
  let (website, console) ← scanInput s.console
  return .again (← changePassword heap { s with console } website)

def removeEntry (s : Session) : Reads Next := do
  let (website, console) ← scanInput s.console
  let r ← inside (remove (heap 0) s.pm.records website)
  return .again { s with console, pm := edited s.pm r }

def checkMasterPassword (s : Session) : Reads (Bool × Session) := do
  let (given, console) ← scanNew s.console
  let ok ← inside (accepted (heap 0) s.pm.key given)
  return (ok, { s with console, log := s.log ++ [.checked s.pm.key (Field.str given) ok] })

def changeMasterPassword (s : Session) : Reads (Bool × Session) := do
  let (ok, s) ← checkMasterPassword heap s
  if ok then
    let (given, console) ← scanNew s.console
    let pm ← inside (createKey (heap 1) s.pm given)
    return (true, { s with console, pm, log := s.log ++ [.rekeyed (Field.str given)] })
  else return (false, s)

def masterPassword (s : Session) : Reads Next := do
  let (_, s) ← changeMasterPassword heap { s with pm := { s.pm with changed := true } }
  return .again s

def delete (s : Session) : Reads Next := do
  let (input, console) ← scanInput s.console
  let s := { s with console }
  if (← inside (Checked.read input 0)) = ascii 'y' then
    let (ok, s) ← checkMasterPassword heap s
    if ok then
      match deleteData s.pm s.flash with
      | (true, flash) => return .done { s with flash }
      | (false, flash) => return .again { s with flash }
    else return .again s
  else return .again s

def askMasterPassword (s : Session) : Reads Session :=
  if s.pm.firstUse then do
    let (input, console) ← scanf s.console s.console.input
    let console := { console with input }
    let pm ← inside (createKey (heap 0) s.pm input)
    return { s with console, pm, log := s.log ++ [.prompted (Field.str input)] }
  else return s

def commit (s : Session) : Reads Next :=
  if s.pm.changed then do
    let s ← askMasterPassword heap s
    return .again (store s)
  else return .again s

def quit (s : Session) : Reads Next :=
  if s.pm.changed then do
    let (input, console) ← scanInput s.console
    let s := { s with console }
    if (← inside (Checked.read input 0)) = ascii 'y' then return .done s else return .again s
  else return .done s

def command (s : Session) : Reads Next := do
  let (input, console) ← scanInput s.console
  let s := { s with console }
  let letter ← inside (Checked.read input 0)
  if letter = ascii 'h' then return .again s
  else if letter = ascii 'a' then add heap s
  else if letter = ascii 's' then search heap s
  else if letter = ascii 'p' then return .again { s with log := s.log ++ [.shown s.pm.records.printAll] }
  else if letter = ascii 'm' then masterPassword heap s
  else if letter = ascii 'w' then websitePassword heap s
  else if letter = ascii 'r' then removeEntry heap s
  else if letter = ascii 'd' then delete heap s
  else if letter = ascii 'c' then commit heap s
  else if letter = ascii 'e' ∨ letter = ascii 'q' then quit s
  else return .again s

end

/-- Each attempt has its own memory from `malloc`. -/
def checkpass (heap : Nat → Field) (s : Session) : List (List Byte) → Reads Session
  | [] => Reading.stop .noInput
  | token :: stdin => do
    let input ← receive token s.console.input
    let pm ← inside (createKey (heap 0) s.pm input)
    match pm.decrypt pm.encryptedData.val with
    | (true, pm) =>
      let erased ← inside (Checked.strcpy 0 input dots)
      return { s with
        pm
        console := { s.console with input := erased, stdin }
        log := s.log ++ [.login (Field.str input)] }
    | (false, pm) =>
      checkpass (fun n => heap (n + 1)) { s with pm, console := { s.console with input, stdin } } stdin

def begin (heap : Nat → Field) (memory : Manager) (address : Nat) (flash : Flash)
    (console : Console) : Reads Session :=
  match (construct memory address).loadData flash.cells with
  | none => Reading.stop .overrun
  | some pm =>
    let s : Session := { pm, flash, console, log := [] }
    if pm.firstUse then return s else checkpass heap s console.stdin

/-! ## The functions stay inside -/

theorem addCharacters_eq (memory : Field) (l : Line) :
    addCharacters memory l.field = some (Vault.addCharacters l).field := by
  have hlt := l.strlen_lt
  set size := CString.strlen 0 l.field.val with hsize
  obtain ⟨output, hcopy, ho⟩ := Checked.copy_range memory l.field (k := size + 1) hlt hlt
  obtain ⟨b, hfill, hb⟩ := Checked.fill_range output (k := size + 1) (j := 32 - (size + 1)) (by omega)
    blank
  have hb' : b = (Vault.addCharacters l).field := by
    apply Buf.ext
    have hhead : output.val.take (size + 1) = l.field.val.take (size + 1) := by
      rw [ho.val, List.take_left' (List.length_take_of_le (by rw [l.field.property]; exact hlt))]
    have hlen : (output.val.take (size + 1) ++ List.replicate (32 - (size + 1)) blank).length = 32 := by
      rw [List.length_append, List.length_take, List.length_replicate, output.property]
      omega
    rw [hb.val, hlen, List.drop_of_length_le output.property.le, List.append_nil, hhead]
    rfl
  unfold addCharacters
  rw [Checked.strlen_eq l.terminated, ← hb', ← hsize]
  change (Checked.copy _ _ _ >>= _) = _
  rw [hcopy]
  exact hfill

theorem strcpy_eq (dst : Field) (src : Line) :
    Checked.strcpy 0 dst src.field = some (strcpy dst src) := by
  obtain ⟨b, hb, hval⟩ := Checked.strcpy_eq dst src.terminated le_rfl
  rw [hb]
  exact congrArg some (Buf.ext hval)

theorem memcpy_eq (dst src : Field) : Checked.copy dst src (List.range 32) = some src := by
  obtain ⟨b, hb, hbegun⟩ := Checked.copy_range dst src (k := 32) le_rfl le_rfl
  rw [hb]
  refine congrArg some (Buf.ext ?_)
  rw [hbegun.val, List.take_of_length_le src.property.le, src.property,
    List.drop_of_length_le dst.property.le, List.append_nil]

theorem strcmp_eq (one : Field) (two : Line) :
    Checked.strcmp 0 one.val two.field.val = some (sameString one two.field) :=
  Checked.strcmp_eq (by rw [one.property, two.field.property]) two.terminated

theorem modify_eq_set {r : Records} {i : Nat} {entry : WPTuple} (h : r.slots[i]? = some entry)
    (f : WPTuple → WPTuple) : r.slots.modify i f = r.slots.set i (f entry) := by
  let _ : Inhabited WPTuple := ⟨entry⟩
  rw [List.modify_eq_set, h]
  rfl

theorem getElem?_slots (r : Records) {i : Nat} (h : i < maxStored) :
    ∃ entry, r.slots[i]? = some entry :=
  ⟨_, List.getElem?_eq_getElem (by rw [r.length_slots]; exact h)⟩

theorem addPassword_eq (heap : Nat → Field) (r : Records) (website password : Line) :
    addPassword heap r website.field password.field = some (r.addPassword website password) := by
  unfold addPassword Records.addPassword
  split
  next => rfl
  next hroom =>
    obtain ⟨entry, hentry⟩ := getElem?_slots r (lt_of_le_of_ne r.bound hroom)
    rw [addCharacters_eq, addCharacters_eq, hentry]
    change (Checked.strcpy 0 entry.website _ >>= _) = _
    rw [strcpy_eq]
    change (Checked.strcpy 0 entry.password _ >>= _) = _
    rw [strcpy_eq]
    simp only [modify_eq_set hentry]
    rfl

theorem getPosition_eq (memory : Field) (r : Records) (input : Line) :
    getPosition memory r input.field = some (r.getPosition input) := by
  rw [getPosition, addCharacters_eq]
  change List.foldlM _ _ _ = _
  rw [Records.getPosition]
  apply Checked.foldlM_eq_some
  intro i hi position
  have hlt : i < maxStored := lt_of_lt_of_le (List.mem_range.mp hi) r.bound
  obtain ⟨entry, hentry⟩ := getElem?_slots r hlt
  rw [hentry]
  change (Checked.strcmp 0 entry.website.val _ >>= _) = _
  rw [strcmp_eq]
  rfl

theorem remove_eq (memory : Field) (r : Records) (website : Line) :
    remove memory r website.field = some (r.remove website) := by
  rw [remove, getPosition_eq, Records.remove]
  cases h : r.getPosition website with
  | none => rfl
  | some i =>
    have hi := Records.getPosition_lt h
    have hbound := r.bound
    dsimp only [bind, Option.bind]
    split
    next => rfl
    next =>
      obtain ⟨entry, hentry⟩ := getElem?_slots r (hi.trans_le hbound)
      obtain ⟨last, hlast⟩ := getElem?_slots r (i := r.numOfPass - 1) (by omega)
      simp only [hentry, hlast, memcpy_eq]
      rfl

theorem setPassword_eq (memory : Field) (r : Records) {i : Nat} (h : i < maxStored) (newPass : Line) :
    setPassword memory r i newPass.field = some (r.setPassword i newPass) := by
  obtain ⟨entry, hentry⟩ := getElem?_slots r h
  rw [setPassword, addCharacters_eq, hentry]
  change (Checked.strcpy 0 entry.password _ >>= _) = _
  rw [strcpy_eq, Records.setPassword]
  simp only [modify_eq_set hentry]
  rfl

theorem createKey_eq (memory : Field) (m : Manager) (password : Line) :
    createKey memory m password.field = some (m.createKey password) := by
  rw [createKey, addCharacters_eq]
  rfl

theorem accepted_eq (memory : Field) (key : Buf 32) (given : Line) :
    accepted memory key given.field = some (Vault.accepted key given) := by
  rw [accepted, addCharacters_eq]
  rfl

theorem edited_addPassword (m : Manager) (website password : Line) :
    (m.addPassword website password).2 = edited m (m.records.addPassword website password) := by
  unfold Manager.addPassword
  cases m.records.addPassword website password with
  | mk ok records => cases ok <;> rfl

theorem edited_remove (m : Manager) (website : Line) :
    (m.remove website).2 = edited m (m.records.remove website) := by
  unfold Manager.remove
  cases m.records.remove website with
  | mk ok records => cases ok <;> rfl

/-! ## The commands follow those of the session -/

/-- A word that does not fit into 32 bytes with its terminator. -/
def Long (word : List Byte) : Prop := 32 ≤ word.length

abbrev Agrees {α β : Type} (input : List (List Byte)) (rest : β → List (List Byte)) (g : β → α) :
    Reads α → Except Stop β → Prop :=
  Reading.Follows Long Stop.overflow input rest g

def raw (p : Line × Console) : Field × Console := (p.1.field, p.2)

def Next.stdin : Next → List (List Byte)
  | .again s => s.console.stdin
  | .done s => s.console.stdin

theorem receive_agrees (token : List Byte) (memory : Field) (stdin : List (List Byte)) :
    Agrees (token :: stdin) (fun _ => stdin) Line.field (receive token memory)
      (Vault.receive token memory) := by
  have hspec := Checked.store_spec memory (token ++ [0])
  rw [List.length_append, List.length_singleton] at hspec
  by_cases h : token.length < 32
  · obtain ⟨b, hstore, hb⟩ := hspec.1 h
    have hput : b = (Line.put token h memory).field := by
      apply Buf.ext
      rw [hb.val, List.length_append, List.append_assoc]
      rfl
    have hx : receive token memory = ⟨[token], .ok (Line.put token h memory).field⟩ := by
      rw [receive, hstore, hput]
      rfl
    rw [hx, Vault.receive, dif_pos h]
    exact ⟨rfl, by simp [Long, h], ⟨stdin, rfl⟩, fun _ _ => rfl⟩
  · have hx : receive token memory = ⟨[token], .error .overflow⟩ := by
      rw [receive, hspec.2 (by omega)]
      rfl
    rw [hx, Vault.receive, dif_neg h]
    exact ⟨rfl, by simp [Long, Nat.not_lt.mp h], ⟨stdin, rfl⟩, fun _ hb => by cases hb⟩

theorem scanf_agrees (c : Console) (memory : Field) :
    Agrees c.stdin (fun p => p.2.stdin) raw (scanf c memory) (c.scanf memory) := by
  obtain ⟨input, stdin, fresh⟩ := c
  cases stdin with
  | nil => exact .stop (show Stop.noInput ≠ .overflow by decide)
  | cons token stdin =>
    exact (receive_agrees token memory stdin).bind fun line _ => .pure rfl rfl

theorem scanInput_agrees (c : Console) :
    Agrees c.stdin (fun p => p.2.stdin) raw (scanInput c) c.scanInput :=
  (scanf_agrees c c.input).bind fun _ _ => .pure rfl rfl

theorem scanNew_agrees (c : Console) :
    Agrees c.stdin (fun p => p.2.stdin) raw (scanNew c) c.scanNew :=
  scanf_agrees c.alloc.2 c.alloc.1

section
variable (heap : Nat → Field) (s : Session)

theorem add_agrees : Agrees s.console.stdin Next.stdin id (add heap s) (Vault.add s) := by
  refine (scanNew_agrees s.console).bind fun ⟨website, console⟩ _ => ?_
  refine (scanInput_agrees console).bind fun ⟨password, console⟩ _ => ?_
  refine .orStop (addPassword_eq heap _ website password) ?_
  simp only [edited_addPassword]
  exact .pure rfl rfl

theorem search_agrees : Agrees s.console.stdin Next.stdin id (search heap s) (Vault.search s) := by
  refine (scanInput_agrees s.console).bind fun ⟨website, console⟩ _ => ?_
  refine .orStop (getPosition_eq (heap 0) s.pm.records website) ?_
  simp only [Records.searchPassword]
  cases s.pm.records.getPosition website with
  | none => exact .pure rfl rfl
  | some i => exact .pure rfl rfl

theorem changePassword_agrees (website : Line) :
    Agrees s.console.stdin (fun s => s.console.stdin) id (changePassword heap s website.field)
      (Vault.changePassword s website) := by
  refine .orStop (getPosition_eq (heap 0) s.pm.records website) ?_
  unfold Vault.changePassword
  cases h : s.pm.records.getPosition website with
  | none => exact .pure rfl rfl
  | some i =>
    have hi : i < maxStored := (Records.getPosition_lt h).trans_le s.pm.records.bound
    refine .orStop (Checked.strlen_eq website.terminated) ?_
    refine (scanNew_agrees s.console).bind fun ⟨newPass, console⟩ _ => ?_
    refine .orStop (setPassword_eq (heap 1) s.pm.records hi newPass) ?_
    exact .pure rfl rfl

theorem websitePassword_agrees :
    Agrees s.console.stdin Next.stdin id (websitePassword heap s) (Vault.websitePassword s) := by
  refine (scanInput_agrees s.console).bind fun ⟨website, console⟩ _ => ?_
  refine (changePassword_agrees heap { s with console } website).bind fun s' _ => ?_
  exact .pure rfl rfl

theorem removeEntry_agrees :
    Agrees s.console.stdin Next.stdin id (removeEntry heap s) (Vault.removeEntry s) := by
  refine (scanInput_agrees s.console).bind fun ⟨website, console⟩ _ => ?_
  refine .orStop (remove_eq (heap 0) s.pm.records website) ?_
  simp only [edited_remove]
  exact .pure rfl rfl

theorem checkMasterPassword_agrees :
    Agrees s.console.stdin (fun p => p.2.console.stdin) id (checkMasterPassword heap s)
      (Vault.checkMasterPassword s) := by
  refine (scanNew_agrees s.console).bind fun ⟨given, console⟩ _ => ?_
  refine .orStop (accepted_eq (heap 0) s.pm.key given) ?_
  exact .pure rfl rfl

theorem changeMasterPassword_agrees :
    Agrees s.console.stdin (fun p => p.2.console.stdin) id (changeMasterPassword heap s)
      (Vault.changeMasterPassword s) := by
  refine (checkMasterPassword_agrees heap s).bind fun ⟨ok, s⟩ _ => ?_
  refine .ite (fun _ => ?_) fun _ => .pure rfl rfl
  refine (scanNew_agrees s.console).bind fun ⟨given, console⟩ _ => ?_
  refine .orStop (createKey_eq (heap 1) s.pm given) ?_
  exact .pure rfl rfl

theorem masterPassword_agrees :
    Agrees s.console.stdin Next.stdin id (masterPassword heap s) (Vault.masterPassword s) := by
  refine (changeMasterPassword_agrees heap { s with pm := { s.pm with changed := true } }).bind
    fun ⟨_, s'⟩ _ => ?_
  exact .pure rfl rfl

theorem read_first (l : Line) : Checked.read l.field 0 = some l.first := by
  obtain ⟨⟨l, hl⟩, h⟩ := l
  cases l with
  | nil => simp at h
  | cons x l => rfl

theorem delete_agrees : Agrees s.console.stdin Next.stdin id (delete heap s) (Vault.delete s) := by
  refine (scanInput_agrees s.console).bind fun ⟨line, console⟩ _ => ?_
  refine .orStop (read_first line) ?_
  refine .ite (fun _ => ?_) fun _ => .pure rfl rfl
  refine (checkMasterPassword_agrees heap { s with console }).bind fun ⟨ok, s⟩ _ => ?_
  refine .ite (fun _ => ?_) fun _ => .pure rfl rfl
  dsimp only [id]
  cases deleteData s.pm s.flash with
  | mk ok flash => cases ok <;> exact .pure rfl rfl

theorem askMasterPassword_agrees :
    Agrees s.console.stdin (fun s => s.console.stdin) id (askMasterPassword heap s)
      (Vault.askMasterPassword s) := by
  refine .ite (fun _ => ?_) fun _ => .pure rfl rfl
  refine (scanf_agrees s.console s.console.input).bind fun ⟨line, console⟩ _ => ?_
  refine .orStop (createKey_eq (heap 0) s.pm line) ?_
  exact .pure rfl rfl

theorem store_console : (store s).console = s.console := by
  rcases store_cases s with ⟨-, h⟩ | ⟨-, h⟩ <;> rw [h]

theorem commit_agrees : Agrees s.console.stdin Next.stdin id (commit heap s) (Vault.commit s) := by
  refine .ite (fun _ => ?_) fun _ => .pure rfl rfl
  refine (askMasterPassword_agrees heap s).bind fun s _ => ?_
  exact .pure rfl (by rw [Next.stdin, store_console])

theorem quit_agrees : Agrees s.console.stdin Next.stdin id (quit s) (Vault.quit s) := by
  refine .ite (fun _ => ?_) fun _ => .pure rfl rfl
  refine (scanInput_agrees s.console).bind fun ⟨line, console⟩ _ => ?_
  refine .orStop (read_first line) ?_
  exact .ite (fun _ => .pure rfl rfl) fun _ => .pure rfl rfl

theorem command_agrees : Agrees s.console.stdin Next.stdin id (command heap s) (Vault.command s) := by
  refine (scanInput_agrees s.console).bind fun ⟨line, console⟩ _ => ?_
  refine .orStop (read_first line) ?_
  refine .ite (fun _ => .pure rfl rfl) fun _ => ?_
  refine .ite (fun _ => add_agrees heap { s with console }) fun _ => ?_
  refine .ite (fun _ => search_agrees heap { s with console }) fun _ => ?_
  refine .ite (fun _ => .pure rfl rfl) fun _ => ?_
  refine .ite (fun _ => masterPassword_agrees heap { s with console }) fun _ => ?_
  refine .ite (fun _ => websitePassword_agrees heap { s with console }) fun _ => ?_
  refine .ite (fun _ => removeEntry_agrees heap { s with console }) fun _ => ?_
  refine .ite (fun _ => delete_agrees heap { s with console }) fun _ => ?_
  refine .ite (fun _ => commit_agrees heap { s with console }) fun _ => ?_
  refine .ite (fun _ => quit_agrees { s with console }) fun _ => ?_
  exact .pure rfl rfl

end

theorem strcpy_dots (input : Field) : Checked.strcpy 0 input dots = some dots := by
  obtain ⟨b, hb, hval⟩ := Checked.strcpy_eq input (show 0 ∈ dots.val by decide) le_rfl
  rw [hb]
  refine congrArg some (Buf.ext ?_)
  rw [hval, CString.strcpy, show CString.strlen 0 dots.val + 1 = 32 by decide,
    List.take_of_length_le dots.property.le, List.drop_of_length_le input.property.le, List.append_nil]

theorem checkpass_agrees (heap : Nat → Field) (s : Session) (stdin : List (List Byte)) :
    Agrees stdin (fun s => s.console.stdin) id (checkpass heap s stdin) (Vault.checkpass s stdin) := by
  induction stdin generalizing heap s with
  | nil => exact .stop (show Stop.noInput ≠ .overflow by decide)
  | cons token stdin ih =>
    refine (receive_agrees token s.console.input stdin).bind fun line _ => ?_
    refine .orStop (createKey_eq (heap 0) s.pm line) ?_
    dsimp only
    cases (s.pm.createKey line).decrypt (s.pm.createKey line).encryptedData.val with
    | mk ok pm =>
      cases ok with
      | true => exact .orStop (strcpy_dots line.field) (.pure rfl rfl)
      | false => exact ih _ _

theorem begin_agrees (heap : Nat → Field) (memory : Manager) (address : Nat) (flash : Flash)
    (console : Console) :
    Agrees console.stdin (fun s => s.console.stdin) id (begin heap memory address flash console)
      (Vault.begin memory address flash console) := by
  unfold begin Vault.begin
  cases (construct memory address).loadData flash.cells with
  | none => exact .stop (show Stop.overrun ≠ .overflow by decide)
  | some pm =>
    exact .ite (fun _ => .pure rfl rfl) fun _ => checkpass_agrees heap _ console.stdin

/-! ## Runs -/

section
variable (memory : Manager) (address : Nat) (flash : Flash) (console : Console)

/-- A prompt of the program with checked indices. -/
def Prompt (s : Session) : Prop :=
  ∃ s₀, (∃ heap, (begin heap memory address flash console).outcome = .ok s₀) ∧
    Relation.ReflTransGen (fun s s' => ∃ heap, (command heap s).outcome = .ok (.again s')) s₀ s

/-- No index leaves its buffer, from the start to the last turn. -/
def Inside : Prop :=
  (∀ heap, (begin heap memory address flash console).outcome ≠ .error .overflow) ∧
    ∀ s, Prompt memory address flash console s →
      ∀ heap, (command heap s).outcome ≠ .error .overflow

/-- A word that is read in a run. -/
def Read (word : List Byte) : Prop :=
  (∃ heap, word ∈ (begin heap memory address flash console).taken) ∨
    ∃ s, Prompt memory address flash console s ∧ ∃ heap, word ∈ (command heap s).taken

end

theorem Agrees.eq {α : Type} {input : List (List Byte)} {rest : α → List (List Byte)} {x : Reads α}
    {y : Except Stop α} (h : Agrees input rest id x y) : x.outcome = y := by
  rw [h.outcome]
  cases y <;> rfl

section
variable {memory : Manager} {address : Nat} {flash : Flash} {console : Console}

/-- The prompts are those of the session. -/
theorem prompt_iff {s : Session} :
    Prompt memory address flash console s ↔ Vault.Prompt memory address flash console s := by
  have _ : Nonempty (Nat → Field) := ⟨fun _ => dots⟩
  have hbegin : ∀ s₀, (∃ heap, (begin heap memory address flash console).outcome = .ok s₀) ↔
      Vault.begin memory address flash console = .ok s₀ := fun s₀ => by
    simp only [(begin_agrees _ memory address flash console).eq, exists_const]
  have hturn : (fun s s' => ∃ heap, (command heap s).outcome = .ok (.again s')) = Turn := by
    funext s s'
    simp only [(command_agrees _ s).eq, exists_const, Turn]
  simp only [Prompt, Vault.Prompt, hbegin, hturn]

theorem Prompt.typed {s : Session} (h : Prompt memory address flash console s) :
    s.console.stdin <:+ console.stdin := by
  obtain ⟨s₀, ⟨heap, hbegin⟩, hturns⟩ := h
  have hagrees := begin_agrees heap memory address flash console
  have hstart := hagrees.rest s₀ (hagrees.eq.symm.trans hbegin)
  induction hturns with
  | refl => exact ⟨_, hstart.symm⟩
  | @tail s s' _ hturn ih =>
    obtain ⟨heap', hcommand⟩ := hturn
    have hagrees' := command_agrees heap' s
    have hrest := hagrees'.rest (.again s') (hagrees'.eq.symm.trans hcommand)
    exact List.IsSuffix.trans ⟨_, hrest.symm⟩ ih

theorem Read.typed {word : List Byte} (h : Read memory address flash console word) :
    word ∈ console.stdin := by
  rcases h with ⟨heap, hword⟩ | ⟨s, hs, heap, hword⟩
  · exact (begin_agrees heap memory address flash console).taken.mem hword
  · exact hs.typed.mem ((command_agrees heap s).taken.mem hword)

end

/-- In every run each index stays inside its buffer exactly when every word that is read has less
than 32 bytes. Only what was typed is read. -/
theorem inside_iff (memory : Manager) (address : Nat) (flash : Flash) (console : Console) :
    (Inside memory address flash console ↔
      ∀ word, Read memory address flash console word → word.length < 32) ∧
    ∀ word, Read memory address flash console word → word ∈ console.stdin := by
  have hbegin := fun heap => (begin_agrees heap memory address flash console).exact_fault
  have hturn := fun heap s => (command_agrees heap s).exact_fault
  refine ⟨?_, fun word hread => hread.typed⟩
  constructor
  · rintro ⟨hstart, hturns⟩ word hread
    by_contra hshort
    have hlong : Long word := not_lt.mp hshort
    rcases hread with ⟨heap, hword⟩ | ⟨s, hs, heap, hword⟩
    · exact hstart heap ((hbegin heap).mpr ⟨word, hword, hlong⟩)
    · exact hturns s hs heap ((hturn heap s).mpr ⟨word, hword, hlong⟩)
  · intro hshort
    constructor
    · intro heap hfault
      obtain ⟨word, hword, hlong⟩ := (hbegin heap).mp hfault
      exact not_lt.mpr hlong (hshort word (.inl ⟨heap, hword⟩))
    · intro s hs heap hfault
      obtain ⟨word, hword, hlong⟩ := (hturn heap s).mp hfault
      exact not_lt.mpr hlong (hshort word (.inr ⟨s, hs, heap, hword⟩))

/-- A first command of 32 bytes puts its terminator behind the buffer. -/
theorem long_command_outside :
    ¬ Inside (Manager.zeroed 0) 0x080F8000 Flash.cleared
      (typed ["aaaaaaaaaaaaaaaaaaaaaaaaaaaaaaaa"]) := by
  rintro ⟨-, hturns⟩
  have heap : Nat → Field := fun _ => dots
  exact hturns _ ⟨_, ⟨heap, rfl⟩, .refl⟩ heap rfl

end PasswordManager.Vault.Bounds
