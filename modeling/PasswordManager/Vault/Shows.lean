import PasswordManager.Lib.Alike
import PasswordManager.Vault.Display
import PasswordManager.Vault.Login
import PasswordManager.Vault.Safe

/-!
# A session shows a safe

On a chip that takes every operation, each command of a session does what the safe does.
-/

open Nor

namespace PasswordManager.Vault

open FlashDriver Alike

/-! ## What a session shows -/

/-- What the slot holds, as pairs of strings. -/
def Held (c : Cells) (address : Nat) : Option (Buf 32 × List Entry) → Prop
  | none => loadData c address = .firstUse
  | some (key, entries) => ∃ live, Stored c address live.length (blob key live) ∧
      live.map WPTuple.pair = entries

structure Shows (s : Session) (t : Safe) : Prop where
  place : SlotAddress s.pm.address
  accepts : ∀ i, s.flash.accepts i = true
  entries : t.entries = s.pm.records.live.map WPTuple.pair
  changed : t.changed = s.pm.changed
  firstUse : t.firstUse = s.pm.firstUse
  key : t.key = s.pm.key
  held : Held s.flash.cells s.pm.address t.held
  stdin : t.stdin = s.console.stdin
  log : t.log = s.log

inductive ShowsNext : Next → Safe.Next → Prop
  | again {s : Session} {t : Safe} (h : Shows s t) : ShowsNext (.again s) (.again t)
  | done {s : Session} {t : Safe} (h : Shows s t) : ShowsNext (.done s) (.done t)

theorem loadData_eq_firstUse {c : Cells} {address : Nat} :
    loadData c address = .firstUse ↔ read c address 4 ≠ ident := by
  unfold loadData
  split <;> simp_all

theorem Held.congr {c c' : Cells} {address : Nat} {held : Option (Buf 32 × List Entry)}
    (h : Held c address held) (hcells : ∀ x, address ≤ x → x < address + 0x8000 → c x = c' x) :
    Held c' address held := by
  cases held with
  | none =>
    apply loadData_eq_firstUse.mpr
    rw [← read_congr fun x hx hx' => hcells x hx (by omega)]
    exact loadData_eq_firstUse.mp h
  | some vault =>
    obtain ⟨live, hstored, hlive⟩ := h
    exact ⟨live, hstored.congr hcells, hlive⟩

/-! ## Words -/

/-- A line in a buffer, with the console behind it, shows the word and the words behind it. -/
def ShowsWord (p : Line × Console) (q : List Byte × List (List Byte)) : Prop :=
  p.1.str = q.1 ∧ p.2.stdin = q.2

theorem scanf_shows (c : Console) (memory : Field) :
    Results ShowsWord (c.scanf memory) (nextWord c.stdin) := by
  unfold Console.scanf nextWord receive
  cases c.stdin with
  | nil => exact .error _
  | cons token stdin =>
    dsimp only
    split
    next hlength => exact .ok ⟨str_put token hlength memory, rfl⟩
    next => exact .error _

theorem scanInput_shows (c : Console) : Results ShowsWord c.scanInput (nextWord c.stdin) := by
  have h := scanf_shows c c.input
  unfold Console.scanInput
  generalize c.scanf c.input = line, nextWord c.stdin = word at h
  cases h with
  | ok h => exact .ok h
  | error e => exact .error e

theorem scanNew_shows (c : Console) : Results ShowsWord c.scanNew (nextWord c.stdin) :=
  scanf_shows c.alloc.2 c.alloc.1

/-- What is done with the word and the words behind it. -/
theorem read_word {α β : Type} {R : α → β → Prop} {x : Except Stop (Line × Console)}
    {y : Except Stop (List Byte × List (List Byte))} {f : Line × Console → Except Stop α}
    {g : List Byte × List (List Byte) → Except Stop β} (h : Results ShowsWord x y)
    (hnext : ∀ line console, Results R (f (line, console)) (g (line.str, console.stdin))) :
    Results R (x >>= f) (y >>= g) := by
  refine h.bind fun p q hword => ?_
  obtain ⟨line, console⟩ := p
  obtain ⟨text, stdin⟩ := q
  obtain ⟨rfl, rfl⟩ := hword
  exact hnext line console

theorem Line.first_eq (l : Line) : l.first = l.str.headD 0 := by
  have hlength := l.field.property
  unfold Line.first Line.str Field.str CString.str
  cases hval : l.field.val with
  | nil => simp [hval] at hlength
  | cons b rest =>
    by_cases hb : b = 0
    · simp [hb]
    · rw [List.takeWhile_cons_of_pos (by simpa using hb)]
      rfl

/-! ## The commands -/

theorem find_live (r : Records) (website : Line) :
    find (r.live.map WPTuple.pair) website.str = r.getPosition website := by
  rw [find, Lists.lastIdx?_map, Records.getPosition_eq]
  rfl

theorem length_str_lt (f : Field) : f.str.length < 32 ↔ 0 ∈ f.val := by
  constructor
  · intro h
    by_contra hopen
    rw [Field.str, CString.str_eq_self hopen, f.property] at h
    exact absurd h (Nat.lt_irrefl 32)
  · intro h
    exact f.property ▸ CString.strlen_lt h

theorem shown_eq (f : Field) : shown f = seen f.str := by
  have hended : 0 ∈ transformArray f ↔ 0xFF ∉ f.str ∧ f.str.length < 32 := by
    rw [length_str_lt, and_comm]
    constructor
    · intro h
      have hmem : 0 ∈ f.val := (List.takeWhile_prefix _).subset h
      exact ⟨hmem, (CString.mem_str_iff (by decide) hmem).mp h⟩
    · rintro ⟨hmem, hff⟩
      exact (CString.mem_str_iff (by decide) hmem).mpr hff
  rw [shown, CString.text, seen, List.contains_eq_mem, decide_eq_decide.mpr hended, Bool.decide_and,
    decide_not]
  exact congrArg (CString.Text.mk · _) (val_shown f)

theorem printed_eq (t : WPTuple) : printed t = display t.pair := by
  rw [printed, shown_eq, shown_eq]
  rfl

section
variable {s : Session} {t : Safe}

theorem Shows.read (h : Shows s t) (console : Console) :
    Shows { s with console } { t with stdin := console.stdin } :=
  ⟨h.place, h.accepts, h.entries, h.changed, h.firstUse, h.key, h.held, rfl, h.log⟩

theorem Shows.logged (h : Shows s t) (e : Event) :
    Shows { s with log := s.log ++ [e] } { t with log := t.log ++ [e] } :=
  ⟨h.place, h.accepts, h.entries, h.changed, h.firstUse, h.key, h.held, h.stdin, by rw [h.log]⟩

theorem Shows.edited (h : Shows s t) (records : Records) {entries : List Entry}
    (hentries : entries = records.live.map WPTuple.pair) :
    Shows { s with pm := { s.pm with records, changed := true } } { t with entries, changed := true } :=
  ⟨h.place, h.accepts, hentries, rfl, h.firstUse, h.key, h.held, h.stdin, h.log⟩

theorem Shows.rekeyed (h : Shows s t) (key : Buf 32) :
    Shows { s with pm := { s.pm with key } } { t with key } :=
  ⟨h.place, h.accepts, h.entries, h.changed, h.firstUse, rfl, h.held, h.stdin, h.log⟩

theorem Shows.length (h : Shows s t) : t.entries.length = s.pm.records.numOfPass := by
  rw [h.entries, List.length_map, Records.length_live]

theorem Shows.find (h : Shows s t) (website : Line) :
    find t.entries website.str = s.pm.records.getPosition website := by
  rw [h.entries, find_live]

theorem Shows.added (h : Shows s t) (website password : Line) (hroom : s.pm.records.numOfPass ≠ maxStored) :
    t.entries ++ [(website.str, password.str)] =
      (s.pm.records.addPassword website password).2.live.map WPTuple.pair := by
  rw [(Records.addPassword_room hroom website password).2, List.map_append, h.entries]
  simp [WPTuple.pair, WPTuple.overwrite]

theorem add_shows (h : Shows s t) : Results ShowsNext (add s) t.add := by
  unfold add Safe.add
  rw [h.stdin]
  refine read_word (scanNew_shows s.console) fun website console => ?_
  refine read_word (scanInput_shows console) fun password console => ?_
  have hread := h.read console
  dsimp only
  rw [h.length]
  split
  next hfull =>
    rw [Manager.addPassword_full hfull]
    exact .ok (.again hread)
  next hroom =>
    rw [Manager.addPassword_room hroom]
    exact .ok (.again (hread.edited _ (h.added website password hroom)))

theorem Shows.searched (h : Shows s t) (website : Line) :
    s.pm.records.searchPassword website =
      (Vault.find t.entries website.str).bind fun i => t.entries[i]?.map display := by
  rw [h.find, h.entries, Records.searchPassword]
  cases hposition : s.pm.records.getPosition website with
  | none => rfl
  | some i =>
    have hlive := s.pm.records.getElem?_live (Records.getPosition_lt hposition)
    simp only [Option.bind_some, List.getElem?_map, Option.map_map, hlive]
    exact Option.map_congr fun x _ => printed_eq x

theorem search_shows (h : Shows s t) : Results ShowsNext (search s) t.search := by
  unfold search Safe.search
  rw [h.stdin]
  refine read_word (scanInput_shows s.console) fun website console => ?_
  have hread := h.read console
  dsimp only
  rw [← h.searched]
  exact .ok (.again (hread.logged _))

theorem printAll_shows (h : Shows s t) : Results ShowsNext (printAll s) t.printAll := by
  have hall : s.pm.records.printAll = t.entries.map display := by
    rw [h.entries, List.map_map, Records.printAll]
    exact List.map_congr_left fun x _ => printed_eq x
  unfold printAll Safe.printAll
  rw [hall]
  exact .ok (.again (h.logged _))

theorem Shows.changedAt (h : Shows s t) (i : Nat) (new : Line) :
    t.entries.modify i (fun e => (e.1, new.str)) =
      (s.pm.records.setPassword i new).live.map WPTuple.pair := by
  rw [Records.live_setPassword, h.entries, Lists.map_modify fun e => (e.1, new.str)]
  intro x
  simp [WPTuple.pair, WPTuple.withPassword]

theorem websitePassword_shows (h : Shows s t) : Results ShowsNext (websitePassword s) t.websitePassword := by
  unfold websitePassword Safe.websitePassword
  rw [h.stdin]
  refine read_word (scanInput_shows s.console) fun website console => ?_
  have hread := h.read console
  dsimp only [changePassword]
  rw [h.find]
  cases hposition : s.pm.records.getPosition website with
  | none => exact .ok (.again hread)
  | some i =>
    dsimp only
    rw [bind_assoc]
    refine read_word (scanNew_shows console) fun new console => ?_
    exact .ok (.again ((h.read console).edited _ (h.changedAt i new)))

theorem removeEntry_shows (h : Shows s t) : Results ShowsNext (removeEntry s) t.removeEntry := by
  unfold removeEntry Safe.removeEntry
  rw [h.stdin]
  refine read_word (scanInput_shows s.console) fun website console => ?_
  have hread := h.read console
  dsimp only
  rw [h.find]
  cases hposition : s.pm.records.getPosition website with
  | none =>
    rw [Manager.remove_none hposition]
    exact .ok (.again hread)
  | some i =>
    have hentries : Lists.swapRemove t.entries i =
        (s.pm.records.remove website).2.live.map WPTuple.pair := by
      rw [(Records.remove_some hposition).2, Lists.map_swapRemove, h.entries]
    rw [Manager.remove_some hposition]
    exact .ok (.again (hread.edited _ hentries))

/-- What the two checks of a master password have to do with each other. -/
def ShowsCheck (p : Bool × Session) (q : Bool × Safe) : Prop := p.1 = q.1 ∧ Shows p.2 q.2

theorem check_shows (h : Shows s t) : Results ShowsCheck (checkMasterPassword s) t.check := by
  unfold checkMasterPassword Safe.check
  rw [h.stdin]
  refine read_word (scanNew_shows s.console) fun given console => ?_
  have hread := h.read console
  dsimp only
  rw [h.key, ← accepted_eq]
  refine .ok ⟨rfl, ?_⟩
  dsimp only
  rw [← h.key]
  exact hread.logged _

theorem masterPassword_shows (h : Shows s t) : Results ShowsNext (masterPassword s) t.masterPassword := by
  have htouched : Shows { s with pm := { s.pm with changed := true } } { t with changed := true } :=
    ⟨h.place, h.accepts, h.entries, rfl, h.firstUse, h.key, h.held, h.stdin, h.log⟩
  unfold masterPassword changeMasterPassword Safe.masterPassword
  rw [bind_assoc]
  refine (check_shows htouched).bind fun p q hcheck => ?_
  obtain ⟨ok, s⟩ := p
  obtain ⟨_, t⟩ := q
  obtain ⟨rfl, h⟩ := hcheck
  dsimp only at h ⊢
  cases ok with
  | false => exact .ok (.again h)
  | true =>
    rw [if_pos rfl, if_pos rfl, h.stdin, bind_assoc]
    refine read_word (scanNew_shows s.console) fun new console => ?_
    have hnext := ((h.read console).rekeyed (keyOf new.str)).logged (.rekeyed new.str)
    rw [createKey_eq]
    exact .ok (.again hnext)

theorem deleteData_held {m : Manager} {f : Flash} (ha : SlotAddress m.address)
    (haccepts : ∀ i, f.accepts i = true) :
    (deleteData m f).1 = true ∧ Held (deleteData m f).2.cells m.address none := by
  have hcells : (deleteData m f).2.cells = wipe (InSector (getSectorNumber m.address)) f.cells := by
    simp [deleteData, FlashDriver.erase, Flash.issue, haccepts, Op.apply]
  refine ⟨haccepts _, loadData_of_ne (read_ne_ident ?_)⟩
  rw [hcells, wipe, if_pos (ha.inSector (by omega) (by omega))]

theorem delete_shows (h : Shows s t) : Results ShowsNext (delete s) t.delete := by
  unfold delete Safe.delete
  rw [h.stdin]
  refine read_word (scanInput_shows s.console) fun answer console => ?_
  have hread := h.read console
  dsimp only
  rw [Line.first_eq]
  refine Results.ite ?_ (.ok (.again hread))
  refine (check_shows hread).bind fun p q hcheck => ?_
  obtain ⟨ok, s⟩ := p
  obtain ⟨_, t⟩ := q
  obtain ⟨rfl, h⟩ := hcheck
  dsimp only at h ⊢
  refine Results.ite ?_ (.ok (.again h))
  obtain ⟨hok, hheld⟩ := deleteData_held h.place h.accepts
  rw [show deleteData s.pm s.flash = (true, (deleteData s.pm s.flash).2) by rw [← hok]]
  exact .ok (.done ⟨h.place, h.accepts, h.entries, h.changed, h.firstUse, h.key, hheld, h.stdin, h.log⟩)

theorem ask_shows (h : Shows s t) : Results Shows (askMasterPassword s) t.ask := by
  unfold askMasterPassword Safe.ask
  rw [← h.firstUse]
  refine Results.ite ?_ (.ok h)
  rw [h.stdin]
  refine read_word (scanf_shows s.console s.console.input) fun line console => ?_
  have hnext := ((h.read { console with input := line.field }).rekeyed (keyOf line.str)).logged
    (.prompted line.str)
  dsimp only
  rw [createKey_eq]
  exact .ok hnext

theorem stored_encrypted {m : Manager} {f : Flash} (ha : SlotAddress m.address)
    (haccepts : ∀ i, f.accepts i = true) :
    Stored (storeData m.encrypt f).2.cells m.address m.records.live.length (blob m.key m.records.live) := by
  rw [← Manager.encrypt_data, Records.length_live]
  exact storeData_stored ha (storeData_accepted m.encrypt haccepts)

theorem store_shows (h : Shows s t) : Shows (store s) t.store := by
  have hheld : Held (committed s).flash.cells s.pm.address (some (t.key, t.entries)) := by
    rw [h.key]
    exact ⟨s.pm.records.live, stored_encrypted h.place h.accepts, h.entries.symm⟩
  rw [store_accepted h.accepts]
  refine ⟨h.place, h.accepts, h.entries, rfl, h.firstUse, h.key, hheld, h.stdin, ?_⟩
  rw [Safe.store, committed, h.log, h.key]

theorem commit_shows (h : Shows s t) : Results ShowsNext (commit s) t.commit := by
  unfold commit Safe.commit
  rw [← h.changed]
  refine Results.ite ?_ (.ok (.again h))
  exact (ask_shows h).bind fun s t h => .ok (.again (store_shows h))

theorem quit_shows (h : Shows s t) : Results ShowsNext (quit s) t.quit := by
  unfold quit Safe.quit
  rw [← h.changed]
  refine Results.ite ?_ (.ok (.done h))
  rw [h.stdin]
  refine read_word (scanInput_shows s.console) fun answer console => ?_
  have hread := h.read console
  dsimp only
  rw [Line.first_eq]
  exact Results.ite (.ok (.done hread)) (.ok (.again hread))

theorem command_shows (h : Shows s t) : Results ShowsNext (command s) t.command := by
  unfold command Safe.command
  rw [h.stdin]
  refine read_word (scanInput_shows s.console) fun line console => ?_
  have hread := h.read console
  dsimp only
  rw [Line.first_eq]
  refine Results.ite (.ok (.again hread)) ?_
  refine Results.ite (add_shows hread) ?_
  refine Results.ite (search_shows hread) ?_
  refine Results.ite (printAll_shows hread) ?_
  refine Results.ite (masterPassword_shows hread) ?_
  refine Results.ite (websitePassword_shows hread) ?_
  refine Results.ite (removeEntry_shows hread) ?_
  refine Results.ite (delete_shows hread) ?_
  refine Results.ite (commit_shows hread) ?_
  exact Results.ite (quit_shows hread) (.ok (.again hread))

end

end PasswordManager.Vault
