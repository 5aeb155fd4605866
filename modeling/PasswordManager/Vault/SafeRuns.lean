import PasswordManager.Vault.Shows

/-!
# Sessions are runs of the safe

From the start of a session to every later prompt. A session that shows the same safe as another one
goes on like it, whatever memory holds.
-/

open Nor

namespace PasswordManager.Vault

open FlashDriver Alike

/-! ## The start -/

/-- The words typed for the master password, until one opens the vault of `n` entries. -/
def tryWords (n : Nat) (data : List Byte) :
    List (List Byte) → Except Stop (List Byte × List WPTuple × List (List Byte))
  | [] => .error .noInput
  | token :: stdin =>
    if token.length < 32 then
      match opens (keyOf (CString.str 0 token)) n data with
      | some live => .ok (CString.str 0 token, live, stdin)
      | none => tryWords n data stdin
    else .error .overflow

/-- The session after the login, over the one before it. -/
def LoggedIn (s r : Session) (p : List Byte × List WPTuple × List (List Byte)) : Prop :=
  ∃ (checksum : Buf 16) (records : Records) (console : Console),
    r = { s with
      console
      pm := { s.pm with key := keyOf p.1, checksum, records }
      log := s.log ++ [.login p.1] } ∧
    records.live = p.2.1 ∧ console.stdin = p.2.2

section
variable {m : Manager} {n : Nat} {data rest : List Byte}

theorem opens_encryptedData (hlength : n * 2 * 32 + 16 ≤ data.length) (hn : m.records.numOfPass = n)
    (hdata : m.encryptedData.val = data ++ rest) :
    opens m.key m.records.numOfPass m.encryptedData.val = opens m.key n data := by
  rw [hdata, hn, opens_append _ hlength]

theorem decrypt_opened (hlength : n * 2 * 32 + 16 ≤ data.length) (hn : m.records.numOfPass = n)
    (hdata : m.encryptedData.val = data ++ rest) {live : List WPTuple} (h : opens m.key n data = some live) :
    ∃ checksum records, m.decrypt m.encryptedData.val = (true, { m with checksum, records }) ∧
      records.live = live := by
  obtain ⟨checksum, records, -, hframe⟩ := m.decrypt_frame m.encryptedData.val
  obtain ⟨hok, hlive⟩ := m.decrypt_eq m.encryptedData.val
  rw [opens_encryptedData hlength hn hdata, h] at hok hlive
  have hrecords := hlive live rfl
  rw [hframe] at hrecords
  exact ⟨checksum, records, Prod.ext hok hframe, hrecords⟩

theorem decrypt_closed (hlength : n * 2 * 32 + 16 ≤ data.length) (hn : m.records.numOfPass = n)
    (hdata : m.encryptedData.val = data ++ rest) (h : opens m.key n data = none) :
    ∃ checksum, m.decrypt m.encryptedData.val = (false, { m with checksum }) := by
  have hok := (m.decrypt_eq m.encryptedData.val).1
  rw [opens_encryptedData hlength hn hdata, h] at hok
  obtain ⟨checksum, hframe⟩ := Manager.decrypt_refused hok
  exact ⟨checksum, Prod.ext hok hframe⟩

end

theorem checkpass_tries {n : Nat} {data rest : List Byte} (hlength : n * 2 * 32 + 16 ≤ data.length)
    (stdin : List (List Byte)) {s : Session} (hn : s.pm.records.numOfPass = n)
    (hdata : s.pm.encryptedData.val = data ++ rest) :
    Results (LoggedIn s) (checkpass s stdin) (tryWords n data stdin) := by
  induction stdin generalizing s with
  | nil => exact .error _
  | cons token stdin ih =>
    unfold checkpass tryWords receive
    split
    next hshort =>
      dsimp only [bind, Except.bind]
      rw [createKey_eq, str_put]
      cases hopens : opens (keyOf (CString.str 0 token)) n data with
      | some live =>
        obtain ⟨checksum, records, hdecrypt, hlive⟩ := decrypt_opened
          (m := { s.pm with key := keyOf (CString.str 0 token) }) hlength hn hdata hopens
        rw [hdecrypt]
        exact .ok ⟨checksum, records, _, rfl, hlive, rfl⟩
      | none =>
        obtain ⟨checksum, hdecrypt⟩ := decrypt_closed
          (m := { s.pm with key := keyOf (CString.str 0 token) }) hlength hn hdata hopens
        rw [hdecrypt]
        have hnext := ih (s := { s with
          pm := { s.pm with key := keyOf (CString.str 0 token), checksum }
          console := { s.console with
            input := (Line.put token hshort s.console.input).field
            stdin } }) hn hdata
        exact hnext.mono fun _ _ hlogin => hlogin
    next => exact .error _

/-- The session of a slot with no vault. Its key is whatever the memory of the object held. -/
def Safe.unused (key : Buf 32) (stdin : List (List Byte)) : Safe where
  entries := []
  changed := false
  firstUse := true
  key
  held := none
  stdin
  log := []

def Safe.opened (held : Option (Buf 32 × List Entry)) (p : List Byte × List WPTuple × List (List Byte)) :
    Safe where
  entries := p.2.1.map WPTuple.pair
  changed := false
  firstUse := false
  key := keyOf p.1
  held
  stdin := p.2.2
  log := [.login p.1]

section
variable {memory : Manager} {address : Nat} {flash : Flash} {console : Console}

theorem begin_unused (h : loadData flash.cells address = .firstUse) :
    begin memory address flash console =
      .ok { pm := { construct memory address with firstUse := true }, flash, console, log := [] } := by
  have hload : (construct memory address).loadData flash.cells =
      some { construct memory address with firstUse := true } := by
    unfold Manager.loadData
    rw [show loadData flash.cells (construct memory address).address = .firstUse from h]
    rfl
  unfold begin
  rw [hload]
  rfl

theorem unused_shows (ha : SlotAddress address) (haccepts : ∀ i, flash.accepts i = true)
    (h : loadData flash.cells address = .firstUse) :
    Shows { pm := { construct memory address with firstUse := true }, flash, console, log := [] }
      (Safe.unused memory.key console.stdin) := by
  refine ⟨ha, haccepts, ?_, rfl, rfl, rfl, h, rfl, rfl⟩
  simp [Safe.unused, construct, Records.live]

theorem begin_opened (memory : Manager) (console : Console) (ha : SlotAddress address)
    (haccepts : ∀ i, flash.accepts i = true) {key : Buf 32} {live : List WPTuple}
    (h : Stored flash.cells address live.length (blob key live)) :
    Results (fun s p => Shows s (Safe.opened (some (key, live.map WPTuple.pair)) p))
      (begin memory address flash console) (tryWords live.length (blob key live) console.stdin) := by
  obtain ⟨pm, rest, hload, hfirst, hchanged, -, haddress, hn, hdata⟩ :=
    Manager.loadData_stored (m := construct memory address) h
  unfold begin
  rw [hload]
  dsimp only
  rw [hfirst]
  have htries := checkpass_tries (s := { pm, flash, console, log := [] }) h.2.1.ge console.stdin hn hdata
  refine htries.mono fun s p hlogin => ?_
  obtain ⟨checksum, records, console', rfl, hlive, hstdin⟩ := hlogin
  have hheld : Held flash.cells address (some (key, live.map WPTuple.pair)) := ⟨live, h, rfl⟩
  refine ⟨?_, haccepts, ?_, hchanged.symm, hfirst.symm, rfl, ?_, hstdin.symm, rfl⟩
  · rw [show pm.address = address from haddress]
    exact ha
  · rw [hlive]
    rfl
  · rw [show pm.address = address from haddress]
    exact hheld

end

/-! ## Whole sessions -/

/-- What the vault opens to: its entries for its own key, and whatever passes the checksum for another. -/
def Admits (key : Buf 32) (entries : List Entry) (text : List Byte) (found : List Entry) : Prop :=
  keyOf text = key ∧ found = entries ∨
    keyOf text ≠ key ∧ ∃ live live', live.map WPTuple.pair = entries ∧
      opens (keyOf text) live.length (blob key live) = some live' ∧ found = live'.map WPTuple.pair

/-- A session begins at an unused slot, or with the first word that opens the vault. -/
inductive Safe.Begins : Option (Buf 32 × List Entry) → List (List Byte) → Safe → Prop
  | unused (key : Buf 32) (stdin : List (List Byte)) : Begins none stdin (.unused key stdin)
  | opened {key : Buf 32} {entries found : List Entry} {refused stdin : List (List Byte)} {token : List Byte}
      (hrefused : ∀ word ∈ refused, word.length < 32 ∧ keyOf (CString.str 0 word) ≠ key)
      (hshort : token.length < 32) (hadmits : Admits key entries (CString.str 0 token) found) :
      Begins (some (key, entries)) (refused ++ token :: stdin)
        { entries := found
          changed := false
          firstUse := false
          key := keyOf (CString.str 0 token)
          held := some (key, entries)
          stdin
          log := [.login (CString.str 0 token)] }

theorem tryWords_own {token : List Byte} (hshort : token.length < 32) (live : List WPTuple)
    (stdin : List (List Byte)) :
    tryWords live.length (blob (keyOf (CString.str 0 token)) live) (token :: stdin) =
      .ok (CString.str 0 token, live, stdin) := by
  unfold tryWords
  rw [if_pos hshort, opens_blob]

/-- The master password is the first word. -/
theorem begin_own {address : Nat} {flash : Flash} {token : List Byte} {live : List WPTuple}
    {stdin : List (List Byte)} (memory : Manager) {console : Console} (ha : SlotAddress address)
    (haccepts : ∀ i, flash.accepts i = true) (hshort : token.length < 32)
    (hstored : Stored flash.cells address live.length (blob (keyOf (CString.str 0 token)) live))
    (hstdin : console.stdin = token :: stdin) :
    ∃ s, begin memory address flash console = .ok s ∧
      Shows s (Safe.opened (some (keyOf (CString.str 0 token), live.map WPTuple.pair))
        (CString.str 0 token, live, stdin)) := by
  have hopened := begin_opened memory console ha haccepts hstored
  rw [hstdin, tryWords_own hshort] at hopened
  exact hopened.swap.of_ok

theorem tryWords_begins {key : Buf 32} {live : List WPTuple} {stdin : List (List Byte)}
    {p : List Byte × List WPTuple × List (List Byte)}
    (h : tryWords live.length (blob key live) stdin = .ok p) :
    Safe.Begins (some (key, live.map WPTuple.pair)) stdin
      (Safe.opened (some (key, live.map WPTuple.pair)) p) := by
  suffices hwords : ∃ refused token rest, stdin = refused ++ token :: rest ∧
      (∀ word ∈ refused, word.length < 32 ∧ keyOf (CString.str 0 word) ≠ key) ∧ token.length < 32 ∧
      p.1 = CString.str 0 token ∧ p.2.2 = rest ∧
      opens (keyOf (CString.str 0 token)) live.length (blob key live) = some p.2.1 by
    obtain ⟨refused, token, rest, rfl, hrefused, hshort, htext, hrest, hopens⟩ := hwords
    have hadmits : Admits key (live.map WPTuple.pair) (CString.str 0 token) (p.2.1.map WPTuple.pair) := by
      by_cases hkey : keyOf (CString.str 0 token) = key
      · rw [hkey, opens_blob] at hopens
        exact .inl ⟨hkey, by rw [← Option.some.inj hopens]⟩
      · exact .inr ⟨hkey, live, p.2.1, rfl, hopens, rfl⟩
    have hbegins : Safe.Begins _ (refused ++ token :: rest) _ := .opened hrefused hshort hadmits
    unfold Safe.opened
    rwa [htext, hrest]
  induction stdin with
  | nil => cases h
  | cons token stdin ih =>
    unfold tryWords at h
    split at h
    next hshort =>
      split at h
      next live' hopens =>
        cases h
        exact ⟨[], token, stdin, rfl, by simp, hshort, rfl, rfl, hopens⟩
      next hclosed =>
        obtain ⟨refused, token', rest, rfl, hrefused, hfound⟩ := ih h
        refine ⟨token :: refused, token', rest, rfl, ?_, hfound⟩
        intro word hword
        rcases List.mem_cons.mp hword with rfl | hword
        · refine ⟨hshort, fun hkey => ?_⟩
          rw [hkey, opens_blob] at hclosed
          cases hclosed
        · exact hrefused word hword
    next => cases h

section
variable {memory : Manager} {address : Nat} {flash : Flash} {console : Console} {s s' : Session} {t : Safe}
  {held : Option (Buf 32 × List Entry)}

theorem begin_refines (ha : SlotAddress address) (haccepts : ∀ i, flash.accepts i = true)
    (hheld : Held flash.cells address held) (h : begin memory address flash console = .ok s) :
    ∃ t, Safe.Begins held console.stdin t ∧ Shows s t := by
  cases held with
  | none =>
    rw [begin_unused hheld] at h
    cases h
    exact ⟨_, .unused memory.key console.stdin, unused_shows ha haccepts hheld⟩
  | some vault =>
    obtain ⟨key, entries⟩ := vault
    obtain ⟨live, hstored, rfl⟩ := hheld
    have hopened := begin_opened memory console ha haccepts hstored
    rw [h] at hopened
    obtain ⟨p, hp, hshows⟩ := hopened.of_ok
    exact ⟨_, tryWords_begins hp, hshows⟩

theorem turn_refines (h : Shows s t) (hturn : Turn s s') : ∃ t', t.Turn t' ∧ Shows s' t' := by
  have hcommand := command_shows h
  rw [hturn] at hcommand
  obtain ⟨next, hnext, hshows⟩ := hcommand.of_ok
  cases hshows with
  | again hshows => exact ⟨_, hnext, hshows⟩

theorem done_refines (h : Shows s t) (hdone : command s = .ok (.done s')) :
    ∃ t', t.command = .ok (.done t') ∧ Shows s' t' := by
  have hcommand := command_shows h
  rw [hdone] at hcommand
  obtain ⟨next, hnext, hshows⟩ := hcommand.of_ok
  cases hshows with
  | done hshows => exact ⟨_, hnext, hshows⟩

/-- What the safe can do, the session does. -/
theorem turn_back {t' : Safe} (h : Shows s t) (hturn : t.Turn t') : ∃ s', Turn s s' ∧ Shows s' t' := by
  have hcommand := (command_shows h).swap
  rw [hturn] at hcommand
  obtain ⟨next, hnext, hshows⟩ := hcommand.of_ok
  cases hshows with
  | again hshows => exact ⟨_, hnext, hshows⟩

theorem turns_back {t' : Safe} (h : Shows s t) (hrun : Relation.ReflTransGen Safe.Turn t t') :
    ∃ s', Relation.ReflTransGen Turn s s' ∧ Shows s' t' :=
  runs (R := fun t s => Shows s t) (fun _ _ _ h hturn => turn_back h hturn) hrun h

/-- Every session on a chip that takes every operation is a run of the safe. -/
theorem session_refines (ha : SlotAddress address) (haccepts : ∀ i, flash.accepts i = true)
    (hheld : Held flash.cells address held) (h : Prompt memory address flash console s) :
    ∃ t₀ t, Safe.Begins held console.stdin t₀ ∧ Relation.ReflTransGen Safe.Turn t₀ t ∧ Shows s t ∧
      ∀ s', command s = .ok (.done s') → ∃ t', t.command = .ok (.done t') ∧ Shows s' t' := by
  obtain ⟨s₀, hbegin, hturns⟩ := h
  obtain ⟨t₀, hbegins, hshows₀⟩ := begin_refines ha haccepts hheld hbegin
  obtain ⟨t, hrun, hshows⟩ := runs (R := Shows) (fun _ _ _ h hturn => turn_refines h hturn) hturns hshows₀
  exact ⟨t₀, t, hbegins, hrun, hshows, fun s' hdone => done_refines hshows hdone⟩

end

theorem session_refines_first_commit :
    ∃ s t₀ t, Prompt (Manager.zeroed 0) 0x080F8000 Flash.cleared
        (typed ["add", "a", "b", "commit", "first"]) s ∧
      s.log = [.prompted (bytes "first"), .stored (keyOf (bytes "first"))] ∧
      Safe.Begins none (typed ["add", "a", "b", "commit", "first"]).stdin t₀ ∧
      Relation.ReflTransGen Safe.Turn t₀ t ∧ Shows s t := by
  obtain ⟨s₀, s₁, s₂, hbegin, hadd, hcommit, hlog⟩ :
      ∃ s₀ s₁ s₂,
        begin (Manager.zeroed 0) 0x080F8000 Flash.cleared
          (typed ["add", "a", "b", "commit", "first"]) = .ok s₀ ∧
        Turn s₀ s₁ ∧ Turn s₁ (committed s₂) ∧
        (committed s₂).log = [.prompted (bytes "first"), .stored (keyOf (bytes "first"))] :=
    ⟨_, _, _, rfl, rfl, turn_of_store rfl fun _ => rfl, rfl⟩
  have hprompt : Prompt (Manager.zeroed 0) 0x080F8000 Flash.cleared
      (typed ["add", "a", "b", "commit", "first"]) (committed s₂) :=
    ⟨s₀, hbegin, (Relation.ReflTransGen.single hadd).tail hcommit⟩
  have hclear : Held Flash.cleared.cells 0x080F8000 none := loadData_of_ne (read_ne_ident rfl)
  obtain ⟨t₀, t, hbegins, hrun, hshows, -⟩ :=
    session_refines slotAddress_standard (fun _ => rfl) hclear hprompt
  exact ⟨_, t₀, t, hprompt, hlog, hbegins, hrun, hshows⟩

/-! ## What was in memory before -/

/-- Two sessions that no user can tell apart. -/
def Twins (s s' : Session) : Prop := ∃ t, Shows s t ∧ Shows s' t

section
variable {s s' r : Session}

theorem Twins.log (h : Twins s s') : s'.log = s.log := by
  obtain ⟨t, h, h'⟩ := h
  rw [← h.log, ← h'.log]

theorem Twins.stdin (h : Twins s s') : s'.console.stdin = s.console.stdin := by
  obtain ⟨t, h, h'⟩ := h
  rw [← h.stdin, ← h'.stdin]

theorem Twins.entries (h : Twins s s') :
    s'.pm.records.live.map WPTuple.pair = s.pm.records.live.map WPTuple.pair := by
  obtain ⟨t, h, h'⟩ := h
  rw [← h.entries, ← h'.entries]

theorem Twins.turn (h : Twins s s') (hturn : Turn s r) : ∃ r', Turn s' r' ∧ Twins r r' := by
  obtain ⟨t, h, h'⟩ := h
  have hmeet := (command_shows h).meet (command_shows h')
  rw [hturn] at hmeet
  obtain ⟨next, hnext, t', hr, hr'⟩ := hmeet.of_ok
  cases hr with
  | again hr =>
    cases hr' with
    | again hr' => exact ⟨_, hnext, _, hr, hr'⟩

end

/-! ## What is written -/

/-- `printf` finds an end in each copy. -/
def Event.Ended : Event → Prop
  | .shown entries => ∀ line ∈ entries, line.1.ended = true ∧ line.2.ended = true
  | _ => True

/-- What `printf` writes of the entries, with `heap` behind the copies for each line. -/
def Event.output (heap : Nat → List Byte × List Byte) : Event → List (List Byte × List Byte)
  | .shown entries => entries.mapIdx fun i line => print (heap i) line
  | _ => []

theorem Event.output_ended {e : Event} (h : e.Ended) (heap heap' : Nat → List Byte × List Byte) :
    e.output heap' = e.output heap := by
  cases e with
  | shown entries =>
    refine List.mapIdx_eq_mapIdx_iff.mpr fun i hi => ?_
    obtain ⟨hwebsite, hpassword⟩ := h _ (List.getElem_mem hi)
    simp only [print, CString.Text.read_ended hwebsite, CString.Text.read_ended hpassword]
  | _ => rfl

theorem ended_printAll {r : Records} (h : ∀ t ∈ r.live, t.Terminated) :
    (Event.shown r.printAll).Ended ↔ ∀ t ∈ r.live, Plain t := by
  have hends : (Event.shown r.printAll).Ended ↔
      ∀ t ∈ r.live, (shown t.website).ended = true ∧ (shown t.password).ended = true :=
    List.forall_mem_map
  rw [hends]
  exact forall₂_congr fun t ht => and_congr (ended_shown (h t ht).1) (ended_shown (h t ht).2)

/-- What the memory of the object, the buffers and the rest of the chip held before, and which
slot it is, changes nothing in a session on one and the same vault. Nor does the heap, where each
text that is shown has its end. -/
theorem leftovers_unseen {memory memory' : Manager} {address address' : Nat} {flash flash' : Flash}
    {console console' : Console} {s : Session} (ha : SlotAddress address) (ha' : SlotAddress address')
    (haccepts : ∀ i, flash.accepts i = true) (haccepts' : ∀ i, flash'.accepts i = true) {key : Buf 32}
    {live : List WPTuple} (hstored : Stored flash.cells address live.length (blob key live))
    (hstored' : Stored flash'.cells address' live.length (blob key live))
    (hstdin : console'.stdin = console.stdin) (h : Prompt memory address flash console s) :
    ∃ s', Prompt memory' address' flash' console' s' ∧ s'.log = s.log ∧
      (∀ e ∈ s.log, e.Ended → ∀ heap heap', e.output heap' = e.output heap) ∧
      s'.console.stdin = s.console.stdin ∧
      s'.pm.records.live.map WPTuple.pair = s.pm.records.live.map WPTuple.pair := by
  obtain ⟨s₀, hbegin, hturns⟩ := h
  have hopened := begin_opened memory console ha haccepts hstored
  have hopened' := begin_opened memory' console' ha' haccepts' hstored'
  rw [hstdin] at hopened'
  have hmeet := hopened.meet hopened'
  rw [hbegin] at hmeet
  obtain ⟨s₀', hbegin', p, hshows, hshows'⟩ := hmeet.of_ok
  have htwins : Twins s₀ s₀' := ⟨_, hshows, hshows'⟩
  obtain ⟨s', hturns', htwins'⟩ := runs (R := Twins) (fun _ _ _ h hturn => h.turn hturn) hturns htwins
  exact ⟨s', ⟨s₀', hbegin', hturns'⟩, htwins'.log, fun e _ hended => e.output_ended hended, htwins'.stdin,
    htwins'.entries⟩

/-- A vault, alone on a chip. -/
theorem exists_vault {address : Nat} (ha : SlotAddress address) (key : Buf 32) (records : Records) :
    ∃ flash : Flash, (∀ i, flash.accepts i = true) ∧
      Stored flash.cells address records.live.length (blob key records.live) := by
  have haccepts : ∀ i, Flash.cleared.accepts i = true := fun _ => rfl
  have hstored := stored_encrypted (m := { Manager.zeroed address with key, records }) ha haccepts
  refine ⟨_, fun i => ?_, hstored⟩
  rw [storeData_eq]
  exact haccepts i

/-- A login with `pw` to three entries. -/
def threeShown : Safe :=
  Safe.opened (some (keyOf (bytes "pw"), twoPasswords.live.map WPTuple.pair))
    (bytes "pw", twoPasswords.live, [bytes "printAll"])

theorem leftovers_unseen_twoPasswords :
    ∃ (flash flash' : Flash) (s : Session),
      Stored flash.cells 0x080F8000 3 (blob (keyOf (bytes "pw")) twoPasswords.live) ∧
      Prompt (Manager.zeroed 0) 0x080F8000 flash (typed ["pw", "printAll"]) s ∧
      s.log = [.login (bytes "pw"), .shown twoPasswords.printAll] ∧ (∀ e ∈ s.log, e.Ended) ∧
      ∃ s', Prompt (Manager.zeroed 1) 0x080C0000 flash'
          { typed ["pw", "printAll"] with input := Field.filled 7 } s' ∧ s'.log = s.log ∧
        (∀ e ∈ s.log, e.Ended → ∀ heap heap', e.output heap' = e.output heap) ∧
        s'.console.stdin = s.console.stdin ∧
        s'.pm.records.live.map WPTuple.pair = s.pm.records.live.map WPTuple.pair := by
  have hsecond : SlotAddress 0x080C0000 := ⟨10, by decide, by decide, by decide, by decide⟩
  obtain ⟨flash, haccepts, hstored⟩ := exists_vault slotAddress_standard (keyOf (bytes "pw")) twoPasswords
  obtain ⟨flash', haccepts', hstored'⟩ := exists_vault hsecond (keyOf (bytes "pw")) twoPasswords
  obtain ⟨s₀, hbegin, hshows₀⟩ := @begin_own _ _ (bytes "pw") _ [bytes "printAll"] (Manager.zeroed 0)
    (typed ["pw", "printAll"]) slotAddress_standard haccepts (by decide) hstored rfl
  have hturn : threeShown.Turn { threeShown with
      stdin := []
      log := threeShown.log ++ [.shown (threeShown.entries.map display)] } := rfl
  obtain ⟨s, hturns, hshows⟩ := turns_back (t := threeShown) hshows₀ (.single hturn)
  have hlog : s.log = [.login (bytes "pw"), .shown twoPasswords.printAll] := by
    rw [← hshows.log, Records.printAll, List.map_congr_left fun t _ => printed_eq t]
    simp [threeShown, Safe.opened]
  have hended : ∀ e ∈ s.log, e.Ended := by
    rw [hlog]
    rintro e hmem
    rcases List.mem_pair.mp hmem with rfl | rfl
    · trivial
    · exact (ended_printAll history_twoPasswords.terminated).mpr (by unfold Plain; decide)
  have hprompt : Prompt (Manager.zeroed 0) 0x080F8000 flash (typed ["pw", "printAll"]) s :=
    ⟨s₀, hbegin, hturns⟩
  have hstdin : ({ typed ["pw", "printAll"] with input := Field.filled 7 } : Console).stdin =
      (typed ["pw", "printAll"]).stdin := rfl
  exact ⟨flash, flash', s, hstored, hprompt, hlog, hended,
    leftovers_unseen slotAddress_standard hsecond haccepts haccepts' hstored hstored' hstdin hprompt⟩

end PasswordManager.Vault
