import PasswordManager.Slots
import PasswordManager.Vault.SafeRuns
import Mathlib.Logic.Function.Basic

/-!
# A safe in every slot

Whatever the users do one after the other, a slot holds the vault of the last commit in it, and none after
a deletion.
-/

open Nor

namespace PasswordManager.Slots

open FlashDriver Vault Alike

/-! ## The desk -/

/-- The words typed at the question for a slot, until one names a slot. -/
def choose : List (List Byte) → Except Stop (Nat × List (List Byte))
  | [] => .error .noInput
  | token :: stdin =>
    if token.length < 32 then
      let letter := (CString.str 0 token).headD 0
      if letter = ascii 'h' then choose stdin
      else if letter = ascii '1' then .ok (address1, stdin)
      else if letter = ascii '2' then .ok (address2, stdin)
      else if letter = ascii '3' then .ok (address3, stdin)
      else if letter = ascii '4' then .ok (address4, stdin)
      else choose stdin
    else .error .overflow

/-- What every slot holds, and the safe that is open. -/
inductive Desk
  | menu (held : Nat → Option (Buf 32 × List Entry)) (stdin : List (List Byte))
  | session (held : Nat → Option (Buf 32 × List Entry)) (address : Nat) (t : Safe)

inductive Desk.Step : Desk → Desk → Prop
  | enter {held : Nat → Option (Buf 32 × List Entry)} {stdin rest : List (List Byte)} {address : Nat}
      {t : Safe} (hslot : choose stdin = .ok (address, rest)) (hbegins : Safe.Begins (held address) rest t) :
      Step (.menu held stdin) (.session held address t)
  | turn {held : Nat → Option (Buf 32 × List Entry)} {address : Nat} {t t' : Safe} (hturn : t.Turn t') :
      Step (.session held address t) (.session held address t')
  | leave {held : Nat → Option (Buf 32 × List Entry)} {address : Nat} {t t' : Safe} {word : List Byte}
      {stdin : List (List Byte)} (hdone : t.command = .ok (.done t'))
      (hrestart : nextWord t'.stdin = .ok (word, stdin)) :
      Step (.session held address t) (.menu (Function.update held address t'.held) stdin)

/-! ## What the board shows -/

/-- What the board shows of some of the slots, when a session is in one of them. -/
inductive ShowsDesk (watched : List Nat) : Board → Desk → Prop
  | menu {flash : Flash} {console : Console} {held : Nat → Option (Buf 32 × List Entry)}
      (haccepts : ∀ i, flash.accepts i = true) (hheld : ∀ a ∈ watched, Held flash.cells a (held a)) :
      ShowsDesk watched (.menu flash console) (.menu held console.stdin)
  | session {entered : Flash} {input : Field} {a : Nat} {s : Session}
      {held : Nat → Option (Buf 32 × List Entry)} {t : Safe} (ha : a ∈ watched) (haddress : s.pm.address = a)
      (h : Shows s t) (hheld : ∀ b ∈ watched, b ≠ a → Held s.flash.cells b (held b)) :
      ShowsDesk watched (.session entered input a s) (.session held a t)

def Desk.holds : Desk → Nat → Option (Buf 32 × List Entry)
  | .menu held _ => held
  | .session held address t => Function.update held address t.held

theorem ShowsDesk.holds {watched : List Nat} {b : Board} {d : Desk} (h : ShowsDesk watched b d) :
    ∀ a ∈ watched, Held b.flash.cells a (d.holds a) := by
  intro a ha
  cases h with
  | menu haccepts hheld => exact hheld a ha
  | @session _ _ a' s held t ha' haddress hshows hheld =>
    by_cases hne : a = a'
    · rw [Desk.holds, hne, Function.update_self, ← haddress]
      exact hshows.held
    · rw [Desk.holds, Function.update_of_ne hne]
      exact hheld a ha hne

def Board.In (watched : List Nat) : Board → Prop
  | .menu _ _ => True
  | .session _ _ a _ => a ∈ watched

theorem choose_shows (c : Console) (stdin : List (List Byte)) :
    Results (fun p q => p.1 = q.1 ∧ p.2.stdin = q.2) (askinput c stdin) (choose stdin) := by
  induction stdin generalizing c with
  | nil => exact .error _
  | cons token stdin ih =>
    unfold askinput choose receive
    split
    next hshort =>
      dsimp only [bind, Except.bind]
      rw [Line.first_eq, str_put]
      refine Results.ite (ih _) ?_
      refine Results.ite (.ok ⟨rfl, rfl⟩) ?_
      refine Results.ite (.ok ⟨rfl, rfl⟩) ?_
      refine Results.ite (.ok ⟨rfl, rfl⟩) ?_
      exact Results.ite (.ok ⟨rfl, rfl⟩) (ih _)
    next => exact .error _

/-! ## Runs -/

theorem held_outside {a b : Nat} {f f' : Flash} {held : Option (Buf 32 × List Entry)} (ha : a ∈ slots)
    (hb : b ∈ slots) (hne : b ≠ a) (hwithin : Within a f f') (h : Held f.cells b held) :
    Held f'.cells b held :=
  h.congr fun x hx hx' => (hwithin.outside x (not_inSector_of_ne ha hb hne hx hx')).symm

theorem started_at {memory : Manager} {a : Nat} {flash : Flash} {s : Session} (h : Started memory a flash s) :
    s.pm.address = a ∧ s.flash = flash := by
  cases h with
  | clear console hclear => exact ⟨rfl, rfl⟩
  | login pm console text hload hfirst hchanged haddress hkey hn hopens => exact ⟨haddress, rfl⟩

theorem ending_at {s s' : Session} (h : Ending s s') : s'.pm.address = s.pm.address := by
  cases h with
  | left console => rfl
  | deleted console given hgiven hflash => rfl

theorem step_refines {watched : List Nat} (hslots : ∀ a ∈ watched, a ∈ slots) {b b' : Board} {d : Desk}
    (h : ShowsDesk watched b d) (hstep : Step b b') (hin : b'.In watched) :
    ∃ d', d.Step d' ∧ ShowsDesk watched b' d' := by
  cases hstep with
  | @enter flash console console' a memory s hslot hbegin =>
    cases h with
    | @menu _ _ held haccepts hheld =>
      have hchoose := choose_shows console console.stdin
      rw [hslot] at hchoose
      obtain ⟨⟨_, rest⟩, hchosen, rfl, hrest⟩ := hchoose.of_ok
      have ha : a ∈ watched := hin
      obtain ⟨t, hbegins, hshows⟩ := begin_refines (slotAddress (hslots a ha)) haccepts (hheld a ha) hbegin
      rw [show console'.alloc.2.stdin = rest from hrest] at hbegins
      obtain ⟨haddress, hflash⟩ := started_at (begin_started hbegin)
      refine ⟨_, .enter hchosen hbegins, .session ha haddress hshows fun b hb _ => ?_⟩
      rw [hflash]
      exact hheld b hb
  | turn hturn =>
    cases h with
    | session ha haddress hshows hheld =>
      obtain ⟨t', hturn', hshows'⟩ := turn_refines hshows hturn
      obtain ⟨letter, -, heffect⟩ := command_outcome hturn
      have hwithin := effect_within hshows.place heffect
      rw [haddress] at hwithin
      exact ⟨_, .turn hturn', .session ha (heffect.flash.1.trans haddress) hshows'
        fun b hb hne => held_outside (hslots _ ha) (hslots b hb) hne hwithin (hheld b hb hne)⟩
  | @leave entered input a s s' line console hdone hrestart =>
    cases h with
    | session ha haddress hshows hheld =>
      obtain ⟨t', hdone', hshows'⟩ := done_refines hshows hdone
      obtain ⟨letter, -, hending⟩ := command_outcome hdone
      have hwithin := ending_within hending
      rw [haddress] at hwithin
      have hword := scanInput_shows { s'.console with input }
      rw [hrestart] at hword
      obtain ⟨⟨word, stdin⟩, hrestart', -, rfl⟩ := hword.of_ok
      refine ⟨_, .leave hdone' (by rw [hshows'.stdin]; exact hrestart'), .menu hshows'.accepts fun b hb => ?_⟩
      by_cases hne : b = a
      · have haddress' := (ending_at hending).trans haddress
        rw [hne, Function.update_self, ← haddress']
        exact hshows'.held
      · rw [Function.update_of_ne hne]
        exact held_outside (hslots a ha) (hslots b hb) hne hwithin (hheld b hb hne)

theorem Step.in_slots {b b' : Board} (h : b.In slots) (hstep : Step b b') : b'.In slots := by
  cases hstep with
  | enter hslot hbegin => exact askinput_mem hslot
  | turn hturn => exact h
  | leave hdone hrestart => exact trivial

theorem ShowsDesk.inside {watched : List Nat} {b : Board} {d : Desk} (h : ShowsDesk watched b d) :
    b.In watched := by
  cases h with
  | menu haccepts hheld => exact trivial
  | session ha haddress h hheld => exact ha

/-- Every run of the multi-slot manager, whoever comes and whatever they type, is a run of the desk. -/
theorem board_refines {flash : Flash} (haccepts : ∀ i, flash.accepts i = true)
    {held : Nat → Option (Buf 32 × List Entry)} (hheld : ∀ a ∈ slots, Held flash.cells a (held a))
    {console : Console} {b : Board} (hrun : Relation.ReflTransGen Step (.menu flash console) b) :
    ∃ d, Relation.ReflTransGen Desk.Step (.menu held console.stdin) d ∧ ShowsDesk slots b d :=
  runs (R := ShowsDesk slots)
    (fun _ _ _ h hstep => step_refines (fun _ ha => ha) h hstep (hstep.in_slots h.inside)) hrun
    (.menu haccepts hheld)

theorem clear_held {a : Nat} : Held Flash.cleared.cells a none := loadData_of_ne (read_ne_ident rfl)

theorem board_refines_enter :
    ∃ b, Relation.ReflTransGen Step (.menu Flash.cleared (typed ["x", "2", "add", "a", "b"])) b ∧
      ∃ d, Relation.ReflTransGen Desk.Step
          (.menu (fun _ => none) (typed ["x", "2", "add", "a", "b"]).stdin) d ∧
        ShowsDesk slots b d := by
  obtain ⟨s₀, s₁, console, hslot, hbegin, hadd⟩ :
      ∃ s₀ s₁ console,
        askinput (typed ["x", "2", "add", "a", "b"]) (typed ["x", "2", "add", "a", "b"]).stdin =
          .ok (address2, console) ∧
        begin (Manager.zeroed 0) address2 Flash.cleared
          { console.alloc.2 with input := console.alloc.1 } = .ok s₀ ∧
        Turn s₀ s₁ :=
    ⟨_, _, _, rfl, rfl, rfl⟩
  have hrun := (Relation.ReflTransGen.single (Step.enter hslot hbegin)).tail (.turn hadd)
  exact ⟨_, hrun, board_refines (fun _ => rfl) (fun _ _ => clear_held) hrun⟩

/-- The master password of a vault opens it, and the session starts with its entries. -/
theorem held_reopens {a : Nat} {flash : Flash} {token : List Byte} {entries : List Entry}
    (h : Held flash.cells a (some (keyOf (CString.str 0 token), entries))) (ha : a ∈ slots)
    (haccepts : ∀ i, flash.accepts i = true) (hshort : token.length < 32) (memory : Manager) {c : Console}
    {rest : List (List Byte)} (hstdin : c.stdin = token :: rest) :
    ∃ s, begin memory a flash c = .ok s ∧ s.pm.records.live.map WPTuple.pair = entries ∧
      s.pm.key = keyOf (CString.str 0 token) ∧ s.console.stdin = rest := by
  obtain ⟨live, hstored, rfl⟩ := h
  obtain ⟨s, hs, hshows⟩ := begin_own memory (slotAddress ha) haccepts hshort hstored hstdin
  exact ⟨s, hs, hshows.entries.symm, hshows.key.symm, hshows.stdin.symm⟩

/-- After any run, the master password of the last commit in a slot opens it, and the session
starts with the entries of that commit. -/
theorem slot_reopens {flash : Flash} (haccepts : ∀ i, flash.accepts i = true)
    {held : Nat → Option (Buf 32 × List Entry)} (hheld : ∀ a ∈ slots, Held flash.cells a (held a))
    {console console' : Console} {flash' : Flash}
    (hrun : Relation.ReflTransGen Step (.menu flash console) (.menu flash' console')) :
    ∃ held', Relation.ReflTransGen Desk.Step (.menu held console.stdin) (.menu held' console'.stdin) ∧
      ∀ a ∈ slots, ∀ (token : List Byte) (entries : List Entry), token.length < 32 →
        held' a = some (keyOf (CString.str 0 token), entries) →
        ∀ (memory : Manager) (c : Console) (rest : List (List Byte)), c.stdin = token :: rest →
          ∃ s, begin memory a flash' c = .ok s ∧
            s.pm.records.live.map WPTuple.pair = entries ∧ s.pm.key = keyOf (CString.str 0 token) ∧
            s.console.stdin = rest := by
  obtain ⟨d, hdesk, hshows⟩ := board_refines haccepts hheld hrun
  cases hshows with
  | @menu _ _ held' haccepts' hheld' =>
    refine ⟨held', hdesk, fun a ha token entries hshort hvault memory c rest hstdin => ?_⟩
    have hslot := hheld' a ha
    rw [hvault] at hslot
    exact held_reopens hslot ha haccepts' hshort memory hstdin

/-- A slot is used for the first time: an entry, a commit, the end of the session. -/
theorem commit_and_quit :
    ∃ flash' console', Relation.ReflTransGen Step
        (.menu Flash.cleared (typed ["1", "add", "a", "b", "commit", "pw", "quit", "again", "1", "pw"]))
        (.menu flash' console') ∧ console'.stdin = [bytes "1", bytes "pw"] := by
  obtain ⟨s₀, s₁, s₂, s₃, console, console', line, hslot, hbegin, hadd, hcommit, hquit, hrestart, hstdin⟩ :
      ∃ s₀ s₁ s₂ s₃ console console' line,
        askinput (typed ["1", "add", "a", "b", "commit", "pw", "quit", "again", "1", "pw"])
          (typed ["1", "add", "a", "b", "commit", "pw", "quit", "again", "1", "pw"]).stdin =
            .ok (address1, console) ∧
        begin (Manager.zeroed 0) address1 Flash.cleared
          { console.alloc.2 with input := console.alloc.1 } = .ok s₀ ∧
        Turn s₀ s₁ ∧ Turn s₁ (committed s₂) ∧ command (committed s₂) = .ok (.done s₃) ∧
        { s₃.console with input := console.input }.scanInput = .ok (line, console') ∧
        console'.stdin = [bytes "1", bytes "pw"] :=
    ⟨_, _, _, _, _, _, _, rfl, rfl, rfl, turn_of_store rfl fun _ => rfl, rfl, rfl, rfl⟩
  exact ⟨_, _, (Relation.ReflTransGen.single (Step.enter hslot hbegin)).tail (.turn hadd)
    |>.tail (.turn hcommit) |>.tail (.leave hquit hrestart), hstdin⟩

theorem slot_reopens_after_commit :
    ∃ flash' console', Relation.ReflTransGen Step
        (.menu Flash.cleared (typed ["1", "add", "a", "b", "commit", "pw", "quit", "again", "1", "pw"]))
        (.menu flash' console') ∧ console'.stdin = [bytes "1", bytes "pw"] ∧
      ∃ held', Relation.ReflTransGen Desk.Step
          (.menu (fun _ => none)
            (typed ["1", "add", "a", "b", "commit", "pw", "quit", "again", "1", "pw"]).stdin)
          (.menu held' [bytes "1", bytes "pw"]) ∧
        ∀ a ∈ slots, ∀ (token : List Byte) (entries : List Entry), token.length < 32 →
          held' a = some (keyOf (CString.str 0 token), entries) →
          ∀ (memory : Manager) (c : Console) (rest : List (List Byte)), c.stdin = token :: rest →
            ∃ s, begin memory a flash' c = .ok s ∧
              s.pm.records.live.map WPTuple.pair = entries ∧ s.pm.key = keyOf (CString.str 0 token) ∧
              s.console.stdin = rest := by
  obtain ⟨flash', console', hrun, hstdin⟩ := commit_and_quit
  obtain ⟨held', hdesk, hreopens⟩ := slot_reopens (fun _ => rfl) (fun _ _ => clear_held) hrun
  rw [hstdin] at hdesk
  exact ⟨_, _, hrun, hstdin, held', hdesk, hreopens⟩

end PasswordManager.Slots
