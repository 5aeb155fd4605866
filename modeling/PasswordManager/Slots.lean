import PasswordManager.Vault.Session

/-!
# Several slots

Every user has a sector of the flash. One object after the other works on the same chip.
-/

open Nor

namespace PasswordManager.Slots

open FlashDriver Vault

/-! ## The code -/

def address1 : Nat := 0x080F8000
def address2 : Nat := 0x080C0000
def address3 : Nat := 0x080A0000
def address4 : Nat := 0x08098000

def slots : List Nat := [address1, address2, address3, address4]

/-- The loop at `askinput`, over the words that are still to be typed. -/
def askinput (c : Console) : List (List Byte) → Except Stop (Nat × Console)
  | [] => .error .noInput
  | token :: stdin => do
    let line ← receive token c.input
    let c := { c with input := line.field, stdin }
    if line.first = ascii 'h' then askinput c stdin
    else if line.first = ascii '1' then return (address1, c)
    else if line.first = ascii '2' then return (address2, c)
    else if line.first = ascii '3' then return (address3, c)
    else if line.first = ascii '4' then return (address4, c)
    else askinput c stdin

/-- `startUI` of the multi-slot manager: at the question for a slot, or in a session. A session
keeps the outer `input` and, for the proofs, the chip as the session found it. -/
inductive Board
  | menu (flash : Flash) (console : Console)
  | session (entered : Flash) (input : Field) (address : Nat) (s : Session)

/-- The sessions follow each other without end. The memory of a new object holds anything. -/
inductive Step : Board → Board → Prop
  | enter {flash : Flash} {console console' : Console} {address : Nat} {memory : Manager}
      {s : Session} (hslot : askinput console console.stdin = .ok (address, console'))
      (hbegin : begin memory address flash
        { console'.alloc.2 with input := console'.alloc.1 } = .ok s) :
      Step (.menu flash console) (.session flash console'.input address s)
  | turn {entered : Flash} {input : Field} {address : Nat} {s s' : Session} (hturn : Turn s s') :
      Step (.session entered input address s) (.session entered input address s')
  | leave {entered : Flash} {input : Field} {address : Nat} {s s' : Session} {line : Line}
      {console : Console} (hdone : command s = .ok (.done s'))
      (hrestart : { s'.console with input }.scanInput = .ok (line, console)) :
      Step (.session entered input address s) (.menu s'.flash console)

def Board.flash : Board → Flash
  | .menu flash _ => flash
  | .session _ _ _ s => s.flash

/-! ## The four slots -/

theorem slotAddress {a : Nat} (ha : a ∈ slots) : SlotAddress a := by
  simp only [slots, List.mem_cons, List.not_mem_nil, or_false] at ha
  rcases ha with rfl | rfl | rfl | rfl
  · exact ⟨11, by decide, by decide, by decide, by decide⟩
  · exact ⟨10, by decide, by decide, by decide, by decide⟩
  · exact ⟨9, by decide, by decide, by decide, by decide⟩
  · exact ⟨8, by decide, by decide, by decide, by decide⟩

theorem not_inSector_of_ne {a b x : Nat} (ha : a ∈ slots) (hb : b ∈ slots) (hne : b ≠ a) (hx : b ≤ x)
    (hx' : x < b + 0x8000) : ¬ InSector (getSectorNumber a) x := by
  have hin := (slotAddress hb).inSector hx hx'
  have hsectors : ∀ a ∈ slots, ∀ b ∈ slots, b ≠ a →
      getSectorAddress (getSectorNumber b) + sectorSize (getSectorNumber b) ≤
          getSectorAddress (getSectorNumber a) ∨
        getSectorAddress (getSectorNumber a) + sectorSize (getSectorNumber a) ≤
          getSectorAddress (getSectorNumber b) := by decide
  have hsector := hsectors a ha b hb hne
  unfold InSector at hin ⊢
  omega

theorem askinput_mem {c c' : Console} {stdin : List (List Byte)} {a : Nat}
    (h : askinput c stdin = .ok (a, c')) : a ∈ slots := by
  induction stdin generalizing c with
  | nil => cases h
  | cons token stdin ih =>
    obtain ⟨line, -, h⟩ := ok_of_bind h
    rcases ite_eq h with ⟨-, h⟩ | ⟨-, h⟩
    · exact ih h
    rcases ite_eq h with ⟨-, h⟩ | ⟨-, h⟩
    · cases h; simp [slots]
    rcases ite_eq h with ⟨-, h⟩ | ⟨-, h⟩
    · cases h; simp [slots]
    rcases ite_eq h with ⟨-, h⟩ | ⟨-, h⟩
    · cases h; simp [slots]
    rcases ite_eq h with ⟨-, h⟩ | ⟨-, h⟩
    · cases h; simp [slots]
    · exact ih h

/-! ## What the operations of a session touch -/

/-- The sector of the slot is erased, then bytes of its 32 KiB are programmed. -/
def Round (a : Nat) (ops : List Op) : Prop :=
  ∃ writes, ops = .erase (getSectorNumber a) :: writes ∧ ∀ op ∈ writes, ∃ x d,
    op = .programByte x d ∧ a ≤ x ∧ x < a + 0x8000 ∧ InSector (getSectorNumber a) x

def Confined (a : Nat) (ops : List Op) : Prop :=
  ∃ rounds : List (List Op), (∀ round ∈ rounds, Round a round) ∧ ops = rounds.flatten

theorem Round.confined {a : Nat} {ops : List Op} (h : Round a ops) : Confined a ops :=
  ⟨[ops], by simpa using h, by simp⟩

theorem Confined.append {a : Nat} {ops ops' : List Op} (h : Confined a ops) (h' : Confined a ops') :
    Confined a (ops ++ ops') := by
  obtain ⟨rounds, hrounds, rfl⟩ := h
  obtain ⟨rounds', hrounds', rfl⟩ := h'
  refine ⟨rounds ++ rounds', fun round hround => ?_, List.flatten_append.symm⟩
  exact (List.mem_append.mp hround).elim (hrounds round) (hrounds' round)

/-- From one chip to a later one, only the sector of the slot was touched. -/
structure Within (a : Nat) (f f' : Flash) : Prop where
  accepts : f'.accepts = f.accepts
  outside : ∀ x, ¬ InSector (getSectorNumber a) x → f'.cells x = f.cells x
  ops : ∃ ops, f'.trace = f.trace ++ ops ∧ Confined a ops

theorem Within.refl (a : Nat) (f : Flash) : Within a f f :=
  ⟨rfl, fun _ _ => rfl, [], by simp, [], by simp, rfl⟩

theorem Within.trans {a : Nat} {f f' f'' : Flash} (h : Within a f f') (h' : Within a f' f'') :
    Within a f f'' := by
  obtain ⟨ops, htrace, hops⟩ := h.ops
  obtain ⟨ops', htrace', hops'⟩ := h'.ops
  exact ⟨h'.accepts.trans h.accepts, fun x hx => (h'.outside x hx).trans (h.outside x hx),
    ops ++ ops', by rw [htrace', htrace, List.append_assoc], hops.append hops'⟩

theorem storeOps_round {m : Manager} (ha : SlotAddress m.address) (accepts : Nat → Bool) (n : Nat) :
    Round m.address (storeOps accepts n m) := by
  refine ⟨_, rfl, fun op hop => ?_⟩
  have hlen := m.length_data
  have hbound := m.records.bound
  simp only [maxStored] at hbound
  have hrange : ∃ x d, op = .programByte x d ∧ m.address ≤ x ∧ x < m.address + 0x8000 := by
    rcases List.mem_append.mp hop with hop | hop
    · obtain ⟨x, d, rfl, hx, hx'⟩ := mem_writeOps hop
      exact ⟨x, d, rfl, hx, by rw [show ident.length = 4 from rfl] at hx'; omega⟩
    rcases List.mem_append.mp hop with hop | hop
    · obtain ⟨x, d, rfl, hx, hx'⟩ := mem_writeOps hop
      exact ⟨x, d, rfl, by omega, by rw [show m.count.length = 2 from rfl] at hx'; omega⟩
    · obtain ⟨x, d, rfl, hx, hx'⟩ := mem_writeOps hop
      exact ⟨x, d, rfl, by omega, by omega⟩
  obtain ⟨x, d, rfl, hx, hx'⟩ := hrange
  exact ⟨x, d, rfl, hx, hx', ha.inSector hx hx'⟩

theorem storeData_within {m : Manager} (ha : SlotAddress m.address) (f : Flash) :
    Within m.address f (storeData m f).2 where
  accepts := by rw [storeData_eq]
  outside x hx := storeData_outside f ha hx
  ops := ⟨_, by rw [storeData_eq], (storeOps_round ha f.accepts f.trace.length).confined⟩

theorem deleteData_within (m : Manager) (f : Flash) : Within m.address f (deleteData m f).2 where
  accepts := rfl
  outside x hx := by
    simp only [deleteData, FlashDriver.erase, Flash.issue]
    split
    · simp [Op.apply, wipe, hx]
    · rfl
  ops := ⟨[.erase (getSectorNumber m.address)], rfl, Round.confined ⟨[], rfl, by simp⟩⟩

theorem effect_within {letter : Byte} {s s' : Session} (ha : SlotAddress s.pm.address)
    (he : Effect letter s s') : Within s.pm.address s.flash s'.flash := by
  rcases he.flash.2 with heq | heq | ⟨m, haddress, heq⟩
  · rw [heq]
    exact Within.refl _ _
  · rw [heq]
    exact deleteData_within s.pm s.flash
  · rw [heq, ← haddress]
    exact storeData_within (haddress ▸ ha) s.flash

theorem ending_within {s s' : Session} (he : Ending s s') : Within s.pm.address s.flash s'.flash := by
  rcases he.flash with heq | heq <;> rw [heq]
  · exact Within.refl _ _
  · exact deleteData_within s.pm s.flash

/-! ## What the slots hold -/

def Occupied (c : Cells) : Prop := ∀ a ∈ slots, SlotContent c a

theorem Occupied.kept {a : Nat} {f f' : Flash} (h : Occupied f.cells) (ha : a ∈ slots)
    (hwithin : Within a f f') (hown : SlotContent f'.cells a) : Occupied f'.cells := by
  intro b hb
  rcases eq_or_ne b a with rfl | hne
  · exact hown
  · exact (h b hb).congr fun x hx hx' =>
      (hwithin.outside x (not_inSector_of_ne ha hb hne hx hx')).symm

theorem slotContent_deleteData {m : Manager} (ha : SlotAddress m.address) {f : Flash}
    (h : SlotContent f.cells m.address) : SlotContent (deleteData m f).2.cells m.address := by
  cases hok : (deleteData m f).1 with
  | false => rwa [deleteData_failed hok]
  | true =>
    left
    apply read_ne_ident
    simp only [deleteData, FlashDriver.erase, Flash.issue] at hok ⊢
    rw [if_pos hok]
    simp only [Op.apply, wipe]
    rw [if_pos (ha.inSector (by omega) (by omega))]

theorem effect_slotContent {letter : Byte} {s s' : Session} (ha : SlotAddress s.pm.address)
    (haccepts : ∀ i, s.flash.accepts i = true) (h : SlotContent s.flash.cells s.pm.address)
    (he : Effect letter s s') : SlotContent s'.flash.cells s.pm.address := by
  rcases he.flash.2 with heq | heq | ⟨m, haddress, heq⟩ <;> rw [heq]
  · exact h
  · exact slotContent_deleteData ha h
  · rw [← haddress] at ha ⊢
    exact .inr ⟨_, _, storeData_stored ha (storeData_accepted m haccepts)⟩

theorem ending_slotContent {s s' : Session} (ha : SlotAddress s.pm.address)
    (h : SlotContent s.flash.cells s.pm.address) (he : Ending s s') :
    SlotContent s'.flash.cells s.pm.address := by
  rcases he.flash with heq | heq <;> rw [heq]
  · exact h
  · exact slotContent_deleteData ha h

/-! ## Isolation -/

structure Isolated (entered : Flash) (a : Nat) (s : Session) : Prop where
  slot : a ∈ slots
  address : s.pm.address = a
  accepts : ∀ i, s.flash.accepts i = true
  occupied : Occupied s.flash.cells
  within : Within a entered s.flash

def Board.Sound : Board → Prop
  | .menu flash _ => (∀ i, flash.accepts i = true) ∧ Occupied flash.cells
  | .session entered _ a s => Isolated entered a s

section
variable {entered : Flash} {a : Nat} {s s' : Session}

theorem Isolated.slotAddress (h : Isolated entered a s) : SlotAddress s.pm.address :=
  h.address ▸ Slots.slotAddress h.slot

theorem Isolated.started {memory : Manager} {flash : Flash} (ha : a ∈ slots)
    (haccepts : ∀ i, flash.accepts i = true) (hoccupied : Occupied flash.cells)
    (h : Started memory a flash s) : Isolated flash a s := by
  cases h with
  | clear console hclear => exact ⟨ha, rfl, haccepts, hoccupied, Within.refl a flash⟩
  | login pm console text hload hfirst hchanged haddress hkey hn hopens =>
    exact ⟨ha, haddress, haccepts, hoccupied, Within.refl a flash⟩

theorem Isolated.effect {letter : Byte} (h : Isolated entered a s) (he : Effect letter s s') :
    Isolated entered a s' := by
  have hwithin := effect_within h.slotAddress he
  have hown := effect_slotContent h.slotAddress h.accepts (h.address ▸ h.occupied a h.slot) he
  rw [h.address] at hwithin hown
  exact ⟨h.slot, he.flash.1.trans h.address, fun i => by rw [hwithin.accepts, h.accepts],
    h.occupied.kept h.slot hwithin hown, h.within.trans hwithin⟩

theorem Isolated.ending (h : Isolated entered a s) (he : Ending s s') :
    (∀ i, s'.flash.accepts i = true) ∧ Occupied s'.flash.cells ∧ Within a entered s'.flash := by
  have hwithin := ending_within he
  have hown := ending_slotContent h.slotAddress (h.address ▸ h.occupied a h.slot) he
  rw [h.address] at hwithin hown
  exact ⟨fun i => by rw [hwithin.accepts, h.accepts], h.occupied.kept h.slot hwithin hown,
    h.within.trans hwithin⟩

end

theorem Board.Sound.step {b b' : Board} (h : b.Sound) (hstep : Step b b') : b'.Sound := by
  cases hstep with
  | enter hslot hbegin => exact .started (askinput_mem hslot) h.1 h.2 (begin_started hbegin)
  | turn hturn =>
    obtain ⟨letter, -, heffect⟩ := command_outcome hturn
    exact Isolated.effect h heffect
  | leave hdone hrestart =>
    obtain ⟨letter, -, hending⟩ := command_outcome hdone
    obtain ⟨haccepts, hoccupied, -⟩ := Isolated.ending h hending
    exact ⟨haccepts, hoccupied⟩

theorem Board.Sound.run {b b' : Board} (h : b.Sound) (hrun : Relation.ReflTransGen Step b b') :
    b'.Sound := by
  induction hrun with
  | refl => exact h
  | tail _ hstep ih => exact ih.step hstep

/-- In every run of the multi-slot manager, a session changes its own sector only, and every
slot can always be loaded again. -/
theorem slot_isolation {flash : Flash} (haccepts : ∀ i, flash.accepts i = true)
    (hslots : ∀ a ∈ slots, SlotContent flash.cells a) {console : Console} {entered : Flash}
    {input : Field} {a : Nat} {s s' : Session}
    (hrun : Relation.ReflTransGen Step (.menu flash console) (.session entered input a s))
    (hnow : s' = s ∨ command s = .ok (.done s')) :
    a ∈ slots ∧
      (∀ x, ¬ InSector (getSectorNumber a) x → s'.flash.cells x = entered.cells x) ∧
      (∀ b ∈ slots, b ≠ a → ∀ x, b ≤ x → x < b + 0x8000 → s'.flash.cells x = entered.cells x) ∧
      (∃ ops, s'.flash.trace = entered.trace ++ ops ∧ Confined a ops) ∧
      ∀ b ∈ slots, SlotContent s'.flash.cells b ∧
        ∀ memory console, begin memory b s'.flash console ≠ .error .overrun := by
  have hsound : Isolated entered a s := Board.Sound.run (b := .menu flash console) ⟨haccepts, hslots⟩ hrun
  have hafter : Occupied s'.flash.cells ∧ Within a entered s'.flash := by
    rcases hnow with rfl | hdone
    · exact ⟨hsound.occupied, hsound.within⟩
    · obtain ⟨letter, -, hending⟩ := command_outcome hdone
      exact (hsound.ending hending).2
  obtain ⟨hoccupied, hwithin⟩ := hafter
  exact ⟨hsound.slot, hwithin.outside,
    fun b hb hne x hx hx' => hwithin.outside x (not_inSector_of_ne hsound.slot hb hne hx hx'),
    hwithin.ops, fun b hb => ⟨hoccupied b hb, begin_ne_overrun (hoccupied b hb)⟩⟩

theorem slot_isolation_first_commit :
    ∃ s s', Relation.ReflTransGen Step
        (.menu Flash.cleared (typed ["1", "add", "a", "b", "commit", "first"]))
        (.session Flash.cleared (Line.put (bytes "1") (by decide) (Field.filled 0)).field address1 s) ∧
      s.log = [.prompted (bytes "first"), .stored (keyOf (bytes "first"))] ∧
      (s' = s ∨ command s = .ok (.done s')) ∧
      (∀ b ∈ slots, b ≠ address1 → ∀ x, b ≤ x → x < b + 0x8000 →
        s'.flash.cells x = Flash.cleared.cells x) := by
  obtain ⟨s₀, s₁, s₂, console, hslot, hbegin, hadd, hcommit, hlog, hinput⟩ :
      ∃ s₀ s₁ s₂ console,
        askinput (typed ["1", "add", "a", "b", "commit", "first"])
          (typed ["1", "add", "a", "b", "commit", "first"]).stdin = .ok (address1, console) ∧
        begin (Manager.zeroed 0) address1 Flash.cleared
          { console.alloc.2 with input := console.alloc.1 } = .ok s₀ ∧
        Turn s₀ s₁ ∧ Turn s₁ (committed s₂) ∧
        (committed s₂).log = [.prompted (bytes "first"), .stored (keyOf (bytes "first"))] ∧
        console.input = (Line.put (bytes "1") (by decide) (Field.filled 0)).field :=
    ⟨_, _, _, _, rfl, rfl, rfl, turn_of_store rfl fun _ => rfl, rfl, rfl⟩
  have hclear : ∀ a ∈ slots, SlotContent Flash.cleared.cells a := fun _ _ =>
    .inl (read_ne_ident rfl)
  have hrun := (Relation.ReflTransGen.single (Step.enter hslot hbegin)).tail (.turn hadd) |>.tail
    (.turn hcommit)
  rw [hinput] at hrun
  exact ⟨_, _, hrun, hlog, .inl rfl, (slot_isolation (fun _ => rfl) hclear hrun (.inl rfl)).2.2.1⟩

end PasswordManager.Slots
