import PasswordManager.Slots.Chip

/-!
# Power lost at the board

The power can be lost in any operation of a session, and whoever comes next starts at the menu. The other
slots do not see it.
-/

open Nor

namespace PasswordManager.Slots

open FlashDriver Vault Alike

/-! ## One slot -/

/-- What the slot holds, or the safe that is open there. -/
inductive Drawer
  | closed (held : Option (Buf 32 × List Entry))
  | opened (t : Safe)

def Drawer.held : Drawer → Option (Buf 32 × List Entry)
  | closed held => held
  | opened t => t.held

/-- `off` is a session that is left at a prompt without a command. -/
inductive Drawer.Step : Drawer → Drawer → Prop
  | enter {held : Option (Buf 32 × List Entry)} {stdin : List (List Byte)} {t : Safe}
      (hbegins : Safe.Begins held stdin t) : Step (.closed held) (.opened t)
  | turn {t t' : Safe} (hturn : t.Turn t') : Step (.opened t) (.opened t')
  | leave {t t' : Safe} (hdone : t.command = .ok (.done t')) : Step (.opened t) (.closed t'.held)
  | off (t : Safe) : Step (.opened t) (.closed t.held)

theorem Drawer.close (d : Drawer) : Relation.ReflTransGen Drawer.Step d (.closed d.held) := by
  cases d with
  | closed held => exact .refl
  | opened t => exact .single (.off t)

/-! ## The board -/

/-- The session is in the slot. -/
def Board.Open (a : Nat) : Board → Prop
  | .menu _ _ => False
  | .session _ _ address _ => address = a

def SameSlot (a : Nat) (c c' : Cells) : Prop := ∀ x, a ≤ x → x < a + 0x8000 → c x = c' x

/-- The slot is as it was before the step that is cut, or as the whole step leaves it. -/
def Spared (a j : Nat) (b b' : Board) : Prop :=
  SameSlot a b.flash.cells (cutAfter j b.flash b'.flash) ∨
    SameSlot a b'.flash.cells (cutAfter j b.flash b'.flash)

/-- A step of the manager, or one in which the power is lost after `j` operations. No step in the slot
`a` itself is cut halfway. -/
inductive CutStep (a : Nat) : Board → Board → Prop
  | whole {b b' : Board} (hstep : Step b b') : CutStep a b b'
  | off (b : Board) (console : Console) : CutStep a b (.menu b.flash console)
  | cut {b b' : Board} (hstep : Step b b') (j : Nat) (console : Console)
      (hspared : b.Open a → Spared a j b b') :
      CutStep a b (.menu { b.flash with cells := cutAfter j b.flash b'.flash } console)

/-- What the board shows of one slot. -/
inductive ShowsDrawer (a : Nat) : Board → Drawer → Prop
  | menu {flash : Flash} {console : Console} {held : Option (Buf 32 × List Entry)}
      (haccepts : ∀ i, flash.accepts i = true) (hheld : Held flash.cells a held) :
      ShowsDrawer a (.menu flash console) (.closed held)
  | elsewhere {entered : Flash} {input : Field} {b : Nat} {s : Session} {held : Option (Buf 32 × List Entry)}
      (hb : b ∈ slots) (hne : a ≠ b) (haddress : s.pm.address = b) (haccepts : ∀ i, s.flash.accepts i = true)
      (hheld : Held s.flash.cells a held) : ShowsDrawer a (.session entered input b s) (.closed held)
  | here {entered : Flash} {input : Field} {s : Session} {t : Safe} (haddress : s.pm.address = a)
      (h : Shows s t) : ShowsDrawer a (.session entered input a s) (.opened t)

section
variable {a : Nat} {b b' : Board} {d : Drawer}

theorem ShowsDrawer.accepts (h : ShowsDrawer a b d) : ∀ i, b.flash.accepts i = true := by
  cases h with
  | menu haccepts hheld => exact haccepts
  | elsewhere hb hne haddress haccepts hheld => exact haccepts
  | here haddress h => exact h.accepts

theorem ShowsDrawer.held (h : ShowsDrawer a b d) : Held b.flash.cells a d.held := by
  cases h with
  | menu haccepts hheld => exact hheld
  | elsewhere hb hne haddress haccepts hheld => exact hheld
  | here haddress h => exact haddress ▸ h.held

/-! ## What a cut step touches -/

theorem Round.touches {f f' : Flash} {ops : List Op} (h : Round a ops) (hplayed : Played f ops f') :
    Touches {x | InSector (getSectorNumber a) x} f f' := by
  obtain ⟨writes, rfl, hwrites⟩ := h
  refine ⟨hplayed.accepts, _, hplayed.trace, hplayed.cells, fun op hop x hx => ?_⟩
  rcases List.mem_cons.mp hop with rfl | hop
  · exact hx
  · obtain ⟨y, d, rfl, -, -, hy⟩ := hwrites op hop
    rintro rfl
    exact hx hy

theorem Effect.touches {letter : Byte} {s s' : Session} (ha : s.pm.address ∈ slots)
    (h : Effect letter s s') : Touches {x | InSector (getSectorNumber s.pm.address) x} s.flash s'.flash := by
  rcases h.flash.2 with heq | heq | ⟨m, haddress, heq⟩ <;> rw [heq]
  · exact .refl _
  · exact touches_erase _ _
  · rw [← haddress] at ha ⊢
    exact (storeOps_round (slotAddress ha) _ _).touches (storeData_played ha _)

theorem Ending.touches {s s' : Session} (h : Ending s s') :
    Touches {x | InSector (getSectorNumber s.pm.address) x} s.flash s'.flash := by
  rcases h.flash with heq | heq <;> rw [heq]
  · exact .refl _
  · exact touches_erase _ _

/-- In whatever slot the session is, and wherever its step is cut. -/
theorem ShowsDrawer.spared (ha : a ∈ slots) (h : ShowsDrawer a b d) (hstep : Step b b') (j : Nat)
    (hspared : b.Open a → Spared a j b b') : Spared a j b b' := by
  cases h with
  | @menu flash console held haccepts hheld =>
    cases hstep with
    | @enter _ _ console' address memory s hslot hbegin =>
      have htouches : Touches ∅ flash s.flash := by
        rw [(started_at (begin_started hbegin)).2]
        exact .refl flash
      exact .inl fun x _ _ => (htouches.cut j (Set.notMem_empty x)).symm
  | @elsewhere entered input address s held hb hne haddress haccepts hheld =>
    have htouches : Touches {x | InSector (getSectorNumber address) x} s.flash b'.flash := by
      subst haddress
      cases hstep with
      | turn hturn =>
        obtain ⟨letter, -, heffect⟩ := command_outcome hturn
        exact Effect.touches hb heffect
      | leave hdone hrestart =>
        obtain ⟨letter, -, hending⟩ := command_outcome hdone
        exact Ending.touches hending
    exact .inl fun x hx hx' => (htouches.cut j (not_inSector_of_ne hb ha hne hx hx')).symm
  | here haddress h => exact hspared rfl

/-! ## Runs -/

theorem step_drawer (ha : a ∈ slots) (h : ShowsDrawer a b d) (hstep : Step b b') :
    ∃ d', Relation.ReflTransGen Drawer.Step d d' ∧ ShowsDrawer a b' d' := by
  cases hstep with
  | @enter flash console console' address memory s hslot hbegin =>
    cases h with
    | @menu _ _ held haccepts hheld =>
      obtain ⟨haddress, hflash⟩ := started_at (begin_started hbegin)
      by_cases hne : a = address
      · subst hne
        obtain ⟨t, hbegins, hshows⟩ := begin_refines (slotAddress ha) haccepts hheld hbegin
        exact ⟨_, .single (.enter hbegins), .here haddress hshows⟩
      · refine ⟨_, .refl, .elsewhere (askinput_mem hslot) hne haddress ?_ ?_⟩
        · rwa [hflash]
        · rwa [hflash]
  | @turn entered input address s s' hturn =>
    obtain ⟨letter, -, heffect⟩ := command_outcome hturn
    cases h with
    | elsewhere hb hne haddress haccepts hheld =>
      have hwithin := effect_within (haddress ▸ slotAddress hb) heffect
      rw [haddress] at hwithin
      exact ⟨_, .refl, .elsewhere hb hne (heffect.flash.1.trans haddress)
        (fun i => by rw [hwithin.accepts, haccepts]) (held_outside hb ha hne hwithin hheld)⟩
    | here haddress h =>
      obtain ⟨t', hturn', hshows'⟩ := turn_refines h hturn
      exact ⟨_, .single (.turn hturn'), .here (heffect.flash.1.trans haddress) hshows'⟩
  | @leave entered input address s s' line console hdone hrestart =>
    obtain ⟨letter, -, hending⟩ := command_outcome hdone
    cases h with
    | elsewhere hb hne haddress haccepts hheld =>
      have hwithin := ending_within hending
      rw [haddress] at hwithin
      exact ⟨_, .refl, .menu (fun i => by rw [hwithin.accepts, haccepts])
        (held_outside hb ha hne hwithin hheld)⟩
    | here haddress h =>
      obtain ⟨t', hdone', hshows'⟩ := done_refines h hdone
      have haddress' := (ending_at hending).trans haddress
      exact ⟨_, .single (.leave hdone'), .menu hshows'.accepts (haddress' ▸ hshows'.held)⟩

theorem cutStep_drawer (ha : a ∈ slots) (h : ShowsDrawer a b d) (hstep : CutStep a b b') :
    ∃ d', Relation.ReflTransGen Drawer.Step d d' ∧ ShowsDrawer a b' d' := by
  cases hstep with
  | whole hstep => exact step_drawer ha h hstep
  | off console => exact ⟨_, d.close, .menu h.accepts h.held⟩
  | cut hstep j console hspared =>
    rcases h.spared ha hstep j hspared with hbefore | hafter
    · exact ⟨_, d.close, .menu h.accepts (h.held.congr hbefore)⟩
    · obtain ⟨d', hdrawer, hshows⟩ := step_drawer ha h hstep
      exact ⟨_, hdrawer.trans d'.close, .menu h.accepts (hshows.held.congr hafter)⟩

/-- However often the power is lost in other slots, a slot in whose own sessions it is not lost halfway
through a step is a drawer, and the master password of its last commit opens it. -/
theorem slot_survives (ha : a ∈ slots) {flash : Flash} {console : Console}
    {held : Option (Buf 32 × List Entry)} (haccepts : ∀ i, flash.accepts i = true)
    (hheld : Held flash.cells a held) (hrun : Relation.ReflTransGen (CutStep a) (.menu flash console) b) :
    ∃ d, Relation.ReflTransGen Drawer.Step (.closed held) d ∧ ShowsDrawer a b d ∧
      ∀ (token : List Byte) (entries : List Entry), token.length < 32 →
        d.held = some (keyOf (CString.str 0 token), entries) →
        ∀ (memory : Manager) (c : Console) (rest : List (List Byte)), c.stdin = token :: rest →
          ∃ s, begin memory a b.flash c = .ok s ∧ s.pm.records.live.map WPTuple.pair = entries ∧
            s.pm.key = keyOf (CString.str 0 token) ∧ s.console.stdin = rest := by
  obtain ⟨d, hdrawer, hshows⟩ := runs (R := ShowsDrawer a)
    (fun _ _ _ h hstep => cutStep_drawer ha h hstep) hrun (.menu haccepts hheld)
  rw [Relation.reflTransGen_eq_self] at hdrawer
  refine ⟨d, hdrawer, hshows, fun token entries hshort hvault memory c rest hstdin => ?_⟩
  have hheld' := hshows.held
  rw [hvault] at hheld'
  exact held_reopens hheld' ha hshows.accepts hshort memory hstdin

end

/-- The first slot holds an empty vault, and the second one is unused. -/
theorem exists_first_vault (key : Buf 32) : ∃ flash : Flash, (∀ i, flash.accepts i = true) ∧
    Stored flash.cells address1 0 (blob key []) ∧ loadData flash.cells address2 = .firstUse := by
  have hfirst : address1 ∈ slots := by simp [slots]
  have hsecond : address2 ∈ slots := by simp [slots]
  have hne : address2 ≠ address1 := by decide
  set m : Manager := { Manager.zeroed address1 with key }
  have hstored := stored_encrypted (m := m) (f := Flash.cleared) (slotAddress hfirst) fun _ => rfl
  refine ⟨_, fun i => ?_, hstored, loadData_of_ne (read_ne_ident ?_)⟩
  · rw [storeData_eq]
    rfl
  · have hother : ¬ InSector (getSectorNumber m.encrypt.address) address2 :=
      not_inSector_of_ne hfirst hsecond hne (Nat.le_refl _) (Nat.lt_add_of_pos_right (by decide))
    exact storeData_outside Flash.cleared (slotAddress hfirst) hother

/-- Wherever the first commit in the second slot is cut. -/
theorem slot_survives_torn_commit : ∃ (flash : Flash) (s s' : Session) (console : Console),
    Stored flash.cells address1 0 (blob (keyOf (bytes "pw")) []) ∧ Turn s s' ∧ s.pm.address = address2 ∧
    s'.flash ≠ s.flash ∧ ∀ j,
      Relation.ReflTransGen (CutStep address1) (.menu flash (typed ["2", "add", "a", "b", "commit", "qw"]))
        (.menu { s.flash with cells := cutAfter j s.flash s'.flash } console) ∧
      ∃ d, Relation.ReflTransGen Drawer.Step (.closed (some (keyOf (bytes "pw"), []))) d ∧
        ShowsDrawer address1 (.menu { s.flash with cells := cutAfter j s.flash s'.flash } console) d := by
  obtain ⟨flash, haccepts, hstored, hclear⟩ := exists_first_vault (keyOf (bytes "pw"))
  obtain ⟨s₀, s₁, s₂, console, hslot, hbegin, hadd, hcommit, haddress, hflash, hflash'⟩ :
      ∃ s₀ s₁ s₂ console,
        askinput (typed ["2", "add", "a", "b", "commit", "qw"])
          (typed ["2", "add", "a", "b", "commit", "qw"]).stdin = .ok (address2, console) ∧
        begin (Manager.zeroed 0) address2 flash
          { console.alloc.2 with input := console.alloc.1 } = .ok s₀ ∧
        Turn s₀ s₁ ∧ Turn s₁ (committed s₂) ∧ s₁.pm.address = address2 ∧ s₁.flash = flash ∧
        s₂.flash = flash :=
    ⟨_, _, _, _, rfl, begin_unused hclear, rfl, turn_of_store rfl haccepts, rfl, rfl, rfl⟩
  have hchanged : (committed s₂).flash ≠ s₁.flash := by
    intro heq
    have htrace := congrArg Flash.trace heq
    rw [hflash, committed, storeData_eq, hflash'] at htrace
    simp [storeOps] at htrace
  have hne : address2 ≠ address1 := by decide
  have hheld : Held flash.cells address1 (some (keyOf (bytes "pw"), [])) := ⟨[], hstored, rfl⟩
  refine ⟨flash, s₁, committed s₂, typed [], hstored, hcommit, haddress, hchanged, fun j => ?_⟩
  have hrun : Relation.ReflTransGen (CutStep address1) _ (.menu { s₁.flash with
      cells := cutAfter j s₁.flash (committed s₂).flash } (typed [])) :=
    ((Relation.ReflTransGen.single (CutStep.whole (.enter hslot hbegin))).tail (.whole (.turn hadd))).tail
      (.cut (.turn hcommit) j (typed []) fun hopen => absurd hopen hne)
  obtain ⟨d, hdrawer, hshows, -⟩ :=
    slot_survives (by simp [slots]) haccepts hheld hrun
  exact ⟨hrun, d, hdrawer, hshows⟩

end PasswordManager.Slots
