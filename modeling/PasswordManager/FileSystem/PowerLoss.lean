import PasswordManager.FileSystem.Buffer
import PasswordManager.FileSystem.Clear

/-!
# Power lost in the file system

A create at the end of the list programs its own header only, and a delete is one operation. A create in a
hole erases sectors, and what they hold is in the buffer then.
-/

open Nor

namespace PasswordManager.FileSystem

open FlashDriver Fuel CString Alike

/-! ## The operations of a call -/

theorem writeHeader_trace {f : Flash} (hf : f.Fine) (address : Nat) (header : Header) :
    ∃ rest, (writeHeader f address header).2.trace = f.trace ++
        .programHalfWord address (BitVec.ofNat 16 header.next) ::
          .programHalfWord (address + 2) (BitVec.ofNat 16 (header.next / 2 ^ 16)) :: rest ∧
      ∀ op ∈ rest, ∀ x ∉ Set.Ico (address + 4) (address + 36), op.Misses x := by
  have htaken : ∀ (g : Flash) op, g.Fine → g.issue op = (true, (g.issue op).2) := fun g op hg =>
    Prod.ext (hg _) rfl
  set g₁ := (f.issue (.programHalfWord address (BitVec.ofNat 16 header.next))).2 with hg₁
  set g₂ := (g₁.issue (.programHalfWord (address + 2) (BitVec.ofNat 16 (header.next / 2 ^ 16)))).2 with hg₂
  have hword : writeWord f address header.next = (true, g₂) := by
    rw [writeWord, programHalfWord, htaken f _ hf]
    exact htaken g₁ _ hf
  have hheader : writeHeader f address header = writeRest g₂ address header := by
    rw [writeHeader, hword]
    rfl
  obtain ⟨-, rest, htrace, -, hrest⟩ := touches_writeRest g₂ address header
  refine ⟨rest, ?_, hrest⟩
  rw [hheader, htrace]
  simp [hg₂, hg₁, Flash.issue]

theorem cut_issue (j : Nat) (f : Flash) (op : Op) :
    cutAfter j f (f.issue op).2 = f.cells ∨ cutAfter j f (f.issue op).2 = (f.issue op).2.cells := by
  cases j with
  | zero => exact .inl rfl
  | succ j =>
    right
    simp [cutAfter, Flash.issue, replay]

section
variable {f f' : Flash} {c' : Cells} {hs hs' : List Header} {t t' : Nat} {w : Name} {size : Int} {env : Env}
  {file : File}

theorem Opened.writes {h : Header} (hf : f.Fine)
    (hopened : Opened f.cells hs t w size env file (.newest t h) c' hs' t') (hvalid : 0 ≤ size)
    (hopen : Yields (openFile · f w .create size env) (some file, f')) : f' = (writeHeader f t h).2 := by
  obtain ⟨g, hwrite, -⟩ := did_writeHeader hf t h
  have hdone : Yields (fun fuel => Place.write fuel f (.newest t h)) (true, g) := by
    simp only [Place.write, hwrite]
    exact .pure _
  cases hopen.unique (openFile_created hopened.short hopened.named hvalid hopened.place hdone)
  rw [hwrite]

theorem unlink_issues {beyond : Nat → List Byte} {r : Except Errno Unit} {a : Nat} (hf : f.Fine)
    (hnamed : w.val ≠ []) (hget : Yields (getAddress f.cells w beyond · getStartSector) a) (ha : a ≠ fsBlank)
    (hunlink : Yields (unlink · f w beyond) (r, f')) :
    f' = (f.issue (.programByte (a + 12) 0)).2 := by
  have hissue : programByte f (a + sizeofHeader - fsFileNameMaxLenght) 0 =
      (true, (f.issue (.programByte (a + 12) 0)).2) := Prod.ext (hf _) rfl
  have hyes : Yields (unlink · f w beyond) (.ok (), (f.issue (.programByte (a + 12) 0)).2) := by
    unfold unlink
    simp only [if_neg hnamed]
    refine hget.bind ?_
    simp only [if_neg ha, hissue]
    exact .pure _
  cases hunlink.unique hyes
  rfl

end

/-! ## Finding a file -/

/-- The file is found where it was, as it was. -/
def Finds (c : Cells) (w : Name) (r : Record) : Prop := FoundAt c w r.address ∧ record c r.address = r

section
variable {s s' : State} {hs hs' : List Header} {t t' : Nat} {w : Name} {r : Record} {d : Directory}

theorem Kept.finds {c' : Cells} (hkept : Kept s hs t) (hr : Lists s.flash.cells hs w r)
    (hcells : ∀ x < t, c' x = s.flash.cells x) : Finds c' w r := by
  obtain ⟨hnamed, hlength, -⟩ := hkept.found hr
  obtain ⟨a, h, ha, hlive, hcarries, rfl⟩ := hr
  obtain ⟨-, hchain, htail, -⟩ := hkept.listed
  obtain ⟨pre, post, rfl, hpre, hat⟩ := hchain.split ha
  have hle := hat.add_le
  have hnext : h.next ≤ t := hat.2.2.2.2.le
  have hlast := htail.lt_last
  have hh : h.Named w := hcarries.named (by omega)
  refine ⟨fun beyond => ?_, ?_⟩
  · have hread : readHeader c' a = h :=
      (readHeader_congr fun x _ hx => hcells x (by omega)).trans hat.2.1
    show Yields (getAddress c' w beyond · getStartSector) a
    refine getAddress_reaches (hpre.congr fun x _ hx => (hcells x (by omega)).symm) (by omega) ?_ ?_
    · intro g hg rest
      rw [Bool.eq_false_iff]
      intro heq
      have hapart := (List.pairwise_append.mp hkept.apart).2.2 g hg h List.mem_cons_self
      exact hapart w hnamed (.of_strcmp (by omega) heq) hh
    · rw [hread]
      exact hh.strcmp _
  · exact record_congr hchain ha hlive fun x _ hx => hcells x (by omega)

theorem Finds.opens {f : Flash} (h : Finds f.cells w r) (hnamed : w.val ≠ []) (hlength : w.val.length ≤ 23)
    (hne : r.address ≠ fsBlank) {size : Int} (hsize : 0 ≤ size) (env : Env) :
    Yields (openFile · f w .read size env) (some ⟨r.address + sizeofHeader, r.size, r.uid, r.gid⟩, f) := by
  have hopen := openFile_read (Nat.le_succ_of_le hlength) hnamed hsize (h.1 env.beyond)
  rw [if_neg hne] at hopen
  rw [← h.2]
  exact hopen

theorem Finds.data {c : Cells} (h : Finds c w r) : Nor.read c (r.address + sizeofHeader) r.size = r.data := by
  have hdata := congrArg Record.data h.2
  have hsize := congrArg Record.size h.2
  simp only [record] at hdata hsize
  rwa [hsize] at hdata

/-! ## A call that is cut -/

theorem cutAfter_self (j : Nat) (f : Flash) : cutAfter j f f = f.cells := by
  rw [cutAfter, List.drop_length, List.take_nil]
  rfl

theorem create_cut {size : Int} {env : Env} (hkept : Kept s hs t)
    (hstep : TailStep s (.create w size env) s') (j : Nat) {x : Nat} (hx : x < t) :
    cutAfter j s.flash s'.flash x = s.flash.cells x := by
  obtain ⟨⟨hclean, hstep⟩, htails⟩ := hstep
  obtain ⟨hfine, hchain, htail, -⟩ := hkept.listed
  cases hstep with
  | created hint hopen hplace =>
    rcases create_yields hfine hchain htail hint hclean.careful with
      hnone | ⟨file, f', p, hs', t', hyes, -, hopened⟩
    · cases hopen.unique hnone
    · cases hopen.unique hyes
      cases p with
      | newest a h =>
        obtain rfl : a = t := by cases hopened.placed; rfl
        have htouches := touches_writeHeader s.flash a h
        rw [← hopened.writes hfine (created_valid hopen) hopen] at htouches
        exact htouches.cut j fun hin => absurd hin.1 (Nat.not_le.mpr hx)
      | hole a h rest =>
        obtain ⟨m, htakes⟩ := hopened.takes a h rest rfl
        exact absurd htakes (htails w size env rfl a m)
  | refused hint hopen =>
    rcases create_yields hfine hchain htail hint hclean.careful with hnone | ⟨file, f', p, hs', t', hyes, -⟩
    · cases hopen.unique hnone
      exact congrFun (cutAfter_self j s.flash) x
    · cases hopen.unique hyes

theorem unlink_cut {beyond : Nat → List Byte} (hkept : Kept s hs t)
    (hstep : CleanStep s (.unlink w beyond) s') (j : Nat) :
    cutAfter j s.flash s'.flash = s.flash.cells ∨ cutAfter j s.flash s'.flash = s'.flash.cells := by
  obtain ⟨hclean, hstep⟩ := hstep
  obtain ⟨hfine, hchain, htail, -⟩ := hkept.listed
  cases hstep with
  | unlinked hunlink =>
    by_cases hnamed : w.val = []
    · have hnone : Yields (unlink · s.flash w beyond) (.error .ENOENT, s.flash) := by
        simp only [unlink, if_pos hnamed]
        exact .pure _
      cases hunlink.unique hnone
      exact .inl (cutAfter_self j s.flash)
    rcases unlink_yields hfine hchain htail hclean with hnone | ⟨a, h, f', hget, ha, hyes, -⟩
    · cases hunlink.unique hnone
      exact .inl (cutAfter_self j s.flash)
    · obtain ⟨pre, post, -, -, hat⟩ := hchain.split ha
      rw [unlink_issues hfine hnamed hget (hat.ne_blank htail) hunlink]
      exact cut_issue j s.flash _

theorem cut_finds {call : Call} {r : Record} (hkept : Kept s hs t)
    (hd : ∀ w r, d w = some r ↔ Lists s.flash.cells hs w r) (hstep : TailStep s call s')
    (hfiles : ∀ a, call ≠ .write a) (hr : d w = some r) (hspares : ∀ beyond, call ≠ .unlink w beyond)
    (j : Nat) : Finds (cutAfter j s.flash s'.flash) w r := by
  have hlists := (hd w r).mp hr
  cases call with
  | create w' size env => exact hkept.finds hlists fun x hx => create_cut hkept hstep j hx
  | write a => exact absurd rfl (hfiles a)
  | unlink w' beyond =>
    rcases unlink_cut hkept hstep.1 j with heq | heq <;> rw [heq]
    · exact hkept.finds hlists fun _ _ => rfl
    · obtain ⟨d', hdstep, hs', t', hkept', hd'⟩ := step_shows ⟨hs, t, hkept, hd⟩ hstep.1
      have hr' : d' w = some r := hdstep.keeps hr ⟨hspares, hfiles _⟩
      exact hkept'.finds ((hd' w r).mp hr') fun _ _ => rfl

/-- Power lost after any operation of a create at the end of the list, or of a delete, takes no other file
away. The delete was done then, or it was not. -/
theorem cut_keeps_files {f : Flash} {calls : List Call} {call : Call} (herased : Erased f)
    (hrun : Traces CleanStep ⟨f, []⟩ calls s) (hstep : TailStep s call s') (hfiles : ∀ a, call ≠ .write a)
    (j : Nat) :
    let c := cutAfter j s.flash s'.flash
    ∃ d, Traces Directory.Step (fun _ => none) calls d ∧ Answers s.flash d ∧
      (∀ w r, d w = some r → (∀ beyond, call ≠ .unlink w beyond) →
        Nor.read c (r.address + sizeofHeader) r.size = r.data ∧
          ∀ size env, 0 ≤ size → Yields (openFile · { s.flash with cells := c } w .read size env)
            (some ⟨r.address + sizeofHeader, r.size, r.uid, r.gid⟩, { s.flash with cells := c })) ∧
      ∀ w beyond, call = .unlink w beyond → c = s.flash.cells ∨ c = s'.flash.cells := by
  obtain ⟨d, htraces, hshows⟩ := hrun.alike (fun _ _ _ _ h hstep => step_shows h hstep) (erased_shows herased)
  obtain ⟨hs, t, hkept, hd⟩ := hshows
  refine ⟨d, htraces, ShowsDirectory.answers ⟨hs, t, hkept, hd⟩, fun w r hr hspares => ?_, ?_⟩
  · have hfinds := cut_finds hkept hd hstep hfiles hr hspares j
    obtain ⟨hnamed, hlength, hne, -⟩ := hkept.found ((hd w r).mp hr)
    exact ⟨hfinds.data, fun size env hsize => Finds.opens hfinds hnamed hlength hne hsize env⟩
  · rintro w beyond rfl
    exact unlink_cut hkept hstep.1 j

end

theorem cut_keeps_files_oneFile : ∃ s s', Traces CleanStep ⟨Flash.cleared, []⟩
      [.create (letter 0x61 ended_a) 0 quiet] s ∧
    TailStep s (.create (letter 0x65 ended_e) 0 quiet) s' ∧
    ∀ j, ∃ d : Directory, d (letter 0x61 ended_a) ≠ none ∧
      ∀ w r, d w = some r → ∀ size env, 0 ≤ size →
        Yields (openFile · { s.flash with cells := cutAfter j s.flash s'.flash } w .read size env)
          (some ⟨r.address + sizeofHeader, r.size, r.uid, r.gid⟩,
            { s.flash with cells := cutAfter j s.flash s'.flash }) := by
  obtain ⟨f₁, hstep₁, hlisted₁, -⟩ := @Listed.add getStartSector [] 0x61 ended_a _
    erased_cleared.listed (by decide) (by simp) 0 (by decide)
  obtain ⟨f₂, hstep₂, -⟩ := @Listed.add _ _ 0x65 ended_e _ hlisted₁ (by decide) (by decide) 0 (by decide)
  have hrun : Traces CleanStep _ [.create (letter 0x61 ended_a) 0 quiet] _ :=
    Traces.nil.snoc (tailStep_of_room erased_cleared.listed (by decide) (by decide) hstep₁).1
  have htail : TailStep _ (.create (letter 0x65 ended_e) 0 quiet) _ :=
    tailStep_of_room hlisted₁ (by decide) (by decide) hstep₂
  refine ⟨_, _, hrun, htail, fun j => ?_⟩
  obtain ⟨d, -, hanswers, hfiles, -⟩ := cut_keeps_files erased_cleared hrun htail (by simp) j
  refine ⟨d, fun hnone => ?_, fun w r hr size env hsize => ?_⟩
  · have hstart : Chain f₁.cells getStartSector [] getStartSector := rfl
    have hopen := @open_letter _ _ _ _ _ _ _ ended_a hstart hlisted₁.chain hlisted₁.tail (by simp) rfl
    have hanswer := hanswers.opens (letter 0x61 ended_a) 0 quiet (by decide) (by decide)
    rw [hnone] at hanswer
    cases hopen.unique hanswer
  · exact (hfiles w r hr (by simp)).2 size env hsize

/-! ## Half of a pointer -/

section
variable {s s' : State} {c' : Cells} {hs : List Header} {a b n t : Nat} {w : Name}

theorem word_cut {f : Flash} {h : Header} (hf : f.Fine) (htail : Tail f.cells t) (hnext : h.next < 2 ^ 32)
    (j : Nat) : word (cutAfter j f (writeHeader f t h).2) t =
      if j = 0 then fsBlank else if j = 1 then h.next % 2 ^ 16 + 2 ^ 16 * 0xFFFF else h.next := by
  obtain ⟨rest, htrace, hrest⟩ := writeHeader_trace hf t h
  have hlast := htail.lt_end
  have hblank : Blank f.cells t 4 := fun x hx hx' => htail.blank x hx (by omega)
  have hone := hf f.trace.length
  have htwo := hf (f.trace.length + 1)
  rw [cutAfter, htrace, List.drop_left]
  rcases j with _ | _ | j
  · exact htail.word
  · simp only [Nat.zero_add, List.take_succ_cons, List.take_zero, replay, hone, if_true, Op.apply]
    set low := BitVec.ofNat 16 h.next with hlow
    show word (burn f.cells t (halfBytes low)) t = _
    have hfirst : half (burn f.cells t (halfBytes low)) t = low := half_eq (holds_burn (hblank.within le_rfl
      (Nat.add_le_add_left (show (halfBytes low).length ≤ 4 by simp [halfBytes]) t)))
    have hsecond : half (burn f.cells t (halfBytes low)) (t + 2) = 0xFFFF := by
      have hout : ∀ x, t + 2 ≤ x → x < t + 4 → burn f.cells t (halfBytes low) x = blank := fun x hx hx' => by
        rw [burn_outside (.inr hx), hblank x (by omega) hx']
      rw [half, hout _ (by omega) (by omega), hout _ (by omega) (by omega)]
      rfl
    rw [word, hfirst, hsecond, hlow, BitVec.toNat_ofNat]
    rfl
  · simp only [List.take_succ_cons, replay, hone, htwo, if_true, Op.apply]
    have hholds : Holds (burn f.cells t (wordBytes h.next)) t (wordBytes h.next) := holds_burn hblank
    rw [if_neg (by omega), if_neg (by omega)]
    refine word_eq (hholds.congr fun x hx hx' => ?_) hnext
    have hout : x ∉ Set.Ico (t + 4) (t + 36) := fun hin => absurd hin.1 (Nat.not_le.mpr hx')
    rw [replay_misses fun op hop => hrest op (List.mem_of_mem_take hop) x hout, wordBytes, burn_append]
    rfl

theorem Chain.visits (hchain : Chain c' b hs t) (ht : t < getLastAddress) (hb : Visited c' b) :
    Visited c' t := by
  induction hs generalizing b with
  | nil =>
    obtain rfl : b = t := hchain
    exact hb
  | cons h hs ih =>
    have hrest := hchain.2.2.2.2
    have hle := hrest.le
    have hword : word c' b = h.next := word_eq_next hchain.2.1
    refine ih hrest ?_
    rw [← hword]
    exact hb.next (hword ▸ ne_blank_of_lt (by omega))

theorem Visited.within (h : Visited c' a) (hchain : Chain c' getStartSector hs t) (hn : word c' t = n)
    (hend : word c' n = fsBlank) : (∃ h, (a, h) ∈ places getStartSector hs) ∨ a = t ∨ a = n := by
  induction h with
  | start =>
    cases hs with
    | nil => exact .inr (.inl hchain)
    | cons h hs => exact .inl ⟨h, List.mem_cons_self⟩
  | next _ hnext ih =>
    rcases ih with ⟨h, hmem⟩ | rfl | rfl
    · rw [word_eq_next (hchain.read hmem)]
      rcases hchain.mem_next hmem with heq | hmem'
      · exact .inr (.inl heq)
      · exact .inl hmem'
    · exact .inr (.inr hn)
    · exact absurd hend hnext

theorem leads_out_iff {f : Flash} {h : Header} (hf : f.Fine) (hchain : Chain f.cells getStartSector hs t)
    (htail : Tail f.cells t) (haligned : Aligned h.next) (hend : h.next < getLastAddress)
    (hspace : t + 36 ≤ h.next) (j : Nat) :
    (∃ x, Visited (cutAfter j f (writeHeader f t h).2) x ∧ getLastAddress ≤ x) ↔ j = 1 := by
  have hlast := htail.lt_end
  rw [getLastAddress_val] at hend ⊢
  have hword := word_cut (h := h) hf htail (by omega) j
  have hcut : ∀ x, x < t ∨ t + 36 ≤ x → cutAfter j f (writeHeader f t h).2 x = f.cells x := fun x hx =>
    (touches_writeHeader f t h).cut j fun hin => by
      rw [Set.mem_Ico] at hin
      omega
  have hinside : ∀ x g, (x, g) ∈ places getStartSector hs → x < 0x080DFFDC := fun x g hx => by
    have := hchain.bounds hx
    omega
  rcases Nat.eq_zero_or_pos j with rfl | hj
  · refine iff_of_false ?_ (by decide)
    rintro ⟨x, hx, hge⟩
    rcases Visited.listed hx hchain htail with rfl | ⟨g, hmem⟩
    · omega
    · exact absurd (hinside x g hmem) (by omega)
  rw [if_neg (by omega)] at hword
  generalize cutAfter j f (writeHeader f t h).2 = c' at hword hcut ⊢
  have hchain' : Chain c' getStartSector hs t := hchain.congr fun x _ hx => (hcut x (.inl hx)).symm
  have ht : t < getLastAddress := by
    rw [getLastAddress_val]
    omega
  by_cases hone : j = 1
  · -- The other half is blank, so the pointer is `0xFFFF` and what was written.
    rw [if_pos hone] at hword
    have hlow : h.next % 2 ^ 16 ≠ 0xFFFF := by
      obtain ⟨hstart, hmod⟩ := haligned
      omega
    refine iff_of_true ⟨word c' t, (hchain'.visits ht .start).next ?_, ?_⟩ hone
    · rw [hword, fsBlank_val]
      omega
    · rw [hword]
      omega
  · -- The pointer is there, and what it leads to is not written yet.
    rw [if_neg hone] at hword
    have hblank : word c' h.next = fsBlank := word_blank fun x hx hx' => by
      rw [hcut x (.inr (by omega))]
      exact htail.blank x (by omega) (by omega)
    refine iff_of_false ?_ hone
    rintro ⟨x, hx, hge⟩
    rcases hx.within hchain' hword hblank with ⟨g, hmem⟩ | rfl | rfl
    · exact absurd (hinside x g hmem) (by omega)
    · omega
    · omega

/-- With power lost after the first operation of a create, and only then, the list leads out of the chip: one
half of the pointer to the new end is there. -/
theorem cut_leads_out_iff {f : Flash} {calls : List Call} {size : Int} {env : Env} {file : File}
    (herased : Erased f) (hrun : Traces CleanStep ⟨f, []⟩ calls s)
    (hstep : TailStep s (.create w size env) s')
    (hopen : Yields (openFile · s.flash w .create size env) (some file, s'.flash)) (j : Nat) :
    (∃ x, Visited (cutAfter j s.flash s'.flash) x ∧ getLastAddress ≤ x) ↔ j = 1 := by
  obtain ⟨d, -, hs, t, hkept, -⟩ :=
    hrun.alike (fun _ _ _ _ h hstep => step_shows h hstep) (erased_shows herased)
  obtain ⟨hfine, hchain, htail, -⟩ := hkept.listed
  have hint : size < 2 ^ 31 := by cases hstep.1.2 <;> assumption
  rcases create_yields hfine hchain htail hint hstep.1.1.careful with
    hnone | ⟨file', f', p, hs', t', hyes, -, hopened⟩
  · cases hopen.unique hnone
  · cases hopen.unique hyes
    cases p with
    | newest a h =>
      obtain ⟨rfl, haligned, hend, hspace⟩ :
          a = t ∧ Aligned h.next ∧ h.next < getLastAddress ∧ t + 72 + h.size ≤ h.next := by
        cases hopened.placed with
        | newest hcells hnext hlast hspace => exact ⟨rfl, hnext, hlast, hspace⟩
      rw [hopened.writes hfine (created_valid hopen) hopen]
      exact leads_out_iff hfine hchain htail haligned hend (by omega) j
    | hole a h rest =>
      obtain ⟨m, htakes⟩ := hopened.takes a h rest rfl
      exact absurd htakes (hstep.2 w size env rfl a m)

end

theorem cut_leads_out_iff_firstFile : ∃ (file : File) (s' : State),
    Yields (openFile · Flash.cleared (letter 0x61 ended_a) .create 0 quiet) (some file, s'.flash) ∧
      ∀ j, (∃ x, Visited (cutAfter j Flash.cleared s'.flash) x ∧ getLastAddress ≤ x) ↔ j = 1 := by
  obtain ⟨f₁, hstep, -⟩ := @Listed.add getStartSector [] 0x61 ended_a _
    erased_cleared.listed (by decide) (by simp) 0 (by decide)
  have htail : TailStep _ (.create (letter 0x61 ended_a) 0 quiet) _ :=
    tailStep_of_room erased_cleared.listed (by decide) (by decide) hstep
  generalize hs' : State.mk f₁ _ = s' at hstep htail
  cases hstep with
  | created hint hopen hplace => exact ⟨_, _, hopen, cut_leads_out_iff erased_cleared .nil htail hopen⟩
  | refused hint hopen => simp at hs'

/-! ## A create in a hole -/

/-- Power lost after any operation of a create that takes a hole: each sector of the files is as before, or as
after, or what it is to hold is in the buffer. -/
theorem hole_cut {f : Flash} {calls : List Call} {s s' : State} {w : Name} {size : Int} {env : Env}
    {a m sector : Nat} (herased : Erased f) (hrun : Traces CleanStep ⟨f, []⟩ calls s)
    (hstep : CleanStep s (.create w size env) s') (htakes : TakesHole s.flash.cells w size env a m)
    (hsector : FileSector sector) (j : Nat) :
    Recoverable s.flash.cells s'.flash.cells (cutAfter j s.flash s'.flash) sector := by
  obtain ⟨d, -, hshows⟩ := hrun.alike (fun _ _ _ _ h hstep => step_shows h hstep) (erased_shows herased)
  exact (hstep.holeWritten hshows htakes).recoverable j hsector

theorem hole_cut_wideHole : ∃ s s', Traces CleanStep ⟨Flash.cleared, []⟩
      [.create (letter 0x61 ended_a) 393000 quiet, .unlink (letter 0x61 ended_a) quiet.beyond] s ∧
    CleanStep s (.create nameE 131072 quiet) s' ∧
    ∀ j, Recoverable s.flash.cells s'.flash.cells (cutAfter j s.flash s'.flash) 0x080A0000 := by
  obtain ⟨s, s', hrun, hstep, htakes⟩ := wideHole_taken
  exact ⟨s, s', hrun, hstep, hole_cut erased_cleared hrun hstep htakes (.inr (.inl rfl))⟩

end PasswordManager.FileSystem
