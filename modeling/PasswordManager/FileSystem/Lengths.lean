import PasswordManager.FileSystem.WellFormed

/-!
# The lengths of the records

A create reserves a length that it computes with 32 bits. What is left of a run of holes is either
nothing or has room for a header.
-/

open Nor

namespace PasswordManager.FileSystem

open FlashDriver Fuel

/-! ## The computation -/

/-- `newHeader.next` as `open` computes it. -/
def reserved (size : BitVec 32) : BitVec 32 := 36 * ((size + 36 - 1) / 36) + 2 * 36

theorem reserved_eq {size : Int} (h0 : 0 ≤ size) (h31 : size < 2 ^ 31) :
    (reserved (BitVec.ofInt 32 size)).toNat = roundUp size.toNat := by
  have hsize : (BitVec.ofInt 32 size).toNat = size.toNat := by
    rw [BitVec.toNat_ofInt]
    omega
  unfold reserved roundUp sizeofHeader
  simp only [BitVec.toNat_add, BitVec.toNat_sub, BitVec.toNat_mul, BitVec.toNat_udiv, hsize,
    BitVec.reduceToNat]
  omega

/-! ## Lengths -/

/-- The length of a record that a create reserves, or that it leaves of holes of such lengths. -/
inductive Produced : Nat → Prop
  | create {size : Nat} (hint : size < 2 ^ 31) : Produced (roundUp size)
  | rest {lens : List Nat} {size : Nat} (hlens : ∀ n ∈ lens, Produced n) (hint : size < 2 ^ 31)
      (hless : roundUp size < lens.sum) : Produced (lens.sum - roundUp size)

theorem sum_mod {lens : List Nat} (h : ∀ n ∈ lens, n % 36 = 0) : lens.sum % 36 = 0 := by
  induction lens with
  | nil => rfl
  | cons n lens ih =>
    have hn := h n List.mem_cons_self
    have hrest := ih fun n' hn' => h n' (List.mem_cons_of_mem _ hn')
    rw [List.sum_cons]
    omega

theorem Produced.bounds {n : Nat} (h : Produced n) : n % 36 = 0 ∧ 36 ≤ n := by
  induction h with
  | @create size hint =>
    have hround := roundUp_bounds size
    omega
  | @rest lens size hlens hint hless ih =>
    have hround := (roundUp_bounds size).1
    have hsum := sum_mod fun n hn => (ih n hn).1
    omega

def lengths : Nat → List Header → List Nat
  | _, [] => []
  | a, h :: hs => (h.next - a) :: lengths h.next hs

/-- A chain whose headers may stand anywhere. -/
def Linked (c : Cells) : Nat → List Header → Nat → Prop
  | a, [], b => a = b
  | a, h :: hs, b => readHeader c a = h ∧ a + 36 ≤ h.next ∧
      (h.first ≠ 0 → a + 72 + h.size ≤ h.next) ∧ Linked c h.next hs b

/-- The whole list, with records of lengths that come from creates and from what they leave. -/
structure ProducedList (c : Cells) (hs : List Header) (t : Nat) : Prop where
  linked : Linked c getStartSector hs t
  produced : ∀ n ∈ lengths getStartSector hs, Produced n
  lt_last : t < getLastAddress
  blank : ∀ x, t ≤ x → x < 0x080E0000 → c x = blank

section
variable {c : Cells} {a b m t : Nat} {hs hs' : List Header}

theorem Linked.chain (hlinked : Linked c a hs b) (ha : Aligned a)
    (hlens : ∀ n ∈ lengths a hs, Produced n) : Chain c a hs b ∧ Aligned b := by
  induction hs generalizing a with
  | nil =>
    obtain rfl : a = b := hlinked
    exact ⟨rfl, ha⟩
  | cons h hs ih =>
    obtain ⟨hread, hnext, hsize, hrest⟩ := hlinked
    have hn := (hlens (h.next - a) List.mem_cons_self).bounds
    have hnext' : Aligned h.next := by
      rw [show h.next = a + (h.next - a) by omega]
      exact ha.add hn.1
    obtain ⟨hchain, hb⟩ := ih hrest hnext' fun n' hn' => hlens n' (List.mem_cons_of_mem _ hn')
    exact ⟨⟨ha, hread, hnext, hsize, hchain⟩, hb⟩

theorem Chain.linked (hchain : Chain c a hs b) : Linked c a hs b := by
  induction hs generalizing a with
  | nil => exact hchain
  | cons h hs ih =>
    obtain ⟨-, hread, hnext, hsize, hrest⟩ := hchain
    exact ⟨hread, hnext, hsize, ih hrest⟩

theorem ProducedList.chain (hlist : ProducedList c hs t) : Chain c getStartSector hs t ∧ Tail c t := by
  obtain ⟨hchain, ht⟩ := hlist.linked.chain ⟨Nat.le_refl _, rfl⟩ hlist.produced
  exact ⟨hchain, ht, hlist.lt_last, hlist.blank⟩

theorem lengths_append (hchain : Chain c a hs m) (hs' : List Header) :
    lengths a (hs ++ hs') = lengths a hs ++ lengths m hs' := by
  induction hs generalizing a with
  | nil =>
    obtain rfl : a = m := hchain
    rfl
  | cons h hs ih =>
    rw [List.cons_append, lengths, lengths, ih hchain.2.2.2.2]
    rfl

theorem sum_lengths (hchain : Chain c a hs m) : (lengths a hs).sum = m - a := by
  induction hs generalizing a with
  | nil =>
    obtain rfl : a = m := hchain
    exact (Nat.sub_self a).symm
  | cons h hs ih =>
    have hnext := hchain.2.2.1
    have hle := hchain.2.2.2.2.le
    rw [lengths, List.sum_cons, ih hchain.2.2.2.2]
    omega

theorem ProducedList.rest (hlist : ProducedList c hs t) {size random x m : Nat}
    (hchosen : Yields (chooseHole · c (roundUp size) random) (some (x, m))) :
    minus m x = m - x ∧ roundUp size ≤ m - x ∧ (m - x) % 36 = 0 := by
  obtain ⟨hchain, htail⟩ := hlist.chain
  obtain ⟨chosen, hyields, hgap, -⟩ := chooseHole_yields (roundUp size) hchain htail random
  cases hchosen.unique hyields
  obtain ⟨pre, run, post, rfl, hpre, hholes, hpost, hroom⟩ := hgap x m rfl
  have hle := hholes.chain.le
  have hx : Aligned x := hholes.chain.aligned (hpost.aligned htail.aligned)
  have hm : Aligned m := hpost.aligned htail.aligned
  have hlast := hpost.lt_end htail
  refine ⟨minus_of_le hle (by omega), hroom, ?_⟩
  unfold Aligned at hx hm
  omega

/-! ## Runs -/

theorem lengths_replace {h h' : Header} (hnext : h'.next = h.next) (pre post : List Header) (a : Nat) :
    lengths a (pre ++ h' :: post) = lengths a (pre ++ h :: post) := by
  induction pre generalizing a with
  | nil => rw [List.nil_append, List.nil_append, lengths, lengths, hnext]
  | cons h₁ pre ih => rw [List.cons_append, List.cons_append, lengths, lengths, ih]

theorem Placed.produced {filename : Name} {size : Nat} {env : Env} {p : Place} {c' : Cells} {t' : Nat}
    (hchain : Chain c getStartSector hs t) (hint : size < 2 ^ 31)
    (hplanned : Planned c hs t filename size env p) (hplaced : Placed c hs t p c' hs' t')
    (hlens : ∀ n ∈ lengths getStartSector hs, Produced n) :
    ∀ n ∈ lengths getStartSector hs', Produced n := by
  intro n hn
  cases hplanned with
  | newest hroom =>
    cases hplaced with
    | newest hcells hnext hlast hspace =>
      rw [lengths_append hchain] at hn
      rcases List.mem_append.mp hn with hn | hn
      · exact hlens n hn
      · rw [List.mem_singleton.mp hn, newHeader, Nat.add_sub_cancel_left]
        exact .create hint
  | @hole a m hgap hfull hchosen =>
    cases hplaced with
    | @hole pre run post _ m' _ _ _ hsplit hpre hholes hpost hfit hfilled =>
      rw [hsplit, lengths_append hpre, lengths_append hholes.chain] at hlens
      rw [lengths_append hpre, lengths_append (hfilled.chain hfit)] at hn
      have hwritten := hfilled.asWritten hfit
      have hfirst : (newHeader filename size (a + roundUp size)).next - a = roundUp size := by
        rw [newHeader, Nat.add_sub_cancel_left]
      rcases List.mem_append.mp hn with hn | hn
      · exact hlens n (List.mem_append_left _ hn)
      rcases List.mem_append.mp hn with hn | hn
      swap
      · exact hlens n (List.mem_append_right _ (List.mem_append_right _ hn))
      split at hfit
      next hexact =>
        rw [if_pos hexact] at hn
        rw [List.mem_singleton.mp hn, hwritten.next, hfirst]
        exact .create hint
      next hmore =>
        rw [if_neg hmore] at hn hfilled
        rcases List.mem_cons.mp hn with heq | hn
        · rw [heq, hwritten.next, hfirst]
          exact .create hint
        · obtain ⟨hstop, hless, -⟩ := hfit.some _ rfl
          have hother := hfilled.asWritten_other hfit
          have hsum := sum_lengths hholes.chain
          have hle := hholes.chain.le
          rw [List.mem_singleton.mp hn, hother.next, hwritten.next, hstop]
          change a + roundUp size < m' at hless
          change Produced (m' - (a + roundUp size))
          rw [show m' - (a + roundUp size) = (lengths a run).sum - roundUp size by omega]
          refine .rest (fun n' hn' => ?_) hint (by omega)
          exact hlens n' (List.mem_append_right _ (List.mem_append_left _ hn'))

theorem openFile_valid {f f' : Flash} {filename : Name} {size : Int} {env : Env} {file : File}
    (hopen : Yields (openFile · f filename .create size env) (some file, f')) : 0 ≤ size := by
  by_contra hneg
  have hnone : Yields (openFile · f filename .create size env) (none, f) := by
    unfold openFile
    simp only [if_pos (Int.not_le.mp hneg), ite_self]
    exact .pure _
  cases hopen.unique hnone

/-- A delete or a write leaves the lengths as they are. -/
theorem Effect.lengths {s s' : State} {call : Call} {t' : Nat}
    (heffect : Effect s hs t call s' hs' t')
    (hcall : ∀ filename size env, call ≠ .create filename size env) :
    FileSystem.lengths getStartSector hs' = FileSystem.lengths getStartSector hs := by
  cases heffect with
  | same => rfl
  | created => exact absurd rfl (hcall _ _ _)
  | @deleted _ _ pre post a h f hf hsplit hget hpre hat hcells =>
    obtain ⟨-, hread, -⟩ := hat.erased
    have hnext : (readHeader f.cells a).next = h.next := by rw [hcells, hread]
    rw [hsplit]
    exact lengths_replace hnext pre post getStartSector
  | wrote => rfl

theorem Listed.produced {s s' : State} {call : Call} (hlisted : Listed s hs t)
    (hlens : ∀ n ∈ lengths getStartSector hs, Produced n) (hcareful : Careful s.flash.cells call)
    (hstep : Step s call s') :
    ∃ hs' t', Listed s' hs' t' ∧ ∀ n ∈ lengths getStartSector hs', Produced n := by
  have hchain := hlisted.chain
  have htail := hlisted.tail
  cases hstep with
  | @created filename size env file f p hint hopen hplace =>
    rcases create_yields hlisted.fine hchain htail hint hcareful with
      hnone | ⟨file', f', p', hs', t', hyes, hf', hopened⟩
    · cases hopen.unique hnone
    cases hopen.unique hyes
    cases hplace.unique hopened.place
    obtain ⟨p', hplace', hplanned⟩ := place_yields env hchain htail (show size.toNat < 2 ^ 31 by omega)
      fun a m habsent hfull hchosen => hcareful a m ⟨hopened.short, hopened.named, openFile_valid hopen,
        habsent, ⟨t, newest_yields hchain htail, hfull⟩, hchosen⟩
    cases hplace.unique hplace'
    exact ⟨hs', t', hlisted.created hf' hopened.placed, hopened.placed.produced hchain (by omega)
      (hplanned p rfl).2 hlens⟩
  | refused hint hopen =>
    rcases create_yields hlisted.fine hchain htail hint hcareful with hnone | ⟨file, f', p, hs', t', hyes, -⟩
    · cases hopen.unique hnone
      exact ⟨hs, t, hlisted, hlens⟩
    · cases hopen.unique hyes
  | unlinked hunlink =>
    obtain ⟨hs', t', heffect⟩ := hlisted.effect hcareful (.unlinked hunlink)
    refine ⟨hs', t', heffect.listed hlisted, ?_⟩
    rw [heffect.lengths fun _ _ _ => Call.noConfusion]
    exact hlens
  | wrote hlive haccepts hcells =>
    obtain ⟨hs', t', heffect⟩ := hlisted.effect hcareful (.wrote hlive haccepts hcells)
    refine ⟨hs', t', heffect.listed hlisted, ?_⟩
    rw [heffect.lengths fun _ _ _ => Call.noConfusion]
    exact hlens

theorem CarefulRun.produced {f : Flash} {s : State} (herased : Erased f) (hrun : CarefulRun f s) :
    ∃ hs t, Listed s hs t ∧ ∀ n ∈ lengths getStartSector hs, Produced n := by
  induction hrun with
  | refl => exact ⟨[], getStartSector, herased.listed, fun n hn => by cases hn⟩
  | tail _ hstep ih =>
    obtain ⟨hs, t, hlisted, hlens⟩ := ih
    obtain ⟨call, hcareful, hstep⟩ := hstep
    exact hlisted.produced hlens hcareful hstep

theorem Listed.producedList {s : State} (hlisted : Listed s hs t)
    (hlens : ∀ n ∈ lengths getStartSector hs, Produced n) : ProducedList s.flash.cells hs t where
  linked := hlisted.chain.linked
  produced := hlens
  lt_last := hlisted.tail.lt_last
  blank := hlisted.tail.blank

/-- The computation of a length does not wrap. Where all lengths come from creates and from what
they leave, a hole that is used again has no rest or one with room for a header, and so it goes on
over a run. -/
theorem lengths_fit :
    (∀ (size : Int) (address : BitVec 32), 0 ≤ size → size < 2 ^ 31 → address.toNat < getBufferSector →
      (reserved (BitVec.ofInt 32 size)).toNat = 36 * ((size.toNat + 35) / 36) + 72 ∧
      (reserved (BitVec.ofInt 32 size) + address).toNat =
        36 * ((size.toNat + 35) / 36) + 72 + address.toNat ∧
      (reserved (BitVec.ofInt 32 size)).toNat % 36 = 0 ∧
      size.toNat + 72 ≤ (reserved (BitVec.ofInt 32 size)).toNat) ∧
    (∀ c hs t, ProducedList c hs t →
      (∀ n ∈ lengths getStartSector hs, n % 36 = 0) ∧
      ∀ size random x m, size < 2 ^ 31 →
        Yields (chooseHole · c (roundUp size) random) (some (x, m)) →
        roundUp size ≤ minus m x ∧ (minus m x - roundUp size = 0 ∨
          (minus m x - roundUp size) % 36 = 0 ∧ 36 ≤ minus m x - roundUp size)) ∧
    ∀ f s, Erased f → CarefulRun f s → ∃ hs t, ProducedList s.flash.cells hs t := by
  refine ⟨fun size address h0 h31 haddress => ?_, fun c hs t hlist => ⟨fun n hn => ?_, ?_⟩,
    fun f s herased hrun => ?_⟩
  · have hround := roundUp_bounds size.toNat
    have hlen : roundUp size.toNat = 36 * ((size.toNat + 35) / 36) + 72 := rfl
    rw [getBufferSector_val] at haddress
    rw [BitVec.toNat_add, reserved_eq h0 h31, hlen]
    rw [hlen] at hround
    omega
  · exact (hlist.produced n hn).bounds.1
  · intro size random x m hint hchosen
    obtain ⟨hminus, hroom, hmod⟩ := hlist.rest hchosen
    have hround := (roundUp_bounds size).1
    rw [hminus]
    omega
  · obtain ⟨hs, t, hlisted, hlens⟩ := hrun.produced herased
    exact ⟨hs, t, hlisted.producedList hlens⟩

end

/-- A file of 131072 bytes in the hole that one of 393000 bytes left. -/
theorem lengths_fit_wideHole : (reserved (BitVec.ofInt 32 131072)).toNat = 131148 ∧
    ∃ s hs t x m, CarefulRun Flash.cleared s ∧ ProducedList s.flash.cells hs t ∧
      Yields (chooseHole · s.flash.cells (roundUp 131072) 0) (some (x, m)) ∧
      minus m x - roundUp 131072 = 261936 ∧ (minus m x - roundUp 131072) % 36 = 0 := by
  obtain ⟨s, h, hrun, hlisted, -, hhole, -⟩ := wideHole
  obtain ⟨hcomputed, hfits, hruns⟩ := lengths_fit
  obtain ⟨hs, t, hlist⟩ := hruns _ s erased_cleared hrun
  have hchosen := (@chooseHole_one _ _ (roundUp 131072) _ hlisted.chain hlisted.tail hhole (by decide) 0).2
  obtain ⟨-, hzero | ⟨hmod, -⟩⟩ := (hfits _ _ _ hlist).2 131072 0 _ _ (by decide) hchosen
  · exact absurd hzero (by decide)
  · exact ⟨(hcomputed 131072 (0x08080000 : BitVec 32) (by decide) (by decide) (by decide)).1, s, hs, t, _, _,
      hrun, hlist, hchosen, rfl, hmod⟩

end PasswordManager.FileSystem
