import PasswordManager.FileSystem.Create
import Mathlib.Logic.Relation

/-!
# The file list over a run

Files are created, deleted and written in any order. What is in a file is not the file system's:
it changes in any way, but only between the header and the end of the file.
-/

open Nor

namespace PasswordManager.FileSystem

open FlashDriver Fuel

/-! ## Runs -/

structure State where
  flash : Flash
  /-- The headers that were written, and where. The program does not keep these. -/
  written : List (Nat × Header)

def Place.headers : Place → List (Nat × Header)
  | .newest address header => [(address, header)]
  | .hole address header none => [(address, header)]
  | .hole address header (some rest) => [(address, header), (header.next, rest)]

inductive Visited (c : Cells) : Nat → Prop
  | start : Visited c getStartSector
  | next {a : Nat} (h : Visited c a) (hnext : word c a ≠ fsBlank) : Visited c (word c a)

def LiveFile (c : Cells) (a : Nat) : Prop := Visited c a ∧ word c a ≠ fsBlank ∧ isValid c a = true

inductive Call
  | create (filename : Name) (size : Int) (env : Env)
  | unlink (filename : Name) (beyond : Nat → List Byte)
  | write (address : Nat)

inductive Step (s : State) : Call → State → Prop
  | created {filename : Name} {size : Int} {env : Env} {file : File} {f : Flash} {p : Place}
      (hint : size < 2 ^ 31)
      (hopen : Yields (openFile · s.flash filename .create size env) (some file, f))
      (hplace : Yields (place · s.flash.cells filename size.toNat env) (some p)) :
      Step s (.create filename size env) ⟨f, s.written ++ p.headers⟩
  | refused {filename : Name} {size : Int} {env : Env} {f : Flash} (hint : size < 2 ^ 31)
      (hopen : Yields (openFile · s.flash filename .create size env) (none, f)) :
      Step s (.create filename size env) ⟨f, s.written⟩
  | unlinked {filename : Name} {beyond : Nat → List Byte} {r : Except Errno Unit} {f : Flash}
      (hunlink : Yields (unlink · s.flash filename beyond) (r, f)) :
      Step s (.unlink filename beyond) ⟨f, s.written⟩
  | wrote {a : Nat} {f : Flash} (hlive : LiveFile s.flash.cells a)
      (haccepts : f.accepts = s.flash.accepts)
      (hcells : ∀ x, x < a + sizeofHeader ∨ a + sizeofHeader + (readHeader s.flash.cells a).size ≤ x →
        f.cells x = s.flash.cells x) :
      Step s (.write a) ⟨f, s.written⟩

/-- The merge of holes goes well, and a delete does not take the blank tail for a file. -/
def Careful (c : Cells) : Call → Prop
  | .create filename size env =>
    ∀ a m, TakesHole c filename size env a m → MergesWell c (roundUp size.toNat) a m
  | .unlink filename beyond =>
    ∀ a, Yields (getAddress c filename beyond · getStartSector) a → a ≠ fsBlank → word c a ≠ fsBlank
  | .write _ => True

/-- An erased file area on a chip that takes every operation. -/
def Erased (f : Flash) : Prop :=
  f.Fine ∧ ∀ x, getStartSector ≤ x → x < getBufferSector → f.cells x = blank

def Run (f : Flash) : State → Prop :=
  Relation.ReflTransGen (fun s s' => ∃ call, Step s call s') ⟨f, []⟩

def CarefulRun (f : Flash) : State → Prop :=
  Relation.ReflTransGen (fun s s' => ∃ call, Careful s.flash.cells call ∧ Step s call s') ⟨f, []⟩

theorem CarefulRun.run {f : Flash} {s : State} (hrun : CarefulRun f s) : Run f s :=
  Relation.ReflTransGen.mono (fun _ _ ⟨call, _, hstep⟩ => ⟨call, hstep⟩) _ _ hrun

/-! ## The invariant -/

/-- The headers of the list were all written by the file system. -/
structure Listed (s : State) (hs : List Header) (t : Nat) : Prop where
  fine : s.flash.Fine
  chain : Chain s.flash.cells getStartSector hs t
  tail : Tail s.flash.cells t
  written : ∀ a h, (a, h) ∈ places getStartSector hs → ∃ w, (a, w) ∈ s.written ∧ AsWritten h w

theorem AsWritten.refl (h : Header) : AsWritten h h := ⟨rfl, .inl rfl⟩

section
variable {s s' : State} {hs : List Header} {a t : Nat}

theorem Erased.listed {f : Flash} (h : Erased f) : Listed ⟨f, []⟩ [] getStartSector := by
  refine ⟨h.1, rfl, ⟨⟨Nat.le_refl _, rfl⟩, by decide, h.2⟩, fun a h hmem => by cases hmem⟩

theorem Visited.listed {c : Cells} (h : Visited c a) (hchain : Chain c getStartSector hs t)
    (htail : Tail c t) : a = t ∨ ∃ h, (a, h) ∈ places getStartSector hs := by
  induction h with
  | start =>
    cases hs with
    | nil => exact .inl hchain
    | cons h hs => exact .inr ⟨h, List.mem_cons_self⟩
  | next _ hnext ih =>
    rcases ih with rfl | ⟨h, hmem⟩
    · exact absurd htail.word hnext
    · rw [word_eq_next (hchain.read hmem)]
      exact hchain.mem_next hmem

theorem LiveFile.listed {c : Cells} (h : LiveFile c a) (hchain : Chain c getStartSector hs t)
    (htail : Tail c t) : ∃ h, (a, h) ∈ places getStartSector hs ∧ h.first ≠ 0 := by
  obtain ⟨hvisited, hnext, hvalid⟩ := h
  rcases hvisited.listed hchain htail with rfl | ⟨h, hmem⟩
  · exact absurd htail.word hnext
  · obtain ⟨pre, post, -, -, hat⟩ := hchain.split hmem
    exact ⟨h, hmem, hat.isValid_iff.mp hvalid⟩

theorem Chain.visited {b : Nat} {h : Header} {c : Cells} (hchain : Chain c b hs t) (htail : Tail c t)
    (hb : Visited c b) (hmem : (a, h) ∈ places b hs) : Visited c a := by
  induction hs generalizing b with
  | nil => cases hmem
  | cons h' hs ih =>
    rcases List.mem_cons.mp hmem with heq | hmem
    · cases heq
      exact hb
    · have hrest := hchain.2.2.2.2
      have hword : word c b = h'.next := word_eq_next hchain.2.1
      refine ih hrest ?_ hmem
      rw [← hword]
      exact hb.next (hword ▸ hrest.ne_blank htail)

theorem Chain.liveFile {h : Header} {c : Cells} (hchain : Chain c getStartSector hs t) (htail : Tail c t)
    (hmem : (a, h) ∈ places getStartSector hs) (hfirst : h.first ≠ 0) : LiveFile c a := by
  obtain ⟨pre, post, -, -, hat⟩ := hchain.split hmem
  refine ⟨hchain.visited htail .start hmem, ?_, ?_⟩
  · rw [word_eq_next hat.2.1]
    exact hat.2.2.2.2.ne_blank htail
  · exact hat.isValid_iff.mpr hfirst

theorem unlink_found {f : Flash} {filename : Name} {beyond : Nat → List Byte} (hf : f.Fine)
    (hne : filename.val ≠ []) (hget : Yields (getAddress f.cells filename beyond · getStartSector) a)
    (ha : a ≠ fsBlank) :
    ∃ f', Yields (unlink · f filename beyond) (.ok (), f') ∧ f'.Fine ∧
      f'.cells = burn f.cells (a + 12) [0] := by
  obtain ⟨f', hprogram, hcells, hf'⟩ := did_programByte hf (a + 12) 0
  refine ⟨f', ?_, hf', hcells⟩
  unfold unlink
  simp only [if_neg hne]
  refine hget.bind ?_
  have haddress : a + sizeofHeader - fsFileNameMaxLenght = a + 12 := rfl
  simp only [if_neg ha, haddress, hprogram]
  exact .pure _

theorem unlink_yields {f : Flash} {filename : Name} {beyond : Nat → List Byte} (hf : f.Fine)
    (hchain : Chain f.cells getStartSector hs t) (htail : Tail f.cells t)
    (hcareful : Careful f.cells (.unlink filename beyond)) :
    Yields (unlink · f filename beyond) (.error .ENOENT, f) ∨
      ∃ a h f', Yields (getAddress f.cells filename beyond · getStartSector) a ∧
        (a, h) ∈ places getStartSector hs ∧ Yields (unlink · f filename beyond) (.ok (), f') ∧
        f'.Fine ∧ f'.cells = burn f.cells (a + 12) [0] := by
  by_cases hempty : filename.val = []
  · simp only [unlink, if_pos hempty]
    exact .inl (.pure _)
  have hget := getAddress_yields filename beyond hchain htail
  cases hlookup : lookup f.cells filename beyond (stops getStartSector hs t) with
  | none =>
    rw [hlookup] at hget
    simp only [unlink, if_neg hempty]
    refine .inl (hget.bind ?_)
    simp only [Option.getD_none, if_true]
    exact .pure _
  | some a =>
    rw [hlookup, Option.getD_some] at hget
    have hstop := List.mem_of_find?_eq_some hlookup
    have hne := hchain.stop_ne_blank htail hstop
    have hword := hcareful a hget hne
    obtain ⟨h, hmem⟩ : ∃ h, (a, h) ∈ places getStartSector hs := by
      rcases List.mem_append.mp hstop with hmem | hmem
      · obtain ⟨⟨x, h⟩, hplace, rfl⟩ := List.mem_map.mp hmem
        exact ⟨h, hplace⟩
      · rw [List.mem_singleton.mp hmem] at hword
        exact absurd htail.word hword
    obtain ⟨f', hyields, hf', hcells⟩ := unlink_found hf hempty hget hne
    exact .inr ⟨a, h, f', hget, hmem, hyields, hf', hcells⟩

theorem Listed.created {f : Flash} {p : Place} {hs' : List Header} {t' : Nat} (hlisted : Listed s hs t)
    (hf : f.Fine) (hplaced : Placed s.flash.cells hs t p f.cells hs' t') :
    Listed ⟨f, s.written ++ p.headers⟩ hs' t' := by
  obtain ⟨hchain, htail⟩ := hplaced.list hlisted.chain hlisted.tail
  have hold : ∀ a h, (a, h) ∈ places getStartSector hs →
      ∃ w, (a, w) ∈ s.written ++ p.headers ∧ AsWritten h w := by
    intro a h hmem
    obtain ⟨w, hw, has⟩ := hlisted.written a h hmem
    exact ⟨w, List.mem_append_left _ hw, has⟩
  refine ⟨hf, hchain, htail, fun a h hmem => ?_⟩
  cases hplaced with
  | @newest hd _ hcells hnext hlast hspace =>
    rw [places_append hlisted.chain] at hmem
    rcases List.mem_append.mp hmem with hmem | hmem
    · exact hold a h hmem
    · cases List.mem_singleton.mp hmem
      exact ⟨h, by simp [Place.headers], .refl h⟩
  | @hole pre run post x m hd rest _ hsplit hpre hholes hpost hfit hfilled =>
    have hlist := hlisted.chain
    rw [hsplit] at hlist hold
    rw [places_append hpre, places_append hholes.chain] at hold
    have hpre' : Chain f.cells getStartSector pre x := hpre.congr fun y _ hy => by
      have hlast := hfit.bounds.1
      rw [getLastAddress_val] at hlast
      exact (hfilled.outside y (by omega) (.inl hy)).symm
    rw [places_append hpre', places_append (hfilled.chain hfit)] at hmem
    rcases List.mem_append.mp hmem with hmem | hmem
    · exact hold a h (List.mem_append_left _ hmem)
    rcases List.mem_append.mp hmem with hmem | hmem
    · cases rest with
      | none =>
        cases List.mem_singleton.mp hmem
        exact ⟨hd, by simp [Place.headers], hfilled.asWritten hfit⟩
      | some r =>
        have hwritten := hfilled.asWritten hfit
        simp only [filling, places, hwritten.next, List.mem_cons, List.not_mem_nil, or_false] at hmem
        rcases hmem with heq | heq <;> cases heq
        · exact ⟨hd, by simp [Place.headers], hwritten⟩
        · exact ⟨r, by simp [Place.headers], hfilled.asWritten_other hfit⟩
    · exact hold a h (List.mem_append_right _ (List.mem_append_right _ hmem))

theorem Listed.replaced {f : Flash} {pre post : List Header} {h h' : Header}
    (hlisted : Listed s (pre ++ h :: post) t) (hf : f.Fine)
    (hpre : Chain s.flash.cells getStartSector pre a) (hpre' : Chain f.cells getStartSector pre a)
    (hpost : Chain f.cells a (h' :: post) t) (htail : Tail f.cells t) (hnext : h'.next = h.next)
    (has : ∀ w, AsWritten h w → AsWritten h' w) :
    Listed ⟨f, s.written⟩ (pre ++ h' :: post) t := by
  refine ⟨hf, hpre'.append hpost, htail, fun x hd hmem => ?_⟩
  have hold := hlisted.written
  rw [places_append hpre] at hold
  rw [places_append hpre'] at hmem
  rcases List.mem_append.mp hmem with hmem | hmem
  · exact hold x hd (List.mem_append_left _ hmem)
  rcases List.mem_cons.mp hmem with heq | hmem
  · cases heq
    obtain ⟨w, hw, hwas⟩ := hold a h (List.mem_append_right _ List.mem_cons_self)
    exact ⟨w, hw, has w hwas⟩
  · rw [hnext] at hmem
    exact hold x hd (List.mem_append_right _ (List.mem_cons_of_mem _ hmem))

/-- What a careful step does to the list. -/
inductive Effect (s : State) (hs : List Header) (t : Nat) : Call → State → List Header → Nat → Prop
  | same (call : Call) : Effect s hs t call s hs t
  | created {filename : Name} {size : Int} {env : Env} {file : File} {p : Place} {f : Flash}
      {hs' : List Header} {t' : Nat} (hf : f.Fine)
      (hopened : Opened s.flash.cells hs t filename size env file p f.cells hs' t') :
      Effect s hs t (.create filename size env) ⟨f, s.written ++ p.headers⟩ hs' t'
  | deleted {filename : Name} {beyond : Nat → List Byte} {pre post : List Header} {a : Nat} {h : Header}
      {f : Flash} (hf : f.Fine) (hsplit : hs = pre ++ h :: post)
      (hget : Yields (getAddress s.flash.cells filename beyond · getStartSector) a)
      (hpre : Chain s.flash.cells getStartSector pre a) (hat : Chain s.flash.cells a (h :: post) t)
      (hcells : f.cells = burn s.flash.cells (a + 12) [0]) :
      Effect s hs t (.unlink filename beyond) ⟨f, s.written⟩ (pre ++ readHeader f.cells a :: post) t
  | wrote {pre post : List Header} {a : Nat} {h : Header} {f : Flash} (hf : f.Fine)
      (hsplit : hs = pre ++ h :: post) (hpre : Chain s.flash.cells getStartSector pre a)
      (hat : Chain s.flash.cells a (h :: post) t) (hlive : h.first ≠ 0)
      (hcells : ∀ x, x < a + 36 ∨ a + 36 + h.size ≤ x → f.cells x = s.flash.cells x) :
      Effect s hs t (.write a) ⟨f, s.written⟩ hs t

theorem Listed.effect {call : Call} (hlisted : Listed s hs t) (hcareful : Careful s.flash.cells call)
    (hstep : Step s call s') : ∃ hs' t', Effect s hs t call s' hs' t' := by
  obtain ⟨hfine, hchain, htail, -⟩ := hlisted
  cases hstep with
  | created hint hopen hplace =>
    rcases create_yields hfine hchain htail hint hcareful with
      hnone | ⟨file, f', p', hs', t', hyes, hf', hopened⟩
    · cases hopen.unique hnone
    · cases hopen.unique hyes
      cases hplace.unique hopened.place
      exact ⟨hs', t', .created hf' hopened⟩
  | refused hint hopen =>
    rcases create_yields hfine hchain htail hint hcareful with hnone | ⟨file, f', p', hs', t', hyes, -⟩
    · cases hopen.unique hnone
      exact ⟨hs, t, .same _⟩
    · cases hopen.unique hyes
  | unlinked hunlink =>
    rcases unlink_yields hfine hchain htail hcareful with hnone | ⟨a, h, f', hget, hmem, hyes, hf', hcells⟩
    · cases hunlink.unique hnone
      exact ⟨hs, t, .same _⟩
    · cases hunlink.unique hyes
      obtain ⟨pre, post, hsplit, hpre, hat⟩ := hchain.split hmem
      exact ⟨_, t, .deleted hf' hsplit hget hpre hat hcells⟩
  | wrote hlive haccepts hcells =>
    obtain ⟨h, hmem, hfirst⟩ := hlive.listed hchain htail
    obtain ⟨pre, post, hsplit, hpre, hat⟩ := hchain.split hmem
    refine ⟨hs, t, .wrote (fun i => ?_) hsplit hpre hat hfirst ?_⟩
    · rw [haccepts]
      exact hfine i
    · rw [hat.2.1] at hcells
      exact hcells

theorem Effect.listed {call : Call} {hs' : List Header} {t' : Nat} (hlisted : Listed s hs t)
    (heffect : Effect s hs t call s' hs' t') : Listed s' hs' t' := by
  cases heffect with
  | same => exact hlisted
  | created hf hopened => exact hlisted.created hf hopened.placed
  | @deleted filename beyond pre post a h f hf hsplit hget hpre hat hcells =>
    subst hsplit
    obtain ⟨hat', hread, hfirst⟩ := hat.erased
    rw [← hcells] at hat' hread hfirst
    have hlast := hlisted.tail.lt_last
    have hle := hat.add_le
    have hout : ∀ x, x ≠ a + 12 → s.flash.cells x = f.cells x := fun x hx => by
      rw [hcells, burn_outside (by simp only [List.length_singleton]; omega)]
    refine hlisted.replaced hf hpre (hpre.congr fun x _ hx => hout x (by omega)) hat'
      (hlisted.tail.congr fun x hx _ => hout x (by omega)) (by rw [hread]) fun w hw => ⟨?_, .inr hfirst⟩
    rw [hread, hw.1]
  | @wrote pre post a h f hf hsplit hpre hat hlive hcells =>
    subst hsplit
    have hroom := hat.2.2.2.1 hlive
    have hrest := hat.2.2.2.2.le
    exact hlisted.replaced hf hpre (hpre.congr fun x _ hx => (hcells x (.inl (by omega))).symm)
      (hat.written hlive hcells) (hlisted.tail.congr fun x hx _ => (hcells x (.inr (by omega))).symm) rfl
      fun _ => id

theorem CarefulRun.listed {f : Flash} (herased : Erased f) (hrun : CarefulRun f s) :
    ∃ hs t, Listed s hs t := by
  induction hrun with
  | refl => exact ⟨[], getStartSector, herased.listed⟩
  | tail _ hstep ih =>
    obtain ⟨hs, t, hlisted⟩ := ih
    obtain ⟨call, hcareful, hstep⟩ := hstep
    obtain ⟨hs', t', heffect⟩ := hlisted.effect hcareful hstep
    exact ⟨hs', t', heffect.listed hlisted⟩

end

end PasswordManager.FileSystem
