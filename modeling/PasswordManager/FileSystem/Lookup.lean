import PasswordManager.FileSystem.Others

/-!
# Which names are found

`open`, `lstat` and `unlink` look for a name in the same way but check it differently before. What
they find is compared with the files that the list holds.
-/

open Nor

namespace PasswordManager.FileSystem

open FlashDriver Fuel CString

/-! ## Names in the list -/

/-- The name in the header, up to its end. -/
def Carries (w : Name) (h : Header) : Prop := str 0 h.filename.val = w.val

instance (w : Name) : DecidablePred (Carries w) := fun _ => inferInstanceAs (Decidable (_ = _))

/-- A file with that name, not a deleted one. -/
def HasFile (hs : List Header) (w : Name) : Prop := ∃ h ∈ hs, h.first ≠ 0 ∧ Carries w h

/-- The blank tail is taken for a file: its name has no end, and the memory behind `header` ends it. -/
def TailNamed (w : Name) (beyond : List Byte) : Prop :=
  w.val = List.replicate 24 blank ∧ beyond.head? = some 0

section
variable {c : Cells} {a t : Nat} {w : Name} {h : Header} {hs : List Header}

theorem carries_of_strcmp {beyond : List Byte} (hlen : w.val.length ≤ 24)
    (heq : strcmp w (h.filename.val ++ beyond) = true) : Carries w h := by
  rcases Nat.lt_or_eq_of_le hlen with hlt | hfull
  · exact (Header.Named.of_strcmp hlt heq).str
  · have hprefix : w.val <+: h.filename.val :=
      List.prefix_of_prefix_length_le ((List.prefix_append _ _).trans (strcmp_iff.mp heq))
        (List.prefix_append _ _) (by rw [hfull, h.filename.property])
    have hname : w.val = h.filename.val := hprefix.eq_of_length (by rw [hfull, h.filename.property])
    unfold Carries
    rw [← hname]
    exact str_eq_self w.property

theorem Carries.named (hcarries : Carries w h) (hlen : w.val.length < 24) : h.Named w := by
  have hend : (0 : Byte) ∈ h.filename.val := by
    by_contra hnone
    have hself := (str_eq_self hnone).symm.trans hcarries
    have hlength := h.filename.property
    rw [hself] at hlength
    omega
  have hsplit := eq_str_append hend
  rw [show str 0 h.filename.val = w.val from hcarries] at hsplit
  refine strcmp_iff.mpr ⟨h.filename.val.drop (strlen 0 h.filename.val + 1), ?_⟩
  rw [List.append_assoc, List.singleton_append]
  exact hsplit.symm

theorem carries_nil_iff (hw : w.val = []) : Carries w h ↔ h.first = 0 := by
  constructor
  · intro hcarries
    exact (hcarries.named (by rw [hw]; decide)).first hw
  · intro hfirst
    unfold Carries
    have hlen := h.filename.property
    rw [Header.first] at hfirst
    cases hname : h.filename.val with
    | nil => rw [hname] at hlen; cases hlen
    | cons b l =>
      rw [hname, List.headD_cons] at hfirst
      rw [hfirst, hw]
      simp [CString.str]

theorem Carries.first (hcarries : Carries w h) (hw : w.val ≠ []) : h.first ≠ 0 := by
  intro hfirst
  have hnil : str 0 h.filename.val = [] :=
    (carries_nil_iff (w := ⟨[], List.not_mem_nil⟩) rfl).mpr hfirst
  exact hw (hcarries.symm.trans hnil)

theorem hasFile_iff (hw : w.val ≠ []) : HasFile hs w ↔ ∃ h ∈ hs, Carries w h := by
  constructor
  · rintro ⟨h, hmem, -, hcarries⟩
    exact ⟨h, hmem, hcarries⟩
  · rintro ⟨h, hmem, hcarries⟩
    exact ⟨h, hmem, hcarries.first hw, hcarries⟩

theorem not_hasFile_nil (hw : w.val = []) : ¬ HasFile hs w := by
  rintro ⟨h, -, hfirst, hcarries⟩
  exact hfirst ((carries_nil_iff hw).mp hcarries)

/-! ## What a walk finds -/

theorem strcmp_tail_iff (htail : Tail c t) (hlen : w.val.length ≤ 24) (beyond : List Byte) :
    strcmp w ((readHeader c t).filename.val ++ beyond) = true ↔ TailNamed w beyond := by
  have hname : (readHeader c t).filename.val = List.replicate 24 blank := by
    have hlast := htail.lt_end
    refine List.ext_getElem (by simp [readHeader]) fun k hk hk' => ?_
    rw [List.length_replicate] at hk'
    simp only [readHeader, getElem_read, List.getElem_replicate]
    exact htail.blank _ (by omega) (by omega)
  have hself : str 0 (List.replicate 24 (blank : Byte)) = List.replicate 24 blank := str_eq_self (by decide)
  constructor
  · intro heq
    have hcarries : Carries w (readHeader c t) := carries_of_strcmp hlen heq
    unfold Carries at hcarries
    rw [hname, hself] at hcarries
    rw [hname, strcmp_iff, ← hcarries, List.prefix_append_right_inj] at heq
    obtain ⟨rest, rfl⟩ := heq
    exact ⟨hcarries.symm, rfl⟩
  · rintro ⟨hw, hhead⟩
    rw [hname, strcmp_iff, hw, List.prefix_append_right_inj]
    cases beyond with
    | nil => cases hhead
    | cons b rest =>
      obtain rfl := Option.some.inj hhead
      exact ⟨rest, rfl⟩

variable (beyond : Nat → List Byte)

theorem carries_of_lookup (hchain : Chain c getStartSector hs t) (htail : Tail c t)
    (hlen : w.val.length ≤ 24)
    (hsome : (lookup c w beyond (stops getStartSector hs t)).isSome = true) :
    (∃ h ∈ hs, Carries w h) ∨ TailNamed w (beyond t) := by
  rw [lookup, List.find?_isSome] at hsome
  obtain ⟨x, hx, heq⟩ := hsome
  rcases List.mem_append.mp hx with hx | hx
  · obtain ⟨⟨x, h⟩, hmem, rfl⟩ := List.mem_map.mp hx
    rw [hchain.read hmem] at heq
    exact .inl ⟨h, mem_of_mem_places hmem, carries_of_strcmp hlen heq⟩
  · obtain rfl := List.mem_singleton.mp hx
    exact .inr ((strcmp_tail_iff htail hlen _).mp heq)

theorem lookup_isSome_iff (hchain : Chain c getStartSector hs t) (htail : Tail c t)
    (hnames : ∀ h ∈ hs, (str 0 h.filename.val).length ≤ 23) (hlen : w.val.length ≤ 24) :
    (lookup c w beyond (stops getStartSector hs t)).isSome = true ↔
      (∃ h ∈ hs, Carries w h) ∨ TailNamed w (beyond t) := by
  refine ⟨carries_of_lookup beyond hchain htail hlen, ?_⟩
  rw [lookup, List.find?_isSome]
  rintro (⟨h, hmem, hcarries⟩ | htailNamed)
  · obtain ⟨x, hx⟩ := mem_places_of_mem getStartSector hmem
    refine ⟨x, List.mem_append_left _ (List.mem_map.mpr ⟨_, hx, rfl⟩), ?_⟩
    have hshort := hnames h hmem
    rw [hcarries] at hshort
    rw [hchain.read hx]
    exact (hcarries.named (by omega)).strcmp _
  · exact ⟨t, List.mem_append_right _ (List.mem_singleton.mpr rfl),
      (strcmp_tail_iff htail hlen _).mpr htailNamed⟩

/-- The walk ends at the file, or with `FS_BLANK`. -/
theorem getAddress_ends (hchain : Chain c getStartSector hs t) (htail : Tail c t) (w : Name) :
    (∃ a, lookup c w beyond (stops getStartSector hs t) = some a ∧ a ≠ fsBlank ∧
      Yields (getAddress c w beyond · getStartSector) a) ∨
    lookup c w beyond (stops getStartSector hs t) = none ∧
      Yields (getAddress c w beyond · getStartSector) fsBlank := by
  have hget := getAddress_yields w beyond hchain htail
  cases hlookup : lookup c w beyond (stops getStartSector hs t) with
  | none =>
    rw [hlookup] at hget
    exact .inr ⟨rfl, hget⟩
  | some a =>
    rw [hlookup] at hget
    exact .inl ⟨a, rfl, hchain.stop_ne_blank htail (List.mem_of_find?_eq_some hlookup), hget⟩

end

/-! ## The three calls -/

section
variable {f : Flash} {a t : Nat} {w : Name} {hs : List Header}

theorem openFile_read (hlen : w.val.length ≤ 24) (hempty : w.val ≠ []) {size : Int} (hsize : 0 ≤ size)
    {env : Env} (hget : Yields (getAddress f.cells w env.beyond · getStartSector) a) :
    Yields (openFile · f w .read size env) (if a = fsBlank then (none, f) else
      (some ⟨a + sizeofHeader, (readHeader f.cells a).size, (readHeader f.cells a).uid,
        (readHeader f.cells a).gid⟩, f)) := by
  unfold openFile
  simp only [fsFileNameMaxLenght, if_neg (Nat.not_lt.mpr hlen), if_neg hempty,
    if_neg (Int.not_lt.mpr hsize)]
  refine hget.bind ?_
  split
  next => exact .pure _
  next => exact .pure _

theorem open_letter {f : Flash} {pre post : List Header} {h : Header} {t : Nat} {b : Byte}
    {hb : (0 : Byte) ∉ [b]} (hpre : Chain f.cells getStartSector pre a) (hat : Chain f.cells a (h :: post) t)
    (htail : Tail f.cells t) (hfresh : ∀ h ∈ pre, h.first ≠ b) (hname : h.filename = padName [b]) :
    Yields (openFile · f (letter b hb) .read 0 quiet) (some ⟨a + sizeofHeader, h.size, h.uid, h.gid⟩, f) := by
  have hget := getAddress_yields (letter b hb) quiet.beyond (hpre.append hat) htail
  rw [lookup_letter hpre hat hfresh hname, Option.getD_some] at hget
  have hopen : Yields (openFile · f (letter b hb) .read 0 quiet) _ :=
    openFile_read (by simp [letter]) (by simp [letter]) le_rfl hget
  rw [if_neg (hat.ne_blank htail), hat.2.1] at hopen
  exact hopen

theorem lstat_yields {c : Cells} (hlen : w.val.length ≤ 24) {beyond : Nat → List Byte}
    (hget : Yields (getAddress c w beyond · getStartSector) a) :
    Yields (lstat · c w beyond) (if a = fsBlank then .error .ENOENT else .ok (readHeader c a).stat) := by
  have hshort : ¬ w.val.length > fsFileNameMaxLenght := Nat.not_lt.mpr hlen
  simp only [lstat, if_neg hshort]
  refine hget.bind ?_
  split
  next => exact .pure _
  next => exact .pure _

variable (hchain : Chain f.cells getStartSector hs t) (htail : Tail f.cells t)
include hchain htail

theorem openFile_read_iff (hlen : w.val.length ≤ 24) {size : Int} (hsize : 0 ≤ size) (env : Env) :
    (∃ file f', Yields (openFile · f w .read size env) (some file, f')) ↔
      w.val ≠ [] ∧ (lookup f.cells w env.beyond (stops getStartSector hs t)).isSome = true := by
  by_cases hempty : w.val = []
  · have hnone : Yields (openFile · f w .read size env) (none, f) := by
      unfold openFile
      simp only [if_pos hempty, ite_self]
      exact .pure _
    refine iff_of_false ?_ fun h => h.1 hempty
    rintro ⟨file, f', hopen⟩
    cases hopen.unique hnone
  · rcases getAddress_ends env.beyond hchain htail w with ⟨a, hlookup, hne, hget⟩ | ⟨hlookup, hget⟩
    · have hyields := openFile_read hlen hempty hsize hget
      rw [if_neg hne] at hyields
      exact iff_of_true ⟨_, _, hyields⟩ ⟨hempty, by rw [hlookup]; rfl⟩
    · have hyields := openFile_read hlen hempty hsize hget
      rw [if_pos rfl] at hyields
      refine iff_of_false ?_ fun h => by rw [hlookup] at h; cases h.2
      rintro ⟨file, f', hopen⟩
      cases hopen.unique hyields

theorem lstat_iff (hlen : w.val.length ≤ 24) (beyond : Nat → List Byte) :
    (∃ stat, Yields (lstat · f.cells w beyond) (.ok stat)) ↔
      (lookup f.cells w beyond (stops getStartSector hs t)).isSome = true := by
  rcases getAddress_ends beyond hchain htail w with ⟨a, hlookup, hne, hget⟩ | ⟨hlookup, hget⟩
  · have hyields := lstat_yields hlen hget
    rw [if_neg hne] at hyields
    exact iff_of_true ⟨_, hyields⟩ (by rw [hlookup]; rfl)
  · have hyields := lstat_yields hlen hget
    rw [if_pos rfl] at hyields
    refine iff_of_false ?_ fun h => by rw [hlookup] at h; cases h
    rintro ⟨stat, hstat⟩
    cases hstat.unique hyields

theorem unlink_iff (hf : f.Fine) (beyond : Nat → List Byte) :
    (∃ f', Yields (unlink · f w beyond) (.ok (), f')) ↔
      w.val ≠ [] ∧ (lookup f.cells w beyond (stops getStartSector hs t)).isSome = true := by
  by_cases hempty : w.val = []
  · have hnone : Yields (unlink · f w beyond) (.error .ENOENT, f) := by
      simp only [unlink, if_pos hempty]
      exact .pure _
    refine iff_of_false ?_ fun h => h.1 hempty
    rintro ⟨f', hunlink⟩
    cases hunlink.unique hnone
  · rcases getAddress_ends beyond hchain htail w with ⟨a, hlookup, hne, hget⟩ | ⟨hlookup, hget⟩
    · obtain ⟨f', hyields, -⟩ := unlink_found hf hempty hget hne
      exact iff_of_true ⟨f', hyields⟩ ⟨hempty, by rw [hlookup]; rfl⟩
    · have hnone : Yields (unlink · f w beyond) (.error .ENOENT, f) := by
        simp only [unlink, if_neg hempty]
        refine hget.bind ?_
        simp only [if_true]
        exact .pure _
      refine iff_of_false ?_ fun h => by rw [hlookup] at h; cases h.2
      rintro ⟨f', hunlink⟩
      cases hunlink.unique hnone

end

/-! ## A name that was deleted -/

/-- A step that keeps the list in order and creates no file of the name. -/
def StepWithout (w : Name) (s s' : State) : Prop :=
  ∃ call, (∀ size env, call = .create w size env → s'.written = s.written) ∧
    Careful s.flash.cells call ∧ KeepsName s.flash.cells call ∧ Step s call s'

/-- None of the three calls finds the name. -/
structure Gone (f : Flash) (w : Name) : Prop where
  opens : ∀ size env file f', 0 ≤ size → ¬ Yields (openFile · f w .read size env) (some file, f')
  stats : ∀ beyond stat, ¬ Yields (lstat · f.cells w beyond) (.ok stat)
  unlinks : ∀ beyond f', ¬ Yields (unlink · f w beyond) (.ok (), f')

section
variable {f : Flash} {t : Nat} {w : Name} {hs : List Header}

theorem gone_of_none (hf : f.Fine) (hchain : Chain f.cells getStartSector hs t) (htail : Tail f.cells t)
    (hlen : w.val.length ≤ 23) (hnone : ∀ h ∈ hs, ¬ Carries w h) : Gone f w := by
  have hlookup : ∀ beyond, ¬ (lookup f.cells w beyond (stops getStartSector hs t)).isSome = true := by
    intro beyond hsome
    rcases carries_of_lookup beyond hchain htail (by omega) hsome with ⟨h, hmem, hcarries⟩ | ⟨hw, -⟩
    · exact hnone h hmem hcarries
    · rw [hw, List.length_replicate] at hlen
      omega
  refine ⟨fun size env file f' hsize hopen => ?_, fun beyond stat hstat => ?_,
    fun beyond f' hunlink => ?_⟩
  · exact hlookup _ ((openFile_read_iff hchain htail (by omega) hsize env).mp ⟨file, f', hopen⟩).2
  · exact hlookup _ ((lstat_iff hchain htail (by omega) beyond).mp ⟨stat, hstat⟩)
  · exact hlookup _ ((unlink_iff hchain htail hf beyond).mp ⟨f', hunlink⟩).2

theorem Opened.without {c c' : Cells} {filename : Name} {size : Int} {env : Env} {file : File} {p : Place}
    {hs' : List Header} {t' : Nat} (htail : Tail c t) (hkeeps : KeepsName c (.create filename size env))
    (hopened : Opened c hs t filename size env file p c' hs' t') (hw : w.val ≠ [])
    (hother : filename ≠ w) (hnone : ∀ h ∈ hs, ¬ Carries w h) : ∀ h ∈ hs', ¬ Carries w h := by
  intro h hmem hcarries
  rcases hopened.placed.mem htail hmem with hold | rfl | hfirst
  · exact hnone h hold hcarries
  · exact hother (Subtype.ext ((hopened.name htail hkeeps).symm.trans hcarries))
  · exact hcarries.first hw hfirst

theorem Effect.without {s s' : State} {call : Call} {hs' : List Header} {t' : Nat}
    (hkeeps : KeepsName s.flash.cells call)
    (hother : ∀ size env, call = .create w size env → s'.written = s.written) (hlisted : Listed s hs t)
    (heffect : Effect s hs t call s' hs' t') (hw : w.val ≠ []) (hnone : ∀ h ∈ hs, ¬ Carries w h) :
    ∀ h ∈ hs', ¬ Carries w h := by
  cases heffect with
  | same => exact hnone
  | wrote => exact hnone
  | @deleted _ _ pre post a h f hf hsplit hget hpre hat hcells =>
    subst hsplit
    have hfirst := hat.erased.2.2
    rw [← hcells] at hfirst
    intro h' hmem
    rcases List.mem_append.mp hmem with hmem | hmem
    · exact hnone h' (List.mem_append_left _ hmem)
    rcases List.mem_cons.mp hmem with rfl | hmem
    · exact fun hcarries => hcarries.first hw hfirst
    · exact hnone h' (List.mem_append_right _ (List.mem_cons_of_mem _ hmem))
  | @created filename size env file p f hs' t' hf hopened =>
    refine hopened.without hlisted.tail hkeeps hw ?_ hnone
    rintro rfl
    have hsame := hother size env rfl
    rw [List.append_right_eq_self] at hsame
    cases p with
    | newest => cases hsame
    | hole _ _ rest => cases rest <;> cases hsame

theorem gone_of_run {s s' : State} (hlisted : Listed s hs t) (hw : w.val ≠ [])
    (hlen : w.val.length ≤ 23) (hnone : ∀ h ∈ hs, ¬ Carries w h)
    (hrun : Relation.ReflTransGen (StepWithout w) s s') : Gone s'.flash w := by
  have hinv : ∃ hs t, Listed s' hs t ∧ ∀ h ∈ hs, ¬ Carries w h := by
    induction hrun with
    | refl => exact ⟨hs, t, hlisted, hnone⟩
    | tail _ hstep ih =>
      obtain ⟨hs₁, t₁, hlisted₁, hnone₁⟩ := ih
      obtain ⟨call, hother, hcareful, hkeeps, hstep⟩ := hstep
      obtain ⟨hs₂, t₂, heffect⟩ := hlisted₁.effect hcareful hstep
      exact ⟨hs₂, t₂, heffect.listed hlisted₁, heffect.without hkeeps hother hlisted₁ hw hnone₁⟩
  obtain ⟨hs', t', hlisted', hnone'⟩ := hinv
  exact gone_of_none hlisted'.fine hlisted'.chain hlisted'.tail hlen hnone'

theorem Chain.listed (hf : f.Fine) (hchain : Chain f.cells getStartSector hs t) (htail : Tail f.cells t) :
    Listed ⟨f, places getStartSector hs⟩ hs t :=
  ⟨hf, hchain, htail, fun _ h hmem => ⟨h, hmem, .refl h⟩⟩

theorem unlink_deletes {s : State} {f' : Flash} {beyond : Nat → List Byte} (hlisted : Listed s hs t)
    (hunlink : Yields (unlink · s.flash w beyond) (.ok (), f')) (hlen : w.val.length ≤ 24)
    (hnotTail : ¬ TailNamed w (beyond t)) :
    ∃ pre h post h', hs = pre ++ h :: post ∧ Carries w h ∧ h'.first = 0 ∧
      Listed ⟨f', s.written⟩ (pre ++ h' :: post) t := by
  obtain ⟨hfine, hchain, htail, -⟩ := id hlisted
  have hfound : ∀ a, Yields (getAddress s.flash.cells w beyond · getStartSector) a → a ≠ fsBlank →
      ∃ h, (a, h) ∈ places getStartSector hs ∧ Carries w h := by
    intro a hget hne
    rcases getAddress_ends beyond hchain htail w with ⟨a', hlookup, -, hget'⟩ | ⟨-, hget'⟩
    · obtain rfl := hget.unique hget'
      have hmatch := List.find?_some hlookup
      rcases List.mem_append.mp (List.mem_of_find?_eq_some hlookup) with hx | hx
      · obtain ⟨⟨x, h⟩, hmem, rfl⟩ := List.mem_map.mp hx
        rw [hchain.read hmem] at hmatch
        exact ⟨h, hmem, carries_of_strcmp hlen hmatch⟩
      · rw [List.mem_singleton.mp hx] at hmatch
        exact absurd ((strcmp_tail_iff htail hlen _).mp hmatch) hnotTail
    · exact absurd (hget.unique hget') hne
  have hcareful : Careful s.flash.cells (.unlink w beyond) := by
    intro a hget hne
    obtain ⟨h, hmem, -⟩ := hfound a hget hne
    obtain ⟨pre, post, -, -, -, hread, -, -, hrest⟩ := hchain.split hmem
    rw [word_eq_next hread]
    exact hrest.ne_blank htail
  rcases unlink_yields hfine hchain htail hcareful with hnone | ⟨a, h, f₁, hget, hmem, hyes, hf₁, hcells⟩
  · cases hunlink.unique hnone
  · cases hunlink.unique hyes
    obtain ⟨h₁, hmem₁, hcarries⟩ := hfound a hget
      (hchain.stop_ne_blank htail (List.mem_append_left _ (List.mem_map.mpr ⟨_, hmem, rfl⟩)))
    obtain rfl : h = h₁ := (hchain.read hmem).symm.trans (hchain.read hmem₁)
    obtain ⟨pre, post, hsplit, hpre, hat⟩ := hchain.split hmem
    have heffect : Effect s hs t (.unlink w beyond) ⟨f', s.written⟩
        (pre ++ readHeader f'.cells a :: post) t :=
      .deleted hf₁ hsplit hget hpre hat hcells
    have hfirst := hat.erased.2.2
    rw [← hcells] at hfirst
    exact ⟨pre, h, post, _, hsplit, hcarries, hfirst, heffect.listed hlisted⟩

end

/-! ## Looking for a name -/

/-- The calls find the name exactly when a file of the list has it, and no more after an `unlink`
until the name is created again. -/
structure Exact (f : Flash) (hs : List Header) (w : Name) (size : Int) (env : Env)
    (beyond beyond' : Nat → List Byte) : Prop where
  opens : (∃ file f', Yields (openFile · f w .read size env) (some file, f')) ↔ HasFile hs w
  stats : (∃ stat, Yields (lstat · f.cells w beyond) (.ok stat)) ↔ HasFile hs w
  unlinks : (∃ f', Yields (unlink · f w beyond') (.ok (), f')) ↔ HasFile hs w
  gone : ∀ f' s, Yields (unlink · f w beyond') (.ok (), f') →
    Relation.ReflTransGen (StepWithout w) ⟨f', places getStartSector hs⟩ s → Gone s.flash w

section
variable {f : Flash} {t : Nat} {w : Name} {hs : List Header} {size : Int} {env : Env}
  {beyond beyond' : Nat → List Byte}

theorem names_short (hnames : ∀ h ∈ hs, h.first ≠ 0 → (str 0 h.filename.val).length ≤ 23) {h : Header}
    (hmem : h ∈ hs) : (str 0 h.filename.val).length ≤ 23 := by
  by_cases hfirst : h.first = 0
  · have hnil : str 0 h.filename.val = [] :=
      (carries_nil_iff (w := ⟨[], List.not_mem_nil⟩) rfl).mpr hfirst
    rw [hnil]
    exact Nat.zero_le 23
  · exact hnames h hmem hfirst

theorem Carries.short {h : Header} (hcarries : Carries w h)
    (hnames : ∀ h ∈ hs, h.first ≠ 0 → (str 0 h.filename.val).length ≤ 23) (hmem : h ∈ hs) :
    w.val.length ≤ 23 := by
  have hshort := names_short hnames hmem
  rwa [hcarries] at hshort

theorem not_tailNamed {b : List Byte} (hlen : w.val.length ≤ 23) : ¬ TailNamed w b := by
  rintro ⟨hw, -⟩
  rw [hw, List.length_replicate] at hlen
  omega

/-- What is left when a file of the name was deleted. -/
theorem countP_deleted {pre post : List Header} {h h' : Header} (hcarries : Carries w h)
    (hw : w.val ≠ []) (hfirst : h'.first = 0) :
    (pre ++ h :: post).countP (Carries w ·) = (pre ++ h' :: post).countP (Carries w ·) + 1 := by
  have hnot : ¬ Carries w h' := fun hcarries' => hcarries'.first hw hfirst
  rw [List.countP_append, List.countP_append, List.countP_cons_of_pos (by simpa using hcarries),
    List.countP_cons_of_neg (by simpa using hnot)]
  omega

section
variable (hf : f.Fine) (hchain : Chain f.cells getStartSector hs t) (htail : Tail f.cells t)
  (hnames : ∀ h ∈ hs, h.first ≠ 0 → (str 0 h.filename.val).length ≤ 23) (hlen : w.val.length ≤ 24)
include hf hchain htail hnames hlen

theorem Exact.count (hexact : Exact f hs w size env beyond beyond')
    (hempty : w.val = [] → ∀ h ∈ hs, h.first ≠ 0) : hs.countP (Carries w ·) ≤ 1 := by
  by_contra hmany
  obtain ⟨h, hmem, hcarries⟩ : ∃ h ∈ hs, Carries w h := by
    have hpos : 0 < hs.countP (Carries w ·) := by omega
    simpa using List.countP_pos_iff.mp hpos
  have hw : w.val ≠ [] := fun hw => hempty hw h hmem ((carries_nil_iff hw).mp hcarries)
  have hshort := hcarries.short hnames hmem
  obtain ⟨f', hunlink⟩ := hexact.unlinks.mpr ((hasFile_iff hw).mpr ⟨h, hmem, hcarries⟩)
  obtain ⟨pre, h₁, post, h₂, rfl, hcarries₁, hfirst, hlisted⟩ :=
    unlink_deletes (hchain.listed hf htail) hunlink hlen (not_tailNamed hshort)
  have hgone := hexact.gone f' _ hunlink .refl
  rw [countP_deleted hcarries₁ hw hfirst] at hmany
  obtain ⟨h₃, hmem₃, hcarries₃⟩ : ∃ h ∈ pre ++ h₂ :: post, Carries w h := by
    have hpos : 0 < (pre ++ h₂ :: post).countP (Carries w ·) := by omega
    simpa using List.countP_pos_iff.mp hpos
  have hnames' : ∀ h ∈ pre ++ h₂ :: post, h.first ≠ 0 → (str 0 h.filename.val).length ≤ 23 := by
    intro h' hmem' hlive
    simp only [List.mem_append, List.mem_cons] at hmem' hnames
    rcases hmem' with hpre | rfl | hpost
    · exact hnames h' (.inl hpre) hlive
    · exact absurd hfirst hlive
    · exact hnames h' (.inr (.inr hpost)) hlive
  obtain ⟨stat, hstat⟩ := (lstat_iff hlisted.chain hlisted.tail hlen beyond).mpr
    ((lookup_isSome_iff beyond hlisted.chain hlisted.tail (fun _ => names_short hnames') hlen).mpr
      (.inl ⟨h₃, hmem₃, hcarries₃⟩))
  exact hgone.stats beyond stat hstat

theorem gone_of_count (hcount : hs.countP (Carries w ·) ≤ 1) (hw : w.val ≠ [])
    (hshort : w.val.length ≤ 23) {f' : Flash} {s : State}
    (hunlink : Yields (unlink · f w beyond') (.ok (), f'))
    (hrun : Relation.ReflTransGen (StepWithout w) ⟨f', places getStartSector hs⟩ s) :
    Gone s.flash w := by
  obtain ⟨pre, h, post, h', rfl, hcarries, hfirst, hlisted⟩ :=
    unlink_deletes (hchain.listed hf htail) hunlink hlen (not_tailNamed hshort)
  rw [countP_deleted hcarries hw hfirst] at hcount
  refine gone_of_run hlisted hw hshort (fun h₁ hmem hcarries₁ => ?_) hrun
  have hpos : 0 < (pre ++ h' :: post).countP (Carries w ·) :=
    List.countP_pos_iff.mpr ⟨h₁, hmem, by simpa using hcarries₁⟩
  omega

/-- The names are right but for three cases: `lstat` of the empty name takes any deleted file for it,
24 bytes that are clear can be those of the blank tail, and a name that two files have is still there
when one of them is deleted. -/
theorem name_lookup (hsize : 0 ≤ size) :
    Exact f hs w size env beyond beyond' ↔
      (w.val = [] → ∀ h ∈ hs, h.first ≠ 0) ∧
      (w.val = List.replicate 24 blank → (env.beyond t).head? ≠ some 0 ∧
        (beyond t).head? ≠ some 0 ∧ (beyond' t).head? ≠ some 0) ∧
      hs.countP (Carries w ·) ≤ 1 := by
  have hfinds : ∀ b, _ := fun b =>
    lookup_isSome_iff b hchain htail (fun h hmem => names_short hnames hmem) hlen
  have hopens := openFile_read_iff hchain htail hlen hsize env
  have hstats := lstat_iff hchain htail hlen beyond
  have hunlinks := unlink_iff (w := w) hchain htail hf beyond'
  rw [hfinds] at hopens hstats hunlinks
  constructor
  · intro hexact
    have hempty : w.val = [] → ∀ h ∈ hs, h.first ≠ 0 := fun hw h hmem hfirst =>
      not_hasFile_nil hw (hexact.stats.mp (hstats.mpr (.inl ⟨h, hmem, (carries_nil_iff hw).mpr hfirst⟩)))
    refine ⟨hempty, fun hw => ?_, hexact.count hf hchain htail hnames hlen hempty⟩
    have hne : w.val ≠ [] := by rw [hw]; exact List.cons_ne_nil _ _
    have hnone : ¬ HasFile hs w := by
      rintro ⟨h, hmem, -, hcarries⟩
      have hshort := hcarries.short hnames hmem
      rw [hw, List.length_replicate] at hshort
      omega
    refine ⟨fun hzero => hnone ?_, fun hzero => hnone ?_, fun hzero => hnone ?_⟩
    · exact hexact.opens.mp (hopens.mpr ⟨hne, .inr ⟨hw, hzero⟩⟩)
    · exact hexact.stats.mp (hstats.mpr (.inr ⟨hw, hzero⟩))
    · exact hexact.unlinks.mp (hunlinks.mpr ⟨hne, .inr ⟨hw, hzero⟩⟩)
  · rintro ⟨hempty, hclear, hcount⟩
    have hopened : ¬ TailNamed w (env.beyond t) := fun h => (hclear h.1).1 h.2
    have hstated : ¬ TailNamed w (beyond t) := fun h => (hclear h.1).2.1 h.2
    have hunlinked : ¬ TailNamed w (beyond' t) := fun h => (hclear h.1).2.2 h.2
    simp only [hopened, hstated, hunlinked, or_false] at hopens hstats hunlinks
    by_cases hw : w.val = []
    · have hnone : ¬ HasFile hs w := not_hasFile_nil hw
      have hno : ¬ ∃ h ∈ hs, Carries w h := fun ⟨h, hmem, hcarries⟩ =>
        hempty hw h hmem ((carries_nil_iff hw).mp hcarries)
      refine ⟨hopens.trans (iff_of_false (fun h => h.1 hw) hnone), hstats.trans (iff_of_false hno hnone),
        hunlinks.trans (iff_of_false (fun h => h.1 hw) hnone), fun f' s hunlink _ => ?_⟩
      exact absurd hw (hunlinks.mp ⟨f', hunlink⟩).1
    · have hhas : HasFile hs w ↔ ∃ h ∈ hs, Carries w h := hasFile_iff hw
      refine ⟨hopens.trans ((and_iff_right hw).trans hhas.symm), hstats.trans hhas.symm,
        hunlinks.trans ((and_iff_right hw).trans hhas.symm), fun f' s hunlink hrun => ?_⟩
      obtain ⟨h, hmem, hcarries⟩ := (hunlinks.mp ⟨f', hunlink⟩).2
      exact gone_of_count hf hchain htail hnames hlen hcount hw (hcarries.short hnames hmem) hunlink hrun

end

end

/-- Of two files the first one was deleted. The second one is found, the first one is not. -/
theorem name_lookup_deleted : ∃ s h g, Run Flash.cleared s ∧
    Listed s [h, g] (getStartSector + 144) ∧ h.first = 0 ∧ HasFile [h, g] nameE ∧ ¬ HasFile [h, g] nameA ∧
    Exact s.flash [h, g] nameE 0 quiet quiet.beyond quiet.beyond ∧
    Exact s.flash [h, g] nameA 0 quiet quiet.beyond quiet.beyond := by
  obtain ⟨f₁, hstep₁, hlisted₁, -⟩ := @Listed.add getStartSector [] 0x61 ended_a _
    erased_cleared.listed (by decide) (by simp) 0 (by decide)
  obtain ⟨f₂, hstep₂, hlisted₂, -⟩ := @Listed.add _ _ 0x65 ended_e _ hlisted₁ (by decide) (by decide) 0
    (by decide)
  obtain ⟨f₃, hstep₃, hlisted₃, -, hfirst, -⟩ := @Listed.delete _ _ _ [] _ 0x61 ended_a _ hlisted₂
    rfl (by simp) rfl
  set h := readHeader f₃.cells getStartSector
  set g := newHeader nameE 0 (getStartSector + roundUp 0 + roundUp 0)
  have hnames : ∀ h' ∈ [h, g], h'.first ≠ 0 → (str 0 h'.filename.val).length ≤ 23 := by
    rintro h' hmem hlive
    rcases List.mem_pair.mp hmem with rfl | rfl
    · exact absurd hfirst hlive
    · decide
  have hgone : ∀ w : Name, w.val ≠ [] → ¬ Carries w h := fun w hw hcarries => hcarries.first hw hfirst
  have hcount : ∀ w : Name, w.val ≠ [] → [h, g].countP (Carries w ·) ≤ 1 := by
    intro w hw
    rw [List.countP_cons_of_neg (by simpa using hgone w hw)]
    exact List.countP_le_length
  have hexact : ∀ w : Name, w.val ≠ [] → w.val.length < 24 →
      Exact f₃ [h, g] w 0 quiet quiet.beyond quiet.beyond := fun w hw hlen =>
    (name_lookup hlisted₃.fine hlisted₃.chain hlisted₃.tail hnames (Nat.le_of_lt hlen) le_rfl).mpr
      ⟨fun hempty => absurd hempty hw, fun hclear => by simp [hclear] at hlen, hcount w hw⟩
  have hrun : Run Flash.cleared _ :=
    ((Relation.ReflTransGen.refl.tail ⟨_, hstep₁⟩).tail ⟨_, hstep₂⟩).tail ⟨_, hstep₃⟩
  refine ⟨_, h, g, hrun, hlisted₃, hfirst, ⟨g, by simp, by decide, by decide⟩, ?_,
    hexact nameE (by decide) (by decide), hexact nameA (by decide) (by decide)⟩
  rintro ⟨h', hmem, hlive, hcarries⟩
  rcases List.mem_pair.mp hmem with rfl | rfl
  · exact hlive hfirst
  · exact absurd hcarries (by decide)

/-- A name without characters. -/
def noName : Name := ⟨[], List.not_mem_nil⟩

/-- `lstat` does not check for the empty name, and finds the deleted file. -/
theorem lstat_finds_deleted : ∃ s hs t, Run Flash.cleared s ∧ Listed s hs t ∧
    (∀ h ∈ hs, h.first ≠ 0 → (str 0 h.filename.val).length ≤ 23) ∧ ¬ HasFile hs noName ∧
    (∃ stat, Yields (lstat · s.flash.cells noName quiet.beyond) (.ok stat)) ∧
    ¬ Exact s.flash hs noName 0 quiet quiet.beyond quiet.beyond := by
  obtain ⟨f₁, hstep₁, hlisted₁, -⟩ := @Listed.add getStartSector [] 0x61 (by decide) _
    erased_cleared.listed (by decide) (by simp) 0 (by decide)
  obtain ⟨f₂, hstep₂, hlisted₂, -, hfirst, -⟩ := @Listed.delete _ _ _ [] _ 0x61 (by decide) _ hlisted₁
    rfl (by simp) rfl
  set h := readHeader f₂.cells getStartSector
  have hnames : ∀ h' ∈ [h], h'.first ≠ 0 → (str 0 h'.filename.val).length ≤ 23 := by
    intro h' hmem hlive
    rw [List.mem_singleton.mp hmem] at hlive
    exact absurd hfirst hlive
  have hfound : ∃ stat, Yields (lstat · f₂.cells noName quiet.beyond) (.ok stat) := by
    refine (lstat_iff hlisted₂.chain hlisted₂.tail (by decide) quiet.beyond).mpr
      ((lookup_isSome_iff quiet.beyond hlisted₂.chain hlisted₂.tail (fun _ => names_short hnames)
        (by decide)).mpr (.inl ⟨h, List.mem_singleton.mpr rfl, ?_⟩))
    exact (carries_nil_iff rfl).mpr hfirst
  have hnone : ¬ HasFile [h] noName := not_hasFile_nil rfl
  exact ⟨_, [h], _, (Relation.ReflTransGen.refl.tail ⟨_, hstep₁⟩).tail ⟨_, hstep₂⟩, hlisted₂, hnames,
    hnone, hfound, fun hexact => hnone (hexact.stats.mp hfound)⟩

end PasswordManager.FileSystem
