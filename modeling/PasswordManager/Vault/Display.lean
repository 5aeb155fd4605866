import PasswordManager.Vault.Frame

/-!
# What is printed

`transformArray` copies a field up to the first 0xFF, and `printf` reads the copy up to its NUL. A
string that holds the byte 0xFF is cut there, and its copy has no NUL.
-/

open Nor

namespace PasswordManager.Vault

open FlashDriver

/-! ## Tokens -/

/-- What `scanf` delivers for a website or a password. -/
structure Token where
  val : List Byte
  nonempty : val ≠ []
  short : val.length < 32
  noNul : 0 ∉ val

/-- The buffer that a token was typed into. -/
def Token.line (token : Token) (memory : Field) : Line := Line.put token.val token.short memory

/-- The arrays that runs reach, with the tokens that were typed for each entry. -/
inductive Entered : Records → List (Token × Token) → Prop
  | fresh {r : Records} (h : r.numOfPass = 0) : Entered r []
  | add {r : Records} {l : List (Token × Token)} (h : Entered r l) (website password : Token)
      (memory memory' : Field) (room : r.numOfPass ≠ maxStored) :
      Entered (r.addPassword (website.line memory) (password.line memory')).2
        (l ++ [(website, password)])
  | remove {r : Records} {l : List (Token × Token)} (h : Entered r l) (website : Line) {i : Nat}
      (found : r.getPosition website = some i) :
      Entered (r.remove website).2 (Lists.swapRemove l i)
  | change {r : Records} {l : List (Token × Token)} (h : Entered r l) (website : Line)
      (newPass : Token) (memory : Field) {i : Nat} (found : r.getPosition website = some i) :
      Entered (r.changePassword website (newPass.line memory)).2
        (l.modify i fun entry => (entry.1, newPass))
  | reload {m memory found : Manager} {f : Flash} {c : Cells} {password : Line}
      {l : List (Token × Token)} (h : Entered m.records l) (ha : SlotAddress m.address)
      (hstored : (storeData m.encrypt f).1 = true)
      (hcells : ∀ x, m.address ≤ x → x < m.address + 0x8000 →
        (storeData m.encrypt f).2.cells x = c x)
      (hkey : keyOf password.str = m.key)
      (hopen : reopen memory m.address c password = some (true, found)) :
      Entered found.records l

/-- `printf` gets a terminated buffer with this string. -/
def Prints (f : Field) (text : List Byte) : Prop :=
  0 ∈ transformArray f ∧ CString.str 0 (transformArray f) = text

instance (f : Field) (text : List Byte) : Decidable (Prints f text) :=
  inferInstanceAs (Decidable (_ ∧ _))

/-! ## One field -/

theorem prints_iff {f : Field} (h : 0 ∈ f.val) : Prints f f.str ↔ 0xFF ∉ f.str := by
  rw [Prints, transformArray_eq, CString.mem_str_iff (by decide) h]
  refine ⟨fun hp => hp.1, fun hff => ⟨hff, ?_⟩⟩
  exact (val_shown f).trans (CString.str_eq_self hff)

/-! ## The tokens of a run -/

@[simp] theorem Token.str_line (token : Token) (memory : Field) : (token.line memory).str = token.val :=
  CString.str_append_cons token.noNul _

theorem Entered.history {r : Records} {l : List (Token × Token)} (h : Entered r l) : History Edit r := by
  induction h with
  | fresh h => exact .fresh h
  | add _ website password memory memory' room ih => exact .edit ih (.add _ _ room)
  | remove _ website found ih => exact .edit ih (.remove website found)
  | change _ website newPass memory found ih => exact .edit ih (.change website _ found)
  | reload _ ha hstored hcells hkey hopen ih => exact .reload ih ha hstored hcells hkey hopen

def texts (entry : Token × Token) : List Byte × List Byte := (entry.1.val, entry.2.val)

/-- The strings of the entries are the tokens that were typed for them. -/
theorem Entered.pairs {r : Records} {l : List (Token × Token)} (h : Entered r l) :
    r.live.map WPTuple.pair = l.map texts := by
  induction h with
  | fresh h => simp [Records.live, h]
  | add _ website password memory memory' room ih =>
    rw [(Records.addPassword_room room _ _).2, List.map_append, List.map_append, ih]
    simp [WPTuple.pair, WPTuple.overwrite, texts]
  | remove _ website found ih =>
    rw [(Records.remove_some found).2, Lists.map_swapRemove, Lists.map_swapRemove, ih]
  | @change r l _ website newPass memory i found ih =>
    rw [Records.changePassword, found]
    dsimp only
    rw [Records.live_setPassword,
      Lists.map_modify (fun pair => (pair.1, newPass.val)) fun t => by
        simp [WPTuple.pair, WPTuple.withPassword],
      ih, Lists.map_modify (fun pair => (pair.1, newPass.val)) fun entry => rfl]
  | reload _ ha hstored hcells hkey hopen ih =>
    rw [live_of_reload ha hstored hcells hkey hopen]
    exact ih

/-! ## What the user sees -/

theorem prints_pair_iff {t : WPTuple} (ht : t.Terminated) {entry : Token × Token}
    (hpair : t.pair = texts entry) :
    (Prints t.website entry.1.val ↔ 0xFF ∉ entry.1.val) ∧
      (Prints t.password entry.2.val ↔ 0xFF ∉ entry.2.val) := by
  obtain ⟨hwebsite, hpassword⟩ := Prod.ext_iff.mp hpair
  obtain ⟨hw, hp⟩ := ht
  simp only [WPTuple.pair, texts] at hwebsite hpassword
  rw [← hwebsite, ← hpassword]
  exact ⟨prints_iff hw, prints_iff hp⟩

/-- Each field of each entry is printed as it was typed exactly when it has no byte 0xFF, and what
a search prints is one of the lines of `printAll`. -/
theorem displayed_iff {r : Records} {l : List (Token × Token)} (h : Entered r l) :
    List.Forall₂ (fun t entry =>
      (Prints t.website entry.1.val ↔ 0xFF ∉ entry.1.val) ∧
        (Prints t.password entry.2.val ↔ 0xFF ∉ entry.2.val)) r.live l ∧
    r.printAll = r.live.map printed ∧
    ∀ website line, r.searchPassword website = some line →
      ∃ t ∈ r.live, t.website.str = website.str ∧ line = printed t := by
  refine ⟨?_, rfl, fun website line hfound => ?_⟩
  · have heq : List.Forall₂ (· = ·) (r.live.map WPTuple.pair) (l.map texts) := by
      rw [List.forall₂_eq_eq_eq]
      exact h.pairs
    rw [List.forall₂_map_left_iff, List.forall₂_map_right_iff] at heq
    exact ((List.forall₂_and_left _ _).mpr ⟨h.history.terminated, heq⟩).imp fun t entry hentry =>
      prints_pair_iff hentry.1 hentry.2
  · rw [searchPassword_eq] at hfound
    obtain ⟨t, hlast, rfl⟩ := Option.map_eq_some_iff.mp hfound
    obtain ⟨ht, hsite⟩ := Records.found_mem hlast
    exact ⟨t, ht, hsite, rfl⟩

def token (val : List Byte) (h : val ≠ [] ∧ val.length < 32 ∧ 0 ∉ val) : Token :=
  { val, nonempty := h.1, short := h.2.1, noNul := h.2.2 }

/-- An entry over slots that held other bytes. -/
def typedEntry (website password : Token) : Records :=
  ((Records.filled 0x41).addPassword (website.line (Field.filled 0x42))
    (password.line (Field.filled 0x43))).2

theorem entered_typedEntry (website password : Token) :
    Entered (typedEntry website password) [(website, password)] :=
  .add (.fresh rfl) website password _ _ (by decide)

theorem displayed_iff_typedEntry :
    List.Forall₂ (fun t entry =>
      (Prints t.website entry.1.val ↔ 0xFF ∉ entry.1.val) ∧
        (Prints t.password entry.2.val ↔ 0xFF ∉ entry.2.val))
      (typedEntry (token (bytes "w") (by decide)) (token (bytes "x") (by decide))).live
      [(token (bytes "w") (by decide), token (bytes "x") (by decide))] :=
  (displayed_iff (entered_typedEntry _ _)).1

/-- A website of one byte, 0xFF: `printf` gets a buffer of no bytes. -/
theorem clear_byte_not_printed :
    Entered (typedEntry (token [0xFF] (by decide)) (token (bytes "x") (by decide)))
        [(token [0xFF] (by decide), token (bytes "x") (by decide))] ∧
      ∃ t ∈ (typedEntry (token [0xFF] (by decide)) (token (bytes "x") (by decide))).live,
        transformArray t.website = [] ∧ ¬ Prints t.website [0xFF] :=
  ⟨entered_typedEntry _ _, by decide⟩

end PasswordManager.Vault
