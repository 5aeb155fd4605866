import PasswordManager.Lib.MerkleDamgard
import PasswordManager.Md5
import Mathlib.Tactic.IntervalCases

/-!
# Digests of streams

A message that comes in pieces has the digest of the whole: the fold of the block function over the
message, one bit, zeros and the number of its bits.
-/

namespace PasswordManager.Md5

open MerkleDamgard

abbrev Chaining := Word × Word × Word × Word

/-! ## The digest of a whole message -/

/-- What a block does to the four words. -/
def compress (state : Chaining) (data : List Byte) : Chaining :=
  (md5Process { md5Starts with state } data).state

def bitLength (n : Nat) : List Byte := (List.range 8).map fun i => BitVec.ofNat 8 (8 * n / 256 ^ i)

@[simp] theorem length_bitLength (n : Nat) : (bitLength n).length = 8 := rfl

/-- What comes behind a message of `n` bytes. -/
def padding (n : Nat) : List Byte := 0x80 :: List.replicate ((119 - n % 64) % 64) 0 ++ bitLength n

def pad (m : List Byte) : List Byte := m ++ padding m.length

theorem length_words (a b c d : BitVec 32) :
    (putUint32Le a ++ putUint32Le b ++ putUint32Le c ++ putUint32Le d).length = 16 := rfl

def output (state : Chaining) : Buf 16 :=
  match state with
  | (a, b, c, d) => ⟨putUint32Le a ++ putUint32Le b ++ putUint32Le c ++ putUint32Le d, length_words a b c d⟩

def digest (m : List Byte) : Buf 16 := output (blocks 64 compress md5Starts.state (pad m))

/-! ## What the functions do to the context -/

theorem md5Process_eq (ctx : Context) (data : List Byte) :
    md5Process ctx data = { ctx with state := compress ctx.state data } := by
  unfold compress
  obtain ⟨total0, total1, ⟨a, b, c, d⟩, buffer⟩ := ctx
  rfl

-- Without the seal, unfolding a step of the loop unfolds all 64 steps of the block.
seal md5Process in
theorem processBlocks_eq (ctx : Context) (n : Nat) (input : List Byte) :
    processBlocks ctx n input = { ctx with state := absorb 64 compress n ctx.state input } := by
  induction n generalizing ctx input with
  | zero => rfl
  | succ n ih =>
    change processBlocks (md5Process ctx (input.take 64)) n (input.drop 64) = _
    rw [ih, md5Process_eq, absorb]

/-- The counter in two words. -/
def Counts (total0 total1 : Word) (n : Nat) : Prop :=
  total0.toNat + 2 ^ 32 * total1.toNat = n % 2 ^ 64

theorem Counts.add {total0 total1 : Word} {n ilen : Nat} (h : Counts total0 total1 n)
    (hilen : ilen < 2 ^ 32) :
    Counts (total0 + BitVec.ofNat 32 ilen)
      (if total0 + BitVec.ofNat 32 ilen < BitVec.ofNat 32 ilen then total1 + 1 else total1)
      (n + ilen) := by
  have h0 := total0.isLt
  have h1 := total1.isLt
  have hsum : (total0 + BitVec.ofNat 32 ilen).toNat = (total0.toNat + ilen) % 2 ^ 32 := by simp
  have hcarry : total0 + BitVec.ofNat 32 ilen < BitVec.ofNat 32 ilen ↔ 2 ^ 32 ≤ total0.toNat + ilen := by
    rw [BitVec.lt_def, hsum, BitVec.toNat_ofNat]
    omega
  unfold Counts at h ⊢
  rw [hsum]
  split
  next hlt =>
    have hover := hcarry.mp hlt
    rw [BitVec.toNat_add, show (1 : Word).toNat = 1 from rfl]
    omega
  next hge =>
    have hunder := mt hcarry.mpr hge
    omega

theorem Counts.left {total0 total1 : Word} {n : Nat} (h : Counts total0 total1 n) :
    (total0 &&& 0x3F).toNat = n % 64 := by
  have hlow : (total0 &&& 0x3F).toNat = total0.toNat % 64 := by
    rw [BitVec.toNat_and]
    exact Nat.and_two_pow_sub_one_eq_mod _ 6
  unfold Counts at h
  rw [hlow]
  omega

/-- The message so far is in the context. -/
structure Absorbed (ctx : Context) (m : List Byte) : Prop where
  total : Counts ctx.total0 ctx.total1 m.length
  state : ctx.state = blocks 64 compress md5Starts.state m
  room : ctx.buffer.length = 64
  buffer : ctx.buffer.take (m.length % 64) = rest 64 m

theorem absorbed_starts : Absorbed md5Starts [] := ⟨rfl, rfl, rfl, rfl⟩

section
variable {ctx : Context} {m input : List Byte}

/-- The buffer is filled up and goes first. -/
theorem Absorbed.fill (h : Absorbed ctx m) {total0 total1 : Word}
    (htotal : Counts total0 total1 (m ++ input).length) (hfill : 64 - m.length % 64 ≤ input.length)
    {buffer later : List Byte}
    (hbuffer : buffer = ctx.buffer.take (m.length % 64) ++ input.take (64 - m.length % 64))
    (hlater : later = input.drop (64 - m.length % 64)) :
    Absorbed
      { total0, total1
        state := absorb 64 compress (later.length / 64) (compress ctx.state buffer) later
        buffer := rest 64 later ++ buffer.drop (rest 64 later).length }
      (m ++ input) := by
  have hlen : buffer.length = 64 := by
    rw [hbuffer, List.length_append, List.length_take, List.length_take, h.room]
    omega
  have hsplit : rest 64 m ++ input = buffer ++ later := by
    rw [hbuffer, hlater, h.buffer, List.append_assoc, List.take_append_drop]
  have hrest : rest 64 (m ++ input) = rest 64 later := by
    rw [rest_append, hsplit, rest_cons (by omega) hlen]
  have hcount : (rest 64 later).length = (m ++ input).length % 64 := by rw [← hrest, length_rest]
  refine ⟨htotal, ?_, ?_, ?_⟩
  · rw [blocks_append, hsplit, blocks_cons (by omega) hlen, ← h.state]
    rfl
  · rw [List.length_append, List.length_drop, hlen, hcount]
    omega
  · rw [← hcount, List.take_left, hrest]

/-- The buffer is empty, or it is not filled up. -/
theorem Absorbed.keep (h : Absorbed ctx m) {total0 total1 : Word}
    (htotal : Counts total0 total1 (m ++ input).length)
    (hkeep : m.length % 64 = 0 ∨ input.length < 64 - m.length % 64) :
    Absorbed
      { total0, total1
        state := absorb 64 compress (input.length / 64) ctx.state input
        buffer := ctx.buffer.take (m.length % 64) ++ rest 64 input ++
          ctx.buffer.drop (m.length % 64 + (rest 64 input).length) }
      (m ++ input) := by
  have hrest : rest 64 (m ++ input) = rest 64 m ++ rest 64 input ∧
      blocks 64 compress md5Starts.state (m ++ input) =
        absorb 64 compress (input.length / 64) ctx.state input := by
    have hlen : (rest 64 m).length = m.length % 64 := length_rest m
    rw [rest_append, blocks_append, ← h.state]
    rcases hkeep with hempty | hshort
    · obtain hnil : rest 64 m = [] := List.length_eq_zero_iff.mp (hlen.trans hempty)
      rw [hnil]
      exact ⟨rfl, rfl⟩
    · have hlt : (rest 64 m ++ input).length < 64 := by
        rw [List.length_append]
        omega
      have hinput : input.length < 64 := by omega
      rw [rest_of_lt hlt, rest_of_lt hinput, blocks_of_lt hlt, Nat.div_eq_of_lt hinput]
      exact ⟨rfl, rfl⟩
  have hcount : m.length % 64 + (rest 64 input).length = (m ++ input).length % 64 := by
    rw [← length_rest (m ++ input), hrest.1, List.length_append, length_rest m]
  have hlt : m.length % 64 + (rest 64 input).length < 64 := by omega
  refine ⟨htotal, hrest.2.symm, ?_, ?_⟩
  · simp only [List.length_append, List.length_take, List.length_drop, h.room]
    omega
  · rw [hrest.1, h.buffer, ← hcount, List.take_append_of_le_length, List.take_of_length_le]
    all_goals rw [List.length_append, length_rest m]

theorem Absorbed.update (h : Absorbed ctx m) (hinput : input.length < 2 ^ 32) :
    Absorbed (md5Update ctx input) (m ++ input) := by
  unfold md5Update
  split
  next hnil =>
    rw [List.length_eq_zero_iff.mp hnil, List.append_nil]
    exact h
  next =>
    have htotal := h.total.add hinput
    rw [← List.length_append] at htotal
    dsimp only
    rw [h.total.left]
    split
    next hfill =>
      rw [processBlocks_eq, md5Process_eq]
      exact h.fill htotal hfill.2 rfl rfl
    next hkeep =>
      rw [processBlocks_eq]
      exact h.keep htotal (by omega)

theorem Absorbed.updates (h : Absorbed ctx m) {pieces : List (List Byte)}
    (hpieces : ∀ p ∈ pieces, p.length < 2 ^ 32) :
    Absorbed (pieces.foldl md5Update ctx) (m ++ pieces.flatten) := by
  induction pieces generalizing ctx m with
  | nil =>
    rw [List.flatten_nil, List.append_nil]
    exact h
  | cons p pieces ih =>
    rw [List.foldl_cons, List.flatten_cons, ← List.append_assoc]
    exact ih (h.update (hpieces p List.mem_cons_self)) fun q hq => hpieces q (List.mem_cons_of_mem _ hq)

/-! ## The end of a message -/

theorem take_md5Padding (n : Nat) :
    md5Padding.take (if n % 64 < 56 then 56 - n % 64 else 120 - n % 64) =
      0x80 :: List.replicate ((119 - n % 64) % 64) 0 := by
  have hpadn : (if n % 64 < 56 then 56 - n % 64 else 120 - n % 64) = (119 - n % 64) % 64 + 1 := by
    split <;> omega
  rw [hpadn, md5Padding, List.take_succ_cons, List.take_replicate, Nat.min_eq_left (by omega)]

theorem byte_shift (w : Word) (k : Nat) : (w >>> k).setWidth 8 = BitVec.ofNat 8 (w.toNat / 2 ^ k) := by
  apply BitVec.eq_of_toNat_eq
  rw [BitVec.toNat_setWidth, BitVec.toNat_ushiftRight, BitVec.toNat_ofNat, Nat.shiftRight_eq_div_pow]

theorem putUint32Le_eq (w : Word) :
    putUint32Le w = (List.range 4).map fun i => BitVec.ofNat 8 (w.toNat / 256 ^ i) := by
  have hbyte := byte_shift w
  have hzero : w.setWidth 8 = BitVec.ofNat 8 (w.toNat / 256 ^ 0) := by
    rw [pow_zero, Nat.div_one]
    rfl
  rw [putUint32Le, hbyte, hbyte, hbyte, hzero]
  rfl

theorem Counts.bitLength {total0 total1 : Word} {n : Nat} (h : Counts total0 total1 n) :
    putUint32Le (total0 <<< 3) ++ putUint32Le (total0 >>> 29 ||| total1 <<< 3) = bitLength n := by
  have h0 := total0.isLt
  have h1 := total1.isLt
  have hlow : (total0 <<< 3).toNat = 8 * total0.toNat % 2 ^ 32 := by
    rw [BitVec.toNat_shiftLeft, Nat.shiftLeft_eq, Nat.mul_comm]
  have hhigh : (total0 >>> 29 ||| total1 <<< 3).toNat =
      8 * (total1.toNat % 2 ^ 29) + total0.toNat / 2 ^ 29 := by
    have hshift : (total1 <<< 3).toNat = (total1.toNat % 2 ^ 29) <<< 3 := by
      rw [BitVec.toNat_shiftLeft, Nat.shiftLeft_eq, Nat.shiftLeft_eq]
      omega
    rw [BitVec.toNat_or, Nat.or_comm, hshift, BitVec.toNat_ushiftRight, Nat.shiftRight_eq_div_pow,
      ← Nat.shiftLeft_add_eq_or_of_lt (by omega), Nat.shiftLeft_eq, Nat.mul_comm]
  unfold Counts at h
  rw [putUint32Le_eq, putUint32Le_eq, hlow, hhigh]
  apply List.ext_getElem
  · rfl
  · intro i hi _
    simp only [List.length_append, List.length_map, List.length_range] at hi
    apply BitVec.eq_of_toNat_eq
    interval_cases i <;> simp [Md5.bitLength] <;> omega

theorem md5Finish_eq (ctx : Context) :
    md5Finish ctx =
      let last := (ctx.total0 &&& 0x3F).toNat
      let ctx' := md5Update ctx (md5Padding.take (if last < 56 then 56 - last else 120 - last))
      output (md5Update ctx'
        (putUint32Le (ctx.total0 <<< 3) ++ putUint32Le (ctx.total0 >>> 29 ||| ctx.total1 <<< 3))).state :=
  rfl

theorem Absorbed.finish (h : Absorbed ctx m) : md5Finish ctx = digest m := by
  have hlast := h.total.left
  have hpadded : Absorbed (md5Update ctx (0x80 :: List.replicate ((119 - m.length % 64) % 64) 0))
      (m ++ 0x80 :: List.replicate ((119 - m.length % 64) % 64) 0) := by
    apply h.update
    rw [List.length_cons, List.length_replicate]
    omega
  have hlength : (bitLength m.length).length < 2 ^ 32 := by
    rw [length_bitLength]
    omega
  have hall := hpadded.update hlength
  rw [md5Finish_eq]
  dsimp only
  rw [hlast, take_md5Padding, h.total.bitLength, hall.state, List.append_assoc]
  rfl

end

/-- However a message is cut into pieces, its digest is that of the fold over its padded blocks. -/
theorem stream_digest {pieces : List (List Byte)} (hpieces : ∀ p ∈ pieces, p.length < 2 ^ 32) :
    md5Finish (pieces.foldl md5Update md5Starts) = digest pieces.flatten :=
  (absorbed_starts.updates hpieces).finish

theorem stream_digest_pieces :
    md5Finish ([bytes "mess", [], bytes "age"].foldl md5Update md5Starts) = digest (bytes "message") :=
  stream_digest (by decide)

theorem md5_eq_digest {m : List Byte} (h : m.length < 2 ^ 32) : md5 m = digest m := by
  unfold md5
  exact (absorbed_starts.update h).finish

/-! ## Collisions -/

theorem length_pad (m : List Byte) : 64 ∣ (pad m).length := by
  simp only [pad, padding, List.length_append, List.length_cons, List.length_replicate, length_bitLength]
  omega

theorem mod_pow_of_bytes {x y k : Nat} (h : ∀ i < k, x / 256 ^ i % 256 = y / 256 ^ i % 256) :
    x % 256 ^ k = y % 256 ^ k := by
  induction k with
  | zero => simp [Nat.mod_one]
  | succ k ih => rw [Nat.mod_pow_succ, Nat.mod_pow_succ, ih fun i hi => h i (by omega), h k (by omega)]

/-- The bytes of a number tell the number. -/
theorem mod_pow_of_map {x y k : Nat} (h : (List.range k).map (fun i => BitVec.ofNat 8 (x / 256 ^ i)) =
    (List.range k).map fun i => BitVec.ofNat 8 (y / 256 ^ i)) : x % 256 ^ k = y % 256 ^ k := by
  apply mod_pow_of_bytes
  intro i hi
  have hbyte := congrArg BitVec.toNat (List.map_inj_left.mp h i (List.mem_range.mpr hi))
  rwa [BitVec.toNat_ofNat, BitVec.toNat_ofNat] at hbyte

theorem bitLength_inj {n n' : Nat} (hn : n < 2 ^ 61) (hn' : n' < 2 ^ 61) (h : bitLength n = bitLength n') :
    n = n' := by
  have hmod := mod_pow_of_map h
  omega

theorem putUint32Le_inj {w w' : Word} (h : putUint32Le w = putUint32Le w') : w = w' := by
  rw [putUint32Le_eq, putUint32Le_eq] at h
  have hmod := mod_pow_of_map h
  have hw := w.isLt
  have hw' := w'.isLt
  apply BitVec.eq_of_toNat_eq
  omega

theorem output_inj {state state' : Chaining} (h : output state = output state') : state = state' := by
  obtain ⟨a, b, c, d⟩ := state
  obtain ⟨a', b', c', d'⟩ := state'
  have hval : putUint32Le a ++ putUint32Le b ++ putUint32Le c ++ putUint32Le d =
      putUint32Le a' ++ putUint32Le b' ++ putUint32Le c' ++ putUint32Le d' := congrArg Subtype.val h
  obtain ⟨hval, hd⟩ := List.append_inj' hval rfl
  obtain ⟨hval, hc⟩ := List.append_inj' hval rfl
  obtain ⟨ha, hb⟩ := List.append_inj' hval rfl
  rw [putUint32Le_inj ha, putUint32Le_inj hb, putUint32Le_inj hc, putUint32Le_inj hd]

/-- The padded message tells its length at the end, so that none is the end of another one. -/
theorem pad_suffix {m m' : List Byte} (hm : m.length < 2 ^ 61) (hm' : m'.length < 2 ^ 61)
    (h : pad m <:+ pad m') : m = m' := by
  obtain ⟨before, hbefore⟩ := h
  have hlast : bitLength m.length = bitLength m'.length := by
    unfold pad padding at hbefore
    rw [← List.append_assoc, ← List.append_assoc, ← List.append_assoc] at hbefore
    exact (List.append_inj' hbefore rfl).2
  have hlen : m.length = m'.length := bitLength_inj hm hm' hlast
  have hall : m = m' ∧ padding m.length = padding m'.length := by
    have hnil : before = [] := by
      have hcount := congrArg List.length hbefore
      simp only [pad, List.length_append, hlen] at hcount
      exact List.length_eq_zero_iff.mp (by omega)
    rw [hnil] at hbefore
    exact List.append_inj hbefore hlen
  exact hall.1

/-- Hashing two messages with one digest shows two blocks that take two states to one. -/
theorem md5_collision {m m' : List Byte} (hm : m.length < 2 ^ 32) (hm' : m'.length < 2 ^ 32) (hne : m ≠ m')
    (h : md5 m = md5 m') : Collide 64 compress md5Starts.state (pad m) (pad m') := by
  rw [md5_eq_digest hm, md5_eq_digest hm'] at h
  have hstate := output_inj h
  let padded : { m : List Byte // m.length < 2 ^ 61 } → List Byte := fun m => pad m.val
  have hsuffix : ∀ x y, padded x <:+ padded y → x = y := fun x y hxy =>
    Subtype.ext (pad_suffix x.property y.property hxy)
  have hmessages : (⟨m, by omega⟩ : { m : List Byte // m.length < 2 ^ 61 }) ≠ ⟨m', by omega⟩ := fun heq =>
    hne (congrArg Subtype.val heq)
  exact collide_of_blocks (fun x => length_pad x.val) hsuffix hmessages hstate

/-- The bytes of a number, the highest first. -/
def ofNumber (n value : Nat) : List Byte :=
  (List.range n).map fun i => BitVec.ofNat 8 (value / 256 ^ (n - 1 - i))

def twin : List Byte := ofNumber 128 <|
  0xd131dd02c5e6eec4693d9a0698aff95c2fcab58712467eab4004583eb8fb7f89 * 256 ^ 96 +
  0x55ad340609f4b30283e488832571415a085125e8f7cdc99fd91dbdf280373c5b * 256 ^ 64 +
  0xd8823e3156348f5bae6dacd436c919c6dd53e2b487da03fd02396306d248cda0 * 256 ^ 32 +
  0xe99f33420f577ee8ce54b67080a80d1ec69821bcb6a8839396f9652b6ff72a70

def otherTwin : List Byte := ofNumber 128 <|
  0xd131dd02c5e6eec4693d9a0698aff95c2fcab50712467eab4004583eb8fb7f89 * 256 ^ 96 +
  0x55ad340609f4b30283e4888325f1415a085125e8f7cdc99fd91dbd7280373c5b * 256 ^ 64 +
  0xd8823e3156348f5bae6dacd436c919c6dd53e23487da03fd02396306d248cda0 * 256 ^ 32 +
  0xe99f33420f577ee8ce54b67080280d1ec69821bcb6a8839396f965ab6ff72a70

theorem md5_collision_twins : Collide 64 compress md5Starts.state (pad twin) (pad otherTwin) :=
  @md5_collision twin otherTwin (by simp [twin, ofNumber]) (by simp [otherTwin, ofNumber])
    (by decide +kernel) (by decide +kernel)

end PasswordManager.Md5
