import PasswordManager.Bytes

/-! # The MD5 digest of `md5.c` -/

namespace PasswordManager.Md5

abbrev Word := BitVec 32

structure Context where
  total0 : Word
  total1 : Word
  state : Word × Word × Word × Word
  buffer : List Byte

def getUint32Le (b : List Byte) (i : Nat) : Word :=
  (b.getD i 0).setWidth 32 ||| (b.getD (i + 1) 0).setWidth 32 <<< 8 |||
    (b.getD (i + 2) 0).setWidth 32 <<< 16 ||| (b.getD (i + 3) 0).setWidth 32 <<< 24

def putUint32Le (n : Word) : List Byte :=
  [n.setWidth 8, (n >>> 8).setWidth 8, (n >>> 16).setWidth 8, (n >>> 24).setWidth 8]

def md5Starts : Context where
  total0 := 0
  total1 := 0
  state := (0x67452301, 0xEFCDAB89, 0x98BADCFE, 0x10325476)
  buffer := List.replicate 64 0

/-! ## One block -/

/-- One use of the macro `P`. The next use has its four variables turned by one place. -/
def step (f : Word → Word → Word → Word) (x : Nat → Word) (r : Word × Word × Word × Word)
    (p : Nat × Nat × Word) : Word × Word × Word × Word :=
  match r, p with
  | (a, b, c, d), (k, s, t) => (d, (a + f b c d + x k + t).rotateLeft s + b, b, c)

def round1 : List (Nat × Nat × Word) :=
  [(0, 7, 0xD76AA478), (1, 12, 0xE8C7B756), (2, 17, 0x242070DB), (3, 22, 0xC1BDCEEE),
   (4, 7, 0xF57C0FAF), (5, 12, 0x4787C62A), (6, 17, 0xA8304613), (7, 22, 0xFD469501),
   (8, 7, 0x698098D8), (9, 12, 0x8B44F7AF), (10, 17, 0xFFFF5BB1), (11, 22, 0x895CD7BE),
   (12, 7, 0x6B901122), (13, 12, 0xFD987193), (14, 17, 0xA679438E), (15, 22, 0x49B40821)]

def round2 : List (Nat × Nat × Word) :=
  [(1, 5, 0xF61E2562), (6, 9, 0xC040B340), (11, 14, 0x265E5A51), (0, 20, 0xE9B6C7AA),
   (5, 5, 0xD62F105D), (10, 9, 0x02441453), (15, 14, 0xD8A1E681), (4, 20, 0xE7D3FBC8),
   (9, 5, 0x21E1CDE6), (14, 9, 0xC33707D6), (3, 14, 0xF4D50D87), (8, 20, 0x455A14ED),
   (13, 5, 0xA9E3E905), (2, 9, 0xFCEFA3F8), (7, 14, 0x676F02D9), (12, 20, 0x8D2A4C8A)]

def round3 : List (Nat × Nat × Word) :=
  [(5, 4, 0xFFFA3942), (8, 11, 0x8771F681), (11, 16, 0x6D9D6122), (14, 23, 0xFDE5380C),
   (1, 4, 0xA4BEEA44), (4, 11, 0x4BDECFA9), (7, 16, 0xF6BB4B60), (10, 23, 0xBEBFBC70),
   (13, 4, 0x289B7EC6), (0, 11, 0xEAA127FA), (3, 16, 0xD4EF3085), (6, 23, 0x04881D05),
   (9, 4, 0xD9D4D039), (12, 11, 0xE6DB99E5), (15, 16, 0x1FA27CF8), (2, 23, 0xC4AC5665)]

def round4 : List (Nat × Nat × Word) :=
  [(0, 6, 0xF4292244), (7, 10, 0x432AFF97), (14, 15, 0xAB9423A7), (5, 21, 0xFC93A039),
   (12, 6, 0x655B59C3), (3, 10, 0x8F0CCC92), (10, 15, 0xFFEFF47D), (1, 21, 0x85845DD1),
   (8, 6, 0x6FA87E4F), (15, 10, 0xFE2CE6E0), (6, 15, 0xA3014314), (13, 21, 0x4E0811A1),
   (4, 6, 0xF7537E82), (11, 10, 0xBD3AF235), (2, 15, 0x2AD7D2BB), (9, 21, 0xEB86D391)]

def md5Process (ctx : Context) (data : List Byte) : Context :=
  let x := fun k => getUint32Le data (4 * k)
  let r := round1.foldl (step (fun x y z => z ^^^ (x &&& (y ^^^ z))) x) ctx.state
  let r := round2.foldl (step (fun x y z => y ^^^ (z &&& (x ^^^ y))) x) r
  let r := round3.foldl (step (fun x y z => x ^^^ y ^^^ z) x) r
  let r := round4.foldl (step (fun x y z => y ^^^ (x ||| ~~~z)) x) r
  match ctx.state, r with
  | (sa, sb, sc, sd), (a, b, c, d) => { ctx with state := (sa + a, sb + b, sc + c, sd + d) }

/-! ## The stream -/

/-- The loop over whole blocks of 64 bytes. -/
def processBlocks (ctx : Context) : Nat → List Byte → Context
  | 0, _ => ctx
  | n + 1, input => processBlocks (md5Process ctx (input.take 64)) n (input.drop 64)

def md5Update (ctx : Context) (input : List Byte) : Context :=
  if input.length = 0 then ctx
  else
    let left := (ctx.total0 &&& 0x3F).toNat
    let fill := 64 - left
    let ilen := BitVec.ofNat 32 input.length
    let total0 := ctx.total0 + ilen
    let total1 := if total0 < ilen then ctx.total1 + 1 else ctx.total1
    let ctx := { ctx with total0, total1 }
    if left ≠ 0 ∧ fill ≤ input.length then
      let buffer := ctx.buffer.take left ++ input.take fill
      let ctx := md5Process { ctx with buffer } buffer
      let input := input.drop fill
      let ctx := processBlocks ctx (input.length / 64) input
      let rest := input.drop (64 * (input.length / 64))
      { ctx with buffer := rest ++ ctx.buffer.drop rest.length }
    else
      let ctx := processBlocks ctx (input.length / 64) input
      let rest := input.drop (64 * (input.length / 64))
      { ctx with buffer := ctx.buffer.take left ++ rest ++ ctx.buffer.drop (left + rest.length) }

def md5Padding : List Byte := 0x80 :: List.replicate 63 0

def md5Finish (ctx : Context) : Buf 16 :=
  let high := ctx.total0 >>> 29 ||| ctx.total1 <<< 3
  let low := ctx.total0 <<< 3
  let last := (ctx.total0 &&& 0x3F).toNat
  let padn := if last < 56 then 56 - last else 120 - last
  let ctx := md5Update ctx (md5Padding.take padn)
  let ctx := md5Update ctx (putUint32Le low ++ putUint32Le high)
  match ctx.state with
  | (a, b, c, d) => ⟨putUint32Le a ++ putUint32Le b ++ putUint32Le c ++ putUint32Le d, rfl⟩

/-- `mbedtls_md5`: the digest of a whole buffer. -/
@[irreducible] def md5 (input : List Byte) : Buf 16 := md5Finish (md5Update md5Starts input)

end PasswordManager.Md5
