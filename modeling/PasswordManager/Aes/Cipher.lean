import PasswordManager.Bytes

/-! # AES-128 in CBC mode, as in `aes.c` -/

namespace PasswordManager.Aes

/-- The state of one block: `(*state)[i][j]` is byte `4 * i + j`. -/
abbrev Block := Vector Byte 16

def sbox : List Byte :=
  [0x63, 0x7c, 0x77, 0x7b, 0xf2, 0x6b, 0x6f, 0xc5, 0x30, 0x01, 0x67, 0x2b, 0xfe, 0xd7, 0xab, 0x76,
   0xca, 0x82, 0xc9, 0x7d, 0xfa, 0x59, 0x47, 0xf0, 0xad, 0xd4, 0xa2, 0xaf, 0x9c, 0xa4, 0x72, 0xc0,
   0xb7, 0xfd, 0x93, 0x26, 0x36, 0x3f, 0xf7, 0xcc, 0x34, 0xa5, 0xe5, 0xf1, 0x71, 0xd8, 0x31, 0x15,
   0x04, 0xc7, 0x23, 0xc3, 0x18, 0x96, 0x05, 0x9a, 0x07, 0x12, 0x80, 0xe2, 0xeb, 0x27, 0xb2, 0x75,
   0x09, 0x83, 0x2c, 0x1a, 0x1b, 0x6e, 0x5a, 0xa0, 0x52, 0x3b, 0xd6, 0xb3, 0x29, 0xe3, 0x2f, 0x84,
   0x53, 0xd1, 0x00, 0xed, 0x20, 0xfc, 0xb1, 0x5b, 0x6a, 0xcb, 0xbe, 0x39, 0x4a, 0x4c, 0x58, 0xcf,
   0xd0, 0xef, 0xaa, 0xfb, 0x43, 0x4d, 0x33, 0x85, 0x45, 0xf9, 0x02, 0x7f, 0x50, 0x3c, 0x9f, 0xa8,
   0x51, 0xa3, 0x40, 0x8f, 0x92, 0x9d, 0x38, 0xf5, 0xbc, 0xb6, 0xda, 0x21, 0x10, 0xff, 0xf3, 0xd2,
   0xcd, 0x0c, 0x13, 0xec, 0x5f, 0x97, 0x44, 0x17, 0xc4, 0xa7, 0x7e, 0x3d, 0x64, 0x5d, 0x19, 0x73,
   0x60, 0x81, 0x4f, 0xdc, 0x22, 0x2a, 0x90, 0x88, 0x46, 0xee, 0xb8, 0x14, 0xde, 0x5e, 0x0b, 0xdb,
   0xe0, 0x32, 0x3a, 0x0a, 0x49, 0x06, 0x24, 0x5c, 0xc2, 0xd3, 0xac, 0x62, 0x91, 0x95, 0xe4, 0x79,
   0xe7, 0xc8, 0x37, 0x6d, 0x8d, 0xd5, 0x4e, 0xa9, 0x6c, 0x56, 0xf4, 0xea, 0x65, 0x7a, 0xae, 0x08,
   0xba, 0x78, 0x25, 0x2e, 0x1c, 0xa6, 0xb4, 0xc6, 0xe8, 0xdd, 0x74, 0x1f, 0x4b, 0xbd, 0x8b, 0x8a,
   0x70, 0x3e, 0xb5, 0x66, 0x48, 0x03, 0xf6, 0x0e, 0x61, 0x35, 0x57, 0xb9, 0x86, 0xc1, 0x1d, 0x9e,
   0xe1, 0xf8, 0x98, 0x11, 0x69, 0xd9, 0x8e, 0x94, 0x9b, 0x1e, 0x87, 0xe9, 0xce, 0x55, 0x28, 0xdf,
   0x8c, 0xa1, 0x89, 0x0d, 0xbf, 0xe6, 0x42, 0x68, 0x41, 0x99, 0x2d, 0x0f, 0xb0, 0x54, 0xbb, 0x16]

def rsbox : List Byte :=
  [0x52, 0x09, 0x6a, 0xd5, 0x30, 0x36, 0xa5, 0x38, 0xbf, 0x40, 0xa3, 0x9e, 0x81, 0xf3, 0xd7, 0xfb,
   0x7c, 0xe3, 0x39, 0x82, 0x9b, 0x2f, 0xff, 0x87, 0x34, 0x8e, 0x43, 0x44, 0xc4, 0xde, 0xe9, 0xcb,
   0x54, 0x7b, 0x94, 0x32, 0xa6, 0xc2, 0x23, 0x3d, 0xee, 0x4c, 0x95, 0x0b, 0x42, 0xfa, 0xc3, 0x4e,
   0x08, 0x2e, 0xa1, 0x66, 0x28, 0xd9, 0x24, 0xb2, 0x76, 0x5b, 0xa2, 0x49, 0x6d, 0x8b, 0xd1, 0x25,
   0x72, 0xf8, 0xf6, 0x64, 0x86, 0x68, 0x98, 0x16, 0xd4, 0xa4, 0x5c, 0xcc, 0x5d, 0x65, 0xb6, 0x92,
   0x6c, 0x70, 0x48, 0x50, 0xfd, 0xed, 0xb9, 0xda, 0x5e, 0x15, 0x46, 0x57, 0xa7, 0x8d, 0x9d, 0x84,
   0x90, 0xd8, 0xab, 0x00, 0x8c, 0xbc, 0xd3, 0x0a, 0xf7, 0xe4, 0x58, 0x05, 0xb8, 0xb3, 0x45, 0x06,
   0xd0, 0x2c, 0x1e, 0x8f, 0xca, 0x3f, 0x0f, 0x02, 0xc1, 0xaf, 0xbd, 0x03, 0x01, 0x13, 0x8a, 0x6b,
   0x3a, 0x91, 0x11, 0x41, 0x4f, 0x67, 0xdc, 0xea, 0x97, 0xf2, 0xcf, 0xce, 0xf0, 0xb4, 0xe6, 0x73,
   0x96, 0xac, 0x74, 0x22, 0xe7, 0xad, 0x35, 0x85, 0xe2, 0xf9, 0x37, 0xe8, 0x1c, 0x75, 0xdf, 0x6e,
   0x47, 0xf1, 0x1a, 0x71, 0x1d, 0x29, 0xc5, 0x89, 0x6f, 0xb7, 0x62, 0x0e, 0xaa, 0x18, 0xbe, 0x1b,
   0xfc, 0x56, 0x3e, 0x4b, 0xc6, 0xd2, 0x79, 0x20, 0x9a, 0xdb, 0xc0, 0xfe, 0x78, 0xcd, 0x5a, 0xf4,
   0x1f, 0xdd, 0xa8, 0x33, 0x88, 0x07, 0xc7, 0x31, 0xb1, 0x12, 0x10, 0x59, 0x27, 0x80, 0xec, 0x5f,
   0x60, 0x51, 0x7f, 0xa9, 0x19, 0xb5, 0x4a, 0x0d, 0x2d, 0xe5, 0x7a, 0x9f, 0x93, 0xc9, 0x9c, 0xef,
   0xa0, 0xe0, 0x3b, 0x4d, 0xae, 0x2a, 0xf5, 0xb0, 0xc8, 0xeb, 0xbb, 0x3c, 0x83, 0x53, 0x99, 0x61,
   0x17, 0x2b, 0x04, 0x7e, 0xba, 0x77, 0xd6, 0x26, 0xe1, 0x69, 0x14, 0x63, 0x55, 0x21, 0x0c, 0x7d]

/-- The round constants that a 128-bit key reaches. -/
def rcon : List Byte := [0x8d, 0x01, 0x02, 0x04, 0x08, 0x10, 0x20, 0x40, 0x80, 0x1b, 0x36]

def getSBoxValue (num : Byte) : Byte := sbox.getD num.toNat 0

def getSBoxInvert (num : Byte) : Byte := rsbox.getD num.toNat 0

/-! ## The key schedule -/

/-- Word `i` of the schedule, put after the words before it. -/
def expandWord (roundKey : List Byte) (i : Nat) : List Byte :=
  let at' := fun k => roundKey.getD k 0
  let t := fun j => at' ((i - 1) * 4 + j)
  let tempa :=
    if i % 4 = 0 then
      [getSBoxValue (t 1) ^^^ rcon.getD (i / 4) 0, getSBoxValue (t 2), getSBoxValue (t 3),
        getSBoxValue (t 0)]
    else [t 0, t 1, t 2, t 3]
  roundKey ++ (List.range 4).map fun j => at' ((i - 4) * 4 + j) ^^^ tempa.getD j 0

def keyExpansion (key : List Byte) : List Byte :=
  (List.range' 4 40).foldl expandWord (key.take 16)

/-! ## The rounds -/

def addRoundKey (roundKey : List Byte) (round : Nat) (s : Block) : Block :=
  Vector.ofFn fun k => s[k] ^^^ roundKey.getD (round * 16 + k) 0

def subBytes (s : Block) : Block := s.map getSBoxValue

def invSubBytes (s : Block) : Block := s.map getSBoxInvert

def shiftRows (s : Block) : Block :=
  #v[s[0], s[5], s[10], s[15], s[4], s[9], s[14], s[3],
    s[8], s[13], s[2], s[7], s[12], s[1], s[6], s[11]]

def invShiftRows (s : Block) : Block :=
  #v[s[0], s[13], s[10], s[7], s[4], s[1], s[14], s[11],
    s[8], s[5], s[2], s[15], s[12], s[9], s[6], s[3]]

def xtime (x : Byte) : Byte := x <<< 1 ^^^ (x >>> 7 &&& 1) * 0x1b

def multiply (x y : Byte) : Byte :=
  (y &&& 1) * x ^^^ (y >>> 1 &&& 1) * xtime x ^^^ (y >>> 2 &&& 1) * xtime (xtime x) ^^^
    (y >>> 3 &&& 1) * xtime (xtime (xtime x)) ^^^ (y >>> 4 &&& 1) * xtime (xtime (xtime (xtime x)))

def mixByte (x next a b c d : Byte) : Byte := x ^^^ (xtime (x ^^^ next) ^^^ (a ^^^ b ^^^ c ^^^ d))

def mixColumn (a b c d : Byte) : Byte × Byte × Byte × Byte :=
  (mixByte a b a b c d, mixByte b c a b c d, mixByte c d a b c d, mixByte d a a b c d)

def invMixColumn (a b c d : Byte) : Byte × Byte × Byte × Byte :=
  (multiply a 0x0e ^^^ multiply b 0x0b ^^^ multiply c 0x0d ^^^ multiply d 0x09,
   multiply a 0x09 ^^^ multiply b 0x0e ^^^ multiply c 0x0b ^^^ multiply d 0x0d,
   multiply a 0x0d ^^^ multiply b 0x09 ^^^ multiply c 0x0e ^^^ multiply d 0x0b,
   multiply a 0x0b ^^^ multiply b 0x0d ^^^ multiply c 0x09 ^^^ multiply d 0x0e)

def onColumns (f : Byte → Byte → Byte → Byte → Byte × Byte × Byte × Byte) (s : Block) : Block :=
  let p := f s[0] s[1] s[2] s[3]
  let q := f s[4] s[5] s[6] s[7]
  let r := f s[8] s[9] s[10] s[11]
  let t := f s[12] s[13] s[14] s[15]
  #v[p.1, p.2.1, p.2.2.1, p.2.2.2, q.1, q.2.1, q.2.2.1, q.2.2.2,
    r.1, r.2.1, r.2.2.1, r.2.2.2, t.1, t.2.1, t.2.2.1, t.2.2.2]

def mixColumns (s : Block) : Block := onColumns mixColumn s

def invMixColumns (s : Block) : Block := onColumns invMixColumn s

/-- Rounds 1 to `n`. -/
def rounds (roundKey : List Byte) : Nat → Block → Block
  | 0, s => s
  | n + 1, s =>
    addRoundKey roundKey (n + 1) (mixColumns (shiftRows (subBytes (rounds roundKey n s))))

/-- Rounds `n` down to 1. -/
def invRounds (roundKey : List Byte) : Nat → Block → Block
  | 0, s => s
  | n + 1, s =>
    invRounds roundKey n (invMixColumns (addRoundKey roundKey (n + 1) (invSubBytes (invShiftRows s))))

def cipher (roundKey : List Byte) (s : Block) : Block :=
  addRoundKey roundKey 10 (shiftRows (subBytes (rounds roundKey 9 (addRoundKey roundKey 0 s))))

def invCipher (roundKey : List Byte) (s : Block) : Block :=
  addRoundKey roundKey 0 (invSubBytes (invShiftRows (invRounds roundKey 9 (addRoundKey roundKey 10 s))))

/-! ## CBC mode -/

def blockCopy (input : List Byte) : Block := Vector.ofFn fun k => input.getD k 0

def xorWithIv (buf iv : Block) : Block := Vector.zipWith (· ^^^ ·) buf iv

def encryptLoop (roundKey : List Byte) : Nat → Block → List Byte → List Byte
  | 0, _, _ => []
  | n + 1, iv, input =>
    let output := cipher roundKey (xorWithIv (blockCopy input) iv)
    output.toList ++ encryptLoop roundKey n output (input.drop 16)

def decryptLoop (roundKey : List Byte) : Nat → Block → List Byte → List Byte
  | 0, _, _ => []
  | n + 1, iv, input =>
    let output := xorWithIv (invCipher roundKey (blockCopy input)) iv
    output.toList ++ decryptLoop roundKey n (blockCopy input) (input.drop 16)

-- Every caller passes a length of whole blocks, so `remainders` is 0 in both functions.

@[irreducible] def aes128CbcEncryptBuffer (input : List Byte) (length : Nat) (key iv : List Byte) :
    List Byte :=
  encryptLoop (keyExpansion key) (length / 16) (blockCopy iv) input

@[irreducible] def aes128CbcDecryptBuffer (input : List Byte) (length : Nat) (key iv : List Byte) :
    List Byte :=
  decryptLoop (keyExpansion key) (length / 16) (blockCopy iv) input

end PasswordManager.Aes
