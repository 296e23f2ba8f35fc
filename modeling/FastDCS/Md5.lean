import FastDCS.MachineIntegers
import FastDCS.Strings

/-!
`md5.c` of libconhash and `md5_hash.cc`, which are the same code, with the hashes that are
made of a digest.
-/

namespace FastDCS.Md5

open FastDCS.Strings

/-- The four words of `abcd`. -/
structure Registers where
  a : UInt32
  b : UInt32
  c : UInt32
  d : UInt32
deriving DecidableEq

/-- `md5_state_t`; `buf` has 64 bytes. -/
structure Md5State where
  count0 : UInt32
  count1 : UInt32
  abcd : Registers
  buf : List UInt8

section Process

def tMask : UInt32 := ~~~0

def rotateLeft (x : UInt32) (n : UInt32) : UInt32 := (x <<< n) ||| (x >>> (32 - n))

def F (x y z : UInt32) : UInt32 := (x &&& y) ||| (~~~x &&& z)

def G (x y z : UInt32) : UInt32 := (x &&& z) ||| (y &&& ~~~z)

def H (x y z : UInt32) : UInt32 := x ^^^ y ^^^ z

def I (x y z : UInt32) : UInt32 := y ^^^ (x ||| ~~~z)

/-- The arguments `k`, `s` and `Ti` of `SET`. -/
structure Operands where
  k : Nat
  s : UInt32
  t : UInt32

/-- `SET`: the new value of the register that comes first. -/
def setRegister (f : UInt32 → UInt32 → UInt32 → UInt32) (X : Nat → UInt32) (a b c d : UInt32)
    (o : Operands) : UInt32 :=
  let t := a + f b c d + X o.k + o.t
  rotateLeft t o.s + b

/-- Four lines `SET(a, b, c, d, ..)`, `SET(d, a, b, c, ..)`, `SET(c, d, a, b, ..)` and
`SET(b, c, d, a, ..)`. -/
def row (f : UInt32 → UInt32 → UInt32 → UInt32) (X : Nat → UInt32) (o₁ o₂ o₃ o₄ : Operands)
    (r : Registers) : Registers :=
  let a := setRegister f X r.a r.b r.c r.d o₁
  let d := setRegister f X r.d a r.b r.c o₂
  let c := setRegister f X r.c d a r.b o₃
  let b := setRegister f X r.b c d a o₄
  ⟨a, b, c, d⟩

def round1 (X : Nat → UInt32) (r : Registers) : Registers :=
  let r := row F X ⟨0, 7, tMask ^^^ 0x28955b87⟩ ⟨1, 12, tMask ^^^ 0x173848a9⟩
    ⟨2, 17, 0x242070db⟩ ⟨3, 22, tMask ^^^ 0x3e423111⟩ r
  let r := row F X ⟨4, 7, tMask ^^^ 0x0a83f050⟩ ⟨5, 12, 0x4787c62a⟩
    ⟨6, 17, tMask ^^^ 0x57cfb9ec⟩ ⟨7, 22, tMask ^^^ 0x02b96afe⟩ r
  let r := row F X ⟨8, 7, 0x698098d8⟩ ⟨9, 12, tMask ^^^ 0x74bb0850⟩
    ⟨10, 17, tMask ^^^ 0x0000a44e⟩ ⟨11, 22, tMask ^^^ 0x76a32841⟩ r
  row F X ⟨12, 7, 0x6b901122⟩ ⟨13, 12, tMask ^^^ 0x02678e6c⟩
    ⟨14, 17, tMask ^^^ 0x5986bc71⟩ ⟨15, 22, 0x49b40821⟩ r

def round2 (X : Nat → UInt32) (r : Registers) : Registers :=
  let r := row G X ⟨1, 5, tMask ^^^ 0x09e1da9d⟩ ⟨6, 9, tMask ^^^ 0x3fbf4cbf⟩
    ⟨11, 14, 0x265e5a51⟩ ⟨0, 20, tMask ^^^ 0x16493855⟩ r
  let r := row G X ⟨5, 5, tMask ^^^ 0x29d0efa2⟩ ⟨10, 9, 0x02441453⟩
    ⟨15, 14, tMask ^^^ 0x275e197e⟩ ⟨4, 20, tMask ^^^ 0x182c0437⟩ r
  let r := row G X ⟨9, 5, 0x21e1cde6⟩ ⟨14, 9, tMask ^^^ 0x3cc8f829⟩
    ⟨3, 14, tMask ^^^ 0x0b2af278⟩ ⟨8, 20, 0x455a14ed⟩ r
  row G X ⟨13, 5, tMask ^^^ 0x561c16fa⟩ ⟨2, 9, tMask ^^^ 0x03105c07⟩
    ⟨7, 14, 0x676f02d9⟩ ⟨12, 20, tMask ^^^ 0x72d5b375⟩ r

def round3 (X : Nat → UInt32) (r : Registers) : Registers :=
  let r := row H X ⟨5, 4, tMask ^^^ 0x0005c6bd⟩ ⟨8, 11, tMask ^^^ 0x788e097e⟩
    ⟨11, 16, 0x6d9d6122⟩ ⟨14, 23, tMask ^^^ 0x021ac7f3⟩ r
  let r := row H X ⟨1, 4, tMask ^^^ 0x5b4115bb⟩ ⟨4, 11, 0x4bdecfa9⟩
    ⟨7, 16, tMask ^^^ 0x0944b49f⟩ ⟨10, 23, tMask ^^^ 0x4140438f⟩ r
  let r := row H X ⟨13, 4, 0x289b7ec6⟩ ⟨0, 11, tMask ^^^ 0x155ed805⟩
    ⟨3, 16, tMask ^^^ 0x2b10cf7a⟩ ⟨6, 23, 0x04881d05⟩ r
  row H X ⟨9, 4, tMask ^^^ 0x262b2fc6⟩ ⟨12, 11, tMask ^^^ 0x1924661a⟩
    ⟨15, 16, 0x1fa27cf8⟩ ⟨2, 23, tMask ^^^ 0x3b53a99a⟩ r

def round4 (X : Nat → UInt32) (r : Registers) : Registers :=
  let r := row I X ⟨0, 6, tMask ^^^ 0x0bd6ddbb⟩ ⟨7, 10, 0x432aff97⟩
    ⟨14, 15, tMask ^^^ 0x546bdc58⟩ ⟨5, 21, tMask ^^^ 0x036c5fc6⟩ r
  let r := row I X ⟨12, 6, 0x655b59c3⟩ ⟨3, 10, tMask ^^^ 0x70f3336d⟩
    ⟨10, 15, tMask ^^^ 0x00100b82⟩ ⟨1, 21, tMask ^^^ 0x7a7ba22e⟩ r
  let r := row I X ⟨8, 6, 0x6fa87e4f⟩ ⟨15, 10, tMask ^^^ 0x01d3191f⟩
    ⟨6, 15, tMask ^^^ 0x5cfebceb⟩ ⟨13, 21, 0x4e0811a1⟩ r
  row I X ⟨4, 6, tMask ^^^ 0x08ac817d⟩ ⟨11, 10, tMask ^^^ 0x42c50dca⟩
    ⟨2, 15, 0x2ad7d2bb⟩ ⟨9, 21, tMask ^^^ 0x14792c6e⟩ r

def byteAt (data : List UInt8) (i : Nat) : UInt8 := data.getD i 0

/-- A word of the data: loaded as it lies there on a little-endian machine, and put together
from its bytes on another. -/
def wordAt (littleEndian : Bool) (data : List UInt8) (k : Nat) : UInt32 :=
  let xp := byteAt (data.drop (4 * k))
  if littleEndian then
    ⟨(xp 3).toBitVec ++ (xp 2).toBitVec ++ (xp 1).toBitVec ++ (xp 0).toBitVec⟩
  else
    (xp 0).toUInt32 + ((xp 1).toUInt32 <<< 8) + ((xp 2).toUInt32 <<< 16) +
      ((xp 3).toUInt32 <<< 24)

def md5Process (littleEndian : Bool) (abcd : Registers) (data : List UInt8) : Registers :=
  let X := wordAt littleEndian data
  let r := round4 X (round3 X (round2 X (round1 X abcd)))
  ⟨abcd.a + r.a, abcd.b + r.b, abcd.c + r.c, abcd.d + r.d⟩

end Process

variable (littleEndian : Bool)

/-- `md5_init`; what is in `buf` stays. -/
def md5Init (buf : List UInt8) : Md5State where
  count0 := 0
  count1 := 0
  abcd := ⟨0x67452301, tMask ^^^ 0x10325476, tMask ^^^ 0x67452301, 0x10325476⟩
  buf := buf

/-- `memcpy` of the first bytes into a part of `buf`. -/
def copyInto (buf : List UInt8) (offset : Nat) (p : List UInt8) (n : Nat) : List UInt8 :=
  buf.take offset ++ p.take n ++ buf.drop (offset + n)

/-- `for (; left >= 64; p += 64, left -= 64)`, with `p` and `left` behind the loop. -/
def fullBlocks : (turns : Nat) → Registers → List UInt8 → (left : Nat) →
    Registers × List UInt8 × Nat
  | 0, abcd, p, left => (abcd, p, left)
  | turns + 1, abcd, p, left =>
      if 64 ≤ left then
        fullBlocks turns (md5Process littleEndian abcd (p.take 64)) (p.drop 64) (left - 64)
      else (abcd, p, left)

/-- The message length of `md5_append`. -/
def addCount (pms : Md5State) (nbytes : Nat) : Md5State :=
  let nbits := UInt32.ofNat (nbytes <<< 3)
  let count1 := pms.count1 + UInt32.ofNat (nbytes >>> 29)
  let count0 := pms.count0 + nbits
  { pms with count0 := count0, count1 := if count0 < nbits then count1 + 1 else count1 }

/-- The full blocks of `md5_append` and the final partial one. -/
def appendBlocks (pms : Md5State) (p : List UInt8) (left : Nat) : Md5State :=
  let (abcd, p, left) := fullBlocks littleEndian left pms.abcd p left
  { pms with abcd := abcd, buf := if left = 0 then pms.buf else copyInto pms.buf 0 p left }

/-- `md5_append`; there are at least `nbytes` bytes behind `data`. -/
def md5Append (pms : Md5State) (data : List UInt8) (nbytes : Int) : Md5State :=
  let offset := ((pms.count0 >>> 3) &&& 63).toNat
  if nbytes ≤ 0 then pms
  else
    let n := nbytes.toNat
    let pms := addCount pms n
    if offset = 0 then appendBlocks littleEndian pms data n
    else
      let copy := if offset + n > 64 then 64 - offset else n
      let pms := { pms with buf := copyInto pms.buf offset data copy }
      if offset + copy < 64 then pms
      else
        appendBlocks littleEndian { pms with abcd := md5Process littleEndian pms.abcd pms.buf }
          (data.drop copy) (n - copy)

def pad : List UInt8 := 0x80 :: List.replicate 63 0

/-- `(md5_byte_t)(words[i >> 2] >> ((i & 3) << 3))` for a word. -/
def bytesOfWord (x : UInt32) : List UInt8 :=
  [x.toUInt8, (x >>> 8).toUInt8, (x >>> 16).toUInt8, (x >>> 24).toUInt8]

/-- `md5_finish`: the digest. -/
def md5Finish (pms : Md5State) : List UInt8 :=
  let data := bytesOfWord pms.count0 ++ bytesOfWord pms.count1
  let padding := (((55 : UInt32) - (pms.count0 >>> 3)) &&& 63) + 1
  let pms := md5Append littleEndian pms pad padding.toNat
  let pms := md5Append littleEndian pms data 8
  bytesOfWord pms.abcd.a ++ bytesOfWord pms.abcd.b ++ bytesOfWord pms.abcd.c ++
    bytesOfWord pms.abcd.d

/-- The bytes of a string. -/
def bytesOf (s : Str) : List UInt8 := s.map fun ch => UInt8.ofNat ch.toNat

/-- `conhash_md5_digest`, where `buf` was never set. -/
def conhashMd5Digest (buf : List UInt8) (instr : Str) : List UInt8 :=
  md5Finish littleEndian
    (md5Append littleEndian (md5Init buf) (bytesOf instr) instr.length)

/-- Four bytes of a digest as a number. -/
def digestWord (digest : List UInt8) (i : Nat) : Int :=
  let at' (j : Nat) : Nat := (byteAt digest (i * 4 + j)).toNat &&& 0xFF
  ((at' 3 <<< 24) ||| (at' 2 <<< 16) ||| (at' 1 <<< 8) ||| at' 0 : Nat)

/-- `__conhash_hash_def`. -/
def conhashHashDef (buf : List UInt8) (instr : Str) : Int :=
  let digest := conhashMd5Digest littleEndian buf instr
  (List.range 4).foldl (fun hash i => hash + digestWord digest i) 0

/-- A `uint64` as it lies in the memory of a little-endian machine. -/
def loadUint64 (bytes : List UInt8) : UInt64 :=
  bytes.foldr (fun byte (value : UInt64) => value <<< 8 ||| byte.toUInt64) 0

/-- `MD5Hash` on a little-endian machine. -/
def md5Hash (buf : List UInt8) (s : List UInt8) (len : UInt32) : UInt64 :=
  let digest :=
    md5Finish true (md5Append true (md5Init buf) s (MachineIntegers.narrow 31 len.toNat))
  loadUint64 (digest.take 8)

end FastDCS.Md5
