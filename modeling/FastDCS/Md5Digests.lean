import Mathlib.Data.List.Basic
import Mathlib.Data.Nat.Digits.Lemmas
import FastDCS.BlockStreams
import FastDCS.Md5

/-!
The digest of a message as RFC 1321 defines it, and that `md5_init`, `md5_append` and
`md5_finish` make it of a message that comes in any pieces.
-/

namespace FastDCS.Md5

open FastDCS.BlockStreams
open FastDCS.Strings

section Definition

/-- The functions of the four rounds. -/
def roundFunction : Nat → UInt32 → UInt32 → UInt32 → UInt32
  | 0 => F
  | 1 => G
  | 2 => H
  | _ => I

/-- The word of the block that a step takes. -/
def wordIndex (i : Nat) : Nat :=
  match i / 16 with
  | 0 => i % 16
  | 1 => (5 * i + 1) % 16
  | 2 => (3 * i + 5) % 16
  | _ => 7 * i % 16

def shifts : Nat → List UInt32
  | 0 => [7, 12, 17, 22]
  | 1 => [5, 9, 14, 20]
  | 2 => [4, 11, 16, 23]
  | _ => [6, 10, 15, 21]

/-- The whole part of 4294967296 times the absolute value of the sine of 1, 2, .. 64. -/
def sines : List UInt32 :=
  [0xd76aa478, 0xe8c7b756, 0x242070db, 0xc1bdceee, 0xf57c0faf, 0x4787c62a, 0xa8304613, 0xfd469501,
    0x698098d8, 0x8b44f7af, 0xffff5bb1, 0x895cd7be, 0x6b901122, 0xfd987193, 0xa679438e, 0x49b40821,
    0xf61e2562, 0xc040b340, 0x265e5a51, 0xe9b6c7aa, 0xd62f105d, 0x02441453, 0xd8a1e681, 0xe7d3fbc8,
    0x21e1cde6, 0xc33707d6, 0xf4d50d87, 0x455a14ed, 0xa9e3e905, 0xfcefa3f8, 0x676f02d9, 0x8d2a4c8a,
    0xfffa3942, 0x8771f681, 0x6d9d6122, 0xfde5380c, 0xa4beea44, 0x4bdecfa9, 0xf6bb4b60, 0xbebfbc70,
    0x289b7ec6, 0xeaa127fa, 0xd4ef3085, 0x04881d05, 0xd9d4d039, 0xe6db99e5, 0x1fa27cf8, 0xc4ac5665,
    0xf4292244, 0x432aff97, 0xab9423a7, 0xfc93a039, 0x655b59c3, 0x8f0ccc92, 0xffeff47d, 0x85845dd1,
    0x6fa87e4f, 0xfe2ce6e0, 0xa3014314, 0x4e0811a1, 0xf7537e82, 0xbd3af235, 0x2ad7d2bb, 0xeb86d391]

/-- One operation, after which the registers change places. -/
def operate (f : UInt32 → UInt32 → UInt32 → UInt32) (X : Nat → UInt32) (r : Registers)
    (o : Operands) : Registers :=
  ⟨r.d, r.b + .ofBitVec ((r.a + f r.b r.c r.d + X o.k + o.t).toBitVec.rotateLeft o.s.toNat),
    r.b, r.c⟩

def operandsOf (i : Nat) : Operands :=
  ⟨wordIndex i, (shifts (i / 16)).getD (i % 4) 0, sines.getD i 0⟩

/-- A word of a block, low-order byte first. -/
def blockWord (block : List UInt8) (k : Nat) : UInt32 :=
  .ofNat ((byteAt block (4 * k)).toNat + 256 * (byteAt block (4 * k + 1)).toNat +
    256 ^ 2 * (byteAt block (4 * k + 2)).toNat + 256 ^ 3 * (byteAt block (4 * k + 3)).toNat)

/-- The 64 operations on a block. -/
def compress (abcd : Registers) (block : List UInt8) : Registers :=
  let r := (List.range 64).foldl
    (fun r i => operate (roundFunction (i / 16)) (blockWord block) r (operandsOf i)) abcd
  ⟨abcd.a + r.a, abcd.b + r.b, abcd.c + r.c, abcd.d + r.d⟩

/-- A number in bytes, the lowest first. -/
def lowFirst (count n : Nat) : List UInt8 :=
  (List.range count).map fun i => UInt8.ofNat (n / 256 ^ i)

/-- The message, a one, zeros up to 56 bytes behind the last full block, and the length in
bits. -/
def padded (message : List UInt8) : List UInt8 :=
  message ++ (0x80 :: List.replicate ((119 - message.length % 64) % 64) 0) ++
    lowFirst 8 (8 * message.length)

def start : Registers := ⟨0x67452301, 0xefcdab89, 0x98badcfe, 0x10325476⟩

def md5 (message : List UInt8) : Registers :=
  (blocks 64 ((padded message).length / 64) (padded message)).foldl compress start

def digestOf (r : Registers) : List UInt8 :=
  lowFirst 4 r.a.toNat ++ lowFirst 4 r.b.toNat ++ lowFirst 4 r.c.toNat ++ lowFirst 4 r.d.toNat

end Definition

section Blocks

variable {littleEndian : Bool} {X : Nat → UInt32} {f : UInt32 → UInt32 → UInt32 → UInt32}

theorem rotateLeft_eq (x : UInt32) {n : UInt32} (hpos : 0 < n.toNat) (hlt : n.toNat < 32) :
    rotateLeft x n = .ofBitVec (x.toBitVec.rotateLeft n.toNat) := by
  have hleft : n.toNat % 32 = n.toNat := Nat.mod_eq_of_lt hlt
  have hsub : (32 - n).toNat = 32 - n.toNat := by
    rw [UInt32.toNat_sub_of_le]
    · rfl
    · rw [UInt32.le_iff_toNat_le]
      exact hlt.le
  have hright : (32 - n.toNat) % 32 = 32 - n.toNat := by
    apply Nat.mod_eq_of_lt
    omega
  apply UInt32.toBitVec_inj.mp
  rw [BitVec.rotateLeft, hleft, BitVec.rotateLeftAux, rotateLeft, UInt32.toBitVec_or,
    UInt32.toBitVec_shiftLeft, UInt32.toBitVec_shiftRight, BitVec.shiftLeft_eq',
    BitVec.ushiftRight_eq', BitVec.toNat_umod, BitVec.toNat_umod, UInt32.toNat_toBitVec,
    UInt32.toNat_toBitVec]
  change x.toBitVec <<< (n.toNat % 32) ||| x.toBitVec >>> ((32 - n).toNat % 32) = _
  rw [hleft, hsub, hright]

/-- Shifts that move a part of a word. -/
def Moves (o : Operands) : Prop := 0 < o.s.toNat ∧ o.s.toNat < 32

instance (o : Operands) : Decidable (Moves o) :=
  inferInstanceAs (Decidable (0 < o.s.toNat ∧ o.s.toNat < 32))

theorem setRegister_eq {o : Operands} (h : Moves o) (r : Registers) :
    setRegister f X r.a r.b r.c r.d o = (operate f X r o).b := by
  simp only [setRegister, operate, rotateLeft_eq _ h.1 h.2, UInt32.add_comm r.b]

/-- Four lines are four operations. -/
theorem row_eq {o₁ o₂ o₃ o₄ : Operands} (h₁ : Moves o₁) (h₂ : Moves o₂) (h₃ : Moves o₃)
    (h₄ : Moves o₄) (r : Registers) :
    row f X o₁ o₂ o₃ o₄ r = [o₁, o₂, o₃, o₄].foldl (operate f X) r := by
  have hfirst := setRegister_eq (f := f) (X := X) h₁ r
  have hsecond := setRegister_eq (f := f) (X := X) h₂ (operate f X r o₁)
  have hthird := setRegister_eq (f := f) (X := X) h₃ (operate f X (operate f X r o₁) o₂)
  have hfourth := setRegister_eq (f := f) (X := X) h₄
    (operate f X (operate f X (operate f X r o₁) o₂) o₃)
  dsimp only [operate] at hfirst hsecond hthird hfourth ⊢
  simp only [row, List.foldl_cons, List.foldl_nil, operate, hfirst, hsecond, hthird, hfourth]

theorem toNat_sum (x₀ x₁ x₂ x₃ : UInt8) :
    (x₀.toUInt32 + (x₁.toUInt32 <<< 8) + (x₂.toUInt32 <<< 16) + (x₃.toUInt32 <<< 24)).toNat =
      x₀.toNat + 256 * x₁.toNat + 256 ^ 2 * x₂.toNat + 256 ^ 3 * x₃.toNat := by
  have h₀ := x₀.toNat_lt
  have h₁ := x₁.toNat_lt
  have h₂ := x₂.toNat_lt
  have h₃ := x₃.toNat_lt
  simp [UInt32.toNat_add, UInt32.toNat_shiftLeft, Nat.shiftLeft_eq]
  omega

theorem toNat_append (x₀ x₁ x₂ x₃ : UInt8) :
    (x₃.toBitVec ++ x₂.toBitVec ++ x₁.toBitVec ++ x₀.toBitVec).toNat =
      x₀.toNat + 256 * x₁.toNat + 256 ^ 2 * x₂.toNat + 256 ^ 3 * x₃.toNat := by
  have h₀ := x₀.toNat_lt
  have h₁ := x₁.toNat_lt
  have h₂ := x₂.toNat_lt
  simp only [BitVec.toNat_append, UInt8.toNat_toBitVec]
  rw [← Nat.shiftLeft_add_eq_or_of_lt h₂, ← Nat.shiftLeft_add_eq_or_of_lt h₁,
    ← Nat.shiftLeft_add_eq_or_of_lt h₀]
  simp only [Nat.shiftLeft_eq]
  omega

/-- Both kinds of machines take the same words. -/
theorem wordAt_eq (littleEndian : Bool) (data : List UInt8) (k : Nat) :
    wordAt littleEndian data k = blockWord data k := by
  have hbyte (i : Nat) : byteAt (data.drop (4 * k)) i = byteAt data (4 * k + i) := by
    simp [byteAt, List.getD_eq_getElem?_getD, List.getElem?_drop]
  have hlt (i : Nat) := (byteAt data i).toNat_lt
  have hword : (blockWord data k).toNat = (byteAt data (4 * k)).toNat +
      256 * (byteAt data (4 * k + 1)).toNat + 256 ^ 2 * (byteAt data (4 * k + 2)).toNat +
      256 ^ 3 * (byteAt data (4 * k + 3)).toNat := by
    have h₀ := hlt (4 * k)
    have h₁ := hlt (4 * k + 1)
    have h₂ := hlt (4 * k + 2)
    have h₃ := hlt (4 * k + 3)
    rw [blockWord, UInt32.toNat_ofNat_of_lt']
    change _ < 2 ^ 32
    omega
  apply UInt32.toNat_inj.mp
  rw [hword]
  cases littleEndian with
  | false =>
      simp only [wordAt, hbyte, Bool.false_eq_true, if_false]
      exact toNat_sum _ _ _ _
  | true =>
      simp only [wordAt, hbyte, if_true]
      exact toNat_append _ _ _ _

theorem moves_operandsOf : ∀ i < 64, Moves (operandsOf i) := by
  decide

/-- Four operations from `i` on. -/
theorem row_operandsOf (i : Nat) (hi : i + 4 ≤ 64) (r : Registers) :
    row f X (operandsOf i) (operandsOf (i + 1)) (operandsOf (i + 2)) (operandsOf (i + 3)) r =
      (List.range' i 4).foldl (fun r i => operate f X r (operandsOf i)) r := by
  rw [row_eq (moves_operandsOf i (by omega)) (moves_operandsOf (i + 1) (by omega))
    (moves_operandsOf (i + 2) (by omega)) (moves_operandsOf (i + 3) (by omega))]
  rfl

/-- A round is sixteen operations from `i` on. -/
theorem rows_eq (i : Nat) (hi : i + 16 ≤ 64) (r : Registers) :
    row f X (operandsOf (i + 12)) (operandsOf (i + 13)) (operandsOf (i + 14)) (operandsOf (i + 15))
      (row f X (operandsOf (i + 8)) (operandsOf (i + 9)) (operandsOf (i + 10)) (operandsOf (i + 11))
        (row f X (operandsOf (i + 4)) (operandsOf (i + 5)) (operandsOf (i + 6))
          (operandsOf (i + 7))
          (row f X (operandsOf i) (operandsOf (i + 1)) (operandsOf (i + 2))
            (operandsOf (i + 3)) r))) =
      (List.range' i 16).foldl (fun r i => operate f X r (operandsOf i)) r := by
  rw [row_operandsOf i (by omega), row_operandsOf (i + 4) (by omega),
    row_operandsOf (i + 8) (by omega), row_operandsOf (i + 12) (by omega), ← List.foldl_append,
    ← List.foldl_append, ← List.foldl_append]
  rfl

theorem round1_eq (r : Registers) :
    round1 X r = (List.range' 0 16).foldl (fun r i => operate F X r (operandsOf i)) r :=
  rows_eq 0 (by decide) r

theorem round2_eq (r : Registers) :
    round2 X r = (List.range' 16 16).foldl (fun r i => operate G X r (operandsOf i)) r :=
  rows_eq 16 (by decide) r

theorem round3_eq (r : Registers) :
    round3 X r = (List.range' 32 16).foldl (fun r i => operate H X r (operandsOf i)) r :=
  rows_eq 32 (by decide) r

theorem round4_eq (r : Registers) :
    round4 X r = (List.range' 48 16).foldl (fun r i => operate I X r (operandsOf i)) r :=
  rows_eq 48 (by decide) r

theorem foldl_round (round : Nat) (r : Registers) :
    (List.range' (16 * round) 16).foldl
        (fun r i => operate (roundFunction (i / 16)) X r (operandsOf i)) r =
      (List.range' (16 * round) 16).foldl
        (fun r i => operate (roundFunction round) X r (operandsOf i)) r := by
  apply List.foldl_ext
  intro r i hi
  rw [List.mem_range'_1] at hi
  rw [show i / 16 = round by omega]

/-- The unrolled rounds are the 64 operations in a loop. -/
theorem md5Process_eq (littleEndian : Bool) (abcd : Registers) (data : List UInt8) :
    md5Process littleEndian abcd data = compress abcd data := by
  have hwords : wordAt littleEndian data = blockWord data :=
    funext fun k => wordAt_eq littleEndian data k
  have hrange : List.range 64 = List.range' (16 * 0) 16 ++ List.range' (16 * 1) 16 ++
      List.range' (16 * 2) 16 ++ List.range' (16 * 3) 16 := by
    decide
  rw [md5Process, hwords, compress, hrange, List.foldl_append, List.foldl_append,
    List.foldl_append, foldl_round, foldl_round, foldl_round, foldl_round]
  simp only [round1_eq, round2_eq, round3_eq, round4_eq]
  rfl

end Blocks

section Streams

variable {littleEndian : Bool} {pms : Md5State} {abcd : Registers} {p data message : List UInt8}
  {left n : Nat}

/-- The loop takes the full blocks and leaves less than one. -/
theorem fullBlocks_eq (littleEndian : Bool) (turns : Nat) (hturns : left ≤ turns) (hlength : left ≤ p.length) :
    ∃ abcd' p', fullBlocks littleEndian turns abcd p left = (abcd', p', left % 64) ∧
      left % 64 ≤ p'.length ∧
      absorb 64 compress ⟨abcd, []⟩ (p.take left) = ⟨abcd', p'.take (left % 64)⟩ := by
  induction turns generalizing abcd p left with
  | zero =>
      obtain rfl : left = 0 := by omega
      exact ⟨abcd, p, rfl, Nat.zero_le _, rfl⟩
  | succ turns ih =>
      by_cases hfull : 64 ≤ left
      · have hblock : (p.take 64).length = 64 := by
          rw [List.length_take]
          omega
        have hne : p.take 64 ≠ [] := by
          apply List.ne_nil_of_length_pos
          omega
        have hmod : (left - 64) % 64 = left % 64 := by omega
        have hrest : left - 64 ≤ (p.drop 64).length := by
          rw [List.length_drop]
          omega
        obtain ⟨abcd', p', hblocks, hle, habsorb⟩ :=
          @ih (compress abcd (p.take 64)) (p.drop 64) (left - 64) (by omega) hrest
        rw [hmod] at hblocks hle habsorb
        refine ⟨abcd', p', ?_, hle, ?_⟩
        · rw [fullBlocks, if_pos hfull, md5Process_eq, hblocks]
        · have hsplit : p.take left = p.take 64 ++ (p.drop 64).take (left - 64) := by
            rw [← List.take_add, Nat.add_sub_cancel' hfull]
          rw [hsplit, absorb_append, absorb_block hblock hne, habsorb]
      · have hmod : left % 64 = left := Nat.mod_eq_of_lt (by omega)
        refine ⟨abcd, p, ?_, ?_, ?_⟩
        · rw [fullBlocks, if_neg hfull, hmod]
        · rwa [hmod]
        · have hshort : ([] : List UInt8).length + (p.take left).length < 64 := by
            rw [List.length_nil, List.length_take]
            omega
          rw [absorb_of_short hshort, hmod]
          rfl

theorem length_copyInto (buf p : List UInt8) (offset n : Nat) (hbuf : buf.length = 64)
    (hfits : offset + n ≤ 64) (hp : n ≤ p.length) : (copyInto buf offset p n).length = 64 := by
  simp only [copyInto, List.length_append, List.length_take, List.length_drop]
  omega

theorem take_copyInto (buf p : List UInt8) (offset n : Nat) (hbuf : buf.length = 64)
    (hfits : offset + n ≤ 64) (hp : n ≤ p.length) :
    (copyInto buf offset p n).take (offset + n) = buf.take offset ++ p.take n := by
  rw [copyInto]
  apply List.take_left'
  simp only [List.length_append, List.length_take]
  omega

theorem appendBlocks_eq (littleEndian : Bool) (hbuf : pms.buf.length = 64) (hlength : left ≤ p.length) :
    absorb 64 compress ⟨pms.abcd, []⟩ (p.take left) =
        ⟨(appendBlocks littleEndian pms p left).abcd,
          (appendBlocks littleEndian pms p left).buf.take (left % 64)⟩ ∧
      (appendBlocks littleEndian pms p left).buf.length = 64 ∧
      (appendBlocks littleEndian pms p left).count0 = pms.count0 ∧
      (appendBlocks littleEndian pms p left).count1 = pms.count1 := by
  obtain ⟨abcd', p', hblocks, hle, habsorb⟩ :=
    fullBlocks_eq littleEndian left (le_refl left) hlength
  rw [appendBlocks, hblocks]
  dsimp only
  refine ⟨?_, ?_, rfl, rfl⟩
  · rw [habsorb]
    split_ifs with hzero
    · rw [hzero, List.take_zero, List.take_zero]
    · have htake := take_copyInto pms.buf p' 0 (left % 64) hbuf (by omega) hle
      rw [Nat.zero_add] at htake
      rw [htake, List.take_zero, List.nil_append]
  · split_ifs
    · exact hbuf
    · exact length_copyInto _ _ _ _ hbuf (by omega) hle

/-- What the state of a stream is behind a message. -/
structure Represents (pms : Md5State) (message : List UInt8) : Prop where
  count_eq : pms.count0.toNat + 2 ^ 32 * pms.count1.toNat = 8 * message.length % 2 ^ 64
  length_buf : pms.buf.length = 64
  absorbed : absorb 64 compress ⟨start, []⟩ message =
    ⟨pms.abcd, pms.buf.take (message.length % 64)⟩

theorem represents_md5Init {buf : List UInt8} (hbuf : buf.length = 64) :
    Represents (md5Init buf) [] where
  count_eq := rfl
  length_buf := hbuf
  absorbed := rfl

theorem Represents.offset_eq (h : Represents pms message) :
    ((pms.count0 >>> 3) &&& 63).toNat = message.length % 64 := by
  have hcount := h.count_eq
  have hlt := pms.count0.toNat_lt
  have hmask : ((pms.count0 >>> 3) &&& 63).toNat = pms.count0.toNat / 8 % 64 := by
    rw [UInt32.toNat_and, UInt32.toNat_shiftRight, Nat.shiftRight_eq_div_pow]
    exact Nat.and_two_pow_sub_one_eq_mod _ 6
  rw [hmask]
  omega

/-- The length of a message counts on. -/
theorem addCount_eq (hn : n < 2 ^ 28) :
    (addCount pms n).count0.toNat + 2 ^ 32 * (addCount pms n).count1.toNat =
      (pms.count0.toNat + 2 ^ 32 * pms.count1.toNat + 8 * n) % 2 ^ 64 := by
  have hlt0 := pms.count0.toNat_lt
  have hlt1 := pms.count1.toNat_lt
  have hbits : (UInt32.ofNat (n <<< 3)).toNat = 8 * n := by
    rw [Nat.shiftLeft_eq, UInt32.toNat_ofNat', Nat.mod_eq_of_lt] <;> omega
  have hhigh : UInt32.ofNat (n >>> 29) = 0 := by
    rw [Nat.shiftRight_eq_div_pow, Nat.div_eq_of_lt (by omega)]
    rfl
  simp only [addCount, hhigh, UInt32.add_zero, UInt32.lt_iff_toNat_lt, UInt32.toNat_add, hbits]
  split_ifs with hcarry
  · rw [UInt32.toNat_add, show (1 : UInt32).toNat = 1 from rfl]
    omega
  · omega

/-- The length that a state has counted belongs to any state with its counters. -/
theorem Represents.count_append (h : Represents pms message) (hn : n < 2 ^ 28)
    (hdata : n ≤ data.length) {pms' : Md5State} (hcount0 : pms'.count0 = (addCount pms n).count0)
    (hcount1 : pms'.count1 = (addCount pms n).count1) :
    pms'.count0.toNat + 2 ^ 32 * pms'.count1.toNat =
      8 * (message ++ data.take n).length % 2 ^ 64 := by
  have hcount := h.count_eq
  rw [hcount0, hcount1, addCount_eq hn, List.length_append, List.length_take,
    Nat.min_eq_left hdata]
  omega

/-- A piece that does not fill the block that was begun. -/
theorem Represents.short (h : Represents pms message) (hn : n < 2 ^ 28) (hdata : n ≤ data.length)
    (hshort : message.length % 64 + n < 64) :
    Represents { addCount pms n with
      buf := copyInto pms.buf (message.length % 64) data n } (message ++ data.take n) where
  count_eq := h.count_append hn hdata rfl rfl
  length_buf := length_copyInto _ _ _ _ h.length_buf hshort.le hdata
  absorbed := by
    have hlength : (message ++ data.take n).length % 64 = message.length % 64 + n := by
      rw [List.length_append, List.length_take, Nat.min_eq_left hdata]
      omega
    rw [absorb_append, h.absorbed, absorb_of_short, hlength,
      take_copyInto _ _ _ _ h.length_buf hshort.le hdata]
    · rfl
    · have hbuf := h.length_buf
      simp only [List.length_take]
      omega

/-- A piece behind a full block. -/
theorem Represents.aligned (h : Represents pms message) (hn : n < 2 ^ 28)
    (hdata : n ≤ data.length) (pms' : Md5State) (taken : Nat) (htaken : taken ≤ n)
    (hcount0 : pms'.count0 = (addCount pms n).count0)
    (hcount1 : pms'.count1 = (addCount pms n).count1) (hbuf : pms'.buf.length = 64)
    (hfull : (message.length + taken) % 64 = 0)
    (habsorb : absorb 64 compress ⟨start, []⟩ (message ++ data.take taken) = ⟨pms'.abcd, []⟩) :
    Represents (appendBlocks littleEndian pms' (data.drop taken) (n - taken))
      (message ++ data.take n) := by
  have hrest : n - taken ≤ (data.drop taken).length := by
    rw [List.length_drop]
    omega
  obtain ⟨hblocks, hlength, hsame0, hsame1⟩ :=
    appendBlocks_eq littleEndian hbuf hrest
  have hsplit : data.take n = data.take taken ++ (data.drop taken).take (n - taken) := by
    rw [← List.take_add, Nat.add_sub_cancel' htaken]
  have hmod : (message ++ data.take n).length % 64 = (n - taken) % 64 := by
    rw [List.length_append, List.length_take, Nat.min_eq_left hdata]
    omega
  constructor
  · exact h.count_append hn hdata (hsame0.trans hcount0) (hsame1.trans hcount1)
  · exact hlength
  · rw [hmod, hsplit, ← List.append_assoc, absorb_append, habsorb, hblocks]

/-- The state behind a message that has got longer. -/
theorem Represents.append (h : Represents pms message) (littleEndian : Bool) (hn : n < 2 ^ 28)
    (hdata : n ≤ data.length) :
    Represents (md5Append littleEndian pms data n) (message ++ data.take n) := by
  have hbuf := h.length_buf
  rw [md5Append, h.offset_eq, Int.toNat_natCast]
  by_cases hzero : n = 0
  · rw [if_pos (by omega), hzero, List.take_zero, List.append_nil]
    exact h
  rw [if_neg (by omega)]
  dsimp only
  by_cases halign : message.length % 64 = 0
  · rw [if_pos halign]
    have habsorbed := h.absorbed
    rw [halign, List.take_zero] at habsorbed
    apply h.aligned hn hdata (addCount pms n) 0 (Nat.zero_le _) rfl rfl hbuf (by omega)
    rw [List.take_zero, List.append_nil]
    exact habsorbed
  rw [if_neg halign]
  by_cases hshort : message.length % 64 + n < 64
  · rw [if_neg (show ¬message.length % 64 + n > 64 by omega), if_pos hshort]
    exact h.short hn hdata hshort
  · have hcopy : (if message.length % 64 + n > 64 then 64 - message.length % 64 else n) =
        64 - message.length % 64 := by
      split_ifs <;> omega
    rw [hcopy, if_neg (by omega)]
    have hlength : (data.take (64 - message.length % 64)).length = 64 - message.length % 64 := by
      rw [List.length_take]
      omega
    have hcopied : copyInto pms.buf (message.length % 64) data (64 - message.length % 64) =
        pms.buf.take (message.length % 64) ++ data.take (64 - message.length % 64) := by
      rw [copyInto, List.drop_eq_nil_of_le (by omega), List.append_nil]
    refine h.aligned hn hdata _ (64 - message.length % 64) (by omega) rfl rfl ?_ ?_ ?_
    · exact length_copyInto _ _ _ _ hbuf (by omega) (by omega)
    · omega
    · have hne : data.take (64 - message.length % 64) ≠ [] := by
        apply List.ne_nil_of_length_pos
        omega
      rw [absorb_append, h.absorbed, absorb_of_full _ hne]
      · rw [md5Process_eq]
        exact congrArg (Absorbed.mk · []) (congrArg (compress pms.abcd) hcopied.symm)
      · simp only [List.length_take]
        omega

theorem ofNat_eq_of_mod_eq {m n : Nat} (h : m % 256 = n % 256) : UInt8.ofNat m = UInt8.ofNat n := by
  apply UInt8.toNat_inj.mp
  simpa using h

theorem bytesOfWord_eq (x : UInt32) : bytesOfWord x = lowFirst 4 x.toNat := by
  have hbyte (n : UInt32) (i : Nat) (hn : n.toNat % 32 = 8 * i) :
      (x >>> n).toUInt8 = UInt8.ofNat (x.toNat / 256 ^ i) := by
    apply UInt8.toNat_inj.mp
    rw [UInt32.toNat_toUInt8, UInt32.toNat_shiftRight, hn, Nat.shiftRight_eq_div_pow, Nat.pow_mul,
      UInt8.toNat_ofNat']
  have hfirst : x.toUInt8 = UInt8.ofNat (x.toNat / 256 ^ 0) := by
    apply UInt8.toNat_inj.mp
    simp
  rw [bytesOfWord, hfirst, hbyte 8 1 rfl, hbyte 16 2 rfl, hbyte 24 3 rfl]
  rfl

theorem Represents.length_eq (h : Represents pms message) :
    bytesOfWord pms.count0 ++ bytesOfWord pms.count1 = lowFirst 8 (8 * message.length) := by
  have hcount := h.count_eq
  have hlt0 := pms.count0.toNat_lt
  have hlt1 := pms.count1.toNat_lt
  have hcases {i : Nat} (hi : i < 4) : i = 0 ∨ i = 1 ∨ i = 2 ∨ i = 3 := by omega
  have hrange : List.range 8 = List.range 4 ++ (List.range 4).map (4 + ·) := rfl
  rw [bytesOfWord_eq, bytesOfWord_eq, lowFirst, lowFirst, lowFirst, hrange, List.map_append,
    List.map_map]
  congr 1
  · apply List.map_congr_left
    intro i hi
    apply ofNat_eq_of_mod_eq
    rcases hcases (List.mem_range.mp hi) with rfl | rfl | rfl | rfl <;> omega
  · apply List.map_congr_left
    intro i hi
    apply ofNat_eq_of_mod_eq
    change _ = 8 * message.length / 256 ^ (4 + i) % 256
    rcases hcases (List.mem_range.mp hi) with rfl | rfl | rfl | rfl <;> omega

/-- The padding ends eight bytes before a full block. -/
theorem Represents.padding_eq (h : Represents pms message) :
    ((((55 : UInt32) - (pms.count0 >>> 3)) &&& 63) + 1).toNat =
      (119 - message.length % 64) % 64 + 1 := by
  have hcount := h.count_eq
  have hlt := pms.count0.toNat_lt
  have hmask : (((55 : UInt32) - (pms.count0 >>> 3)) &&& 63).toNat =
      ((55 : UInt32) - (pms.count0 >>> 3)).toNat % 64 := by
    rw [UInt32.toNat_and]
    exact Nat.and_two_pow_sub_one_eq_mod _ 6
  have hshift : (pms.count0 >>> 3).toNat = pms.count0.toNat / 8 := by
    rw [UInt32.toNat_shiftRight, Nat.shiftRight_eq_div_pow]
    rfl
  rw [UInt32.toNat_add, hmask, UInt32.toNat_sub, hshift, show (55 : UInt32).toNat = 55 from rfl,
    show (1 : UInt32).toNat = 1 from rfl]
  omega

theorem take_pad {n : Nat} (hn : n < 64) : pad.take (n + 1) = 0x80 :: List.replicate n 0 := by
  rw [pad, List.take_succ_cons, List.take_replicate, Nat.min_eq_left (by omega)]

theorem length_padded (message : List UInt8) :
    (padded message).length = (padded message).length / 64 * 64 := by
  have hlength : (padded message).length =
      message.length + ((119 - message.length % 64) % 64 + 1) + 8 := by
    simp only [padded, lowFirst, List.length_append, List.length_cons, List.length_replicate,
      List.length_map, List.length_range]
  omega

/-- The digest of a message that has come. -/
theorem Represents.finish (h : Represents pms message) :
    md5Finish littleEndian pms = digestOf (md5 message) := by
  have hpad : (119 - message.length % 64) % 64 + 1 ≤ pad.length := by
    change _ ≤ 64
    omega
  have hpadded := h.append littleEndian (by omega) hpad
  have hdone := hpadded.append littleEndian (n := 8) (by decide)
    (show 8 ≤ (bytesOfWord pms.count0 ++ bytesOfWord pms.count1).length from le_rfl)
  have habsorbed := hdone.absorbed
  rw [take_pad (by omega), List.take_of_length_le (by exact le_rfl), h.length_eq] at habsorbed
  change absorb 64 compress ⟨start, []⟩ (padded message) = _ at habsorbed
  rw [absorb_blocks (by decide) (length_padded message)] at habsorbed
  have hstate := congrArg Absorbed.state habsorbed
  dsimp only at hstate
  rw [md5Finish, h.padding_eq, h.length_eq, digestOf, md5, hstate, bytesOfWord_eq, bytesOfWord_eq,
    bytesOfWord_eq, bytesOfWord_eq]
  rfl

theorem Represents.append_all {pieces : List (List UInt8)} (h : Represents pms message)
    (littleEndian : Bool) (hpieces : ∀ piece ∈ pieces, piece.length < 2 ^ 28) :
    Represents (pieces.foldl (fun pms piece => md5Append littleEndian pms piece piece.length) pms)
      (message ++ pieces.flatten) := by
  induction pieces generalizing pms message with
  | nil => simpa using h
  | cons piece pieces ih =>
      have hpiece := h.append littleEndian (hpieces piece List.mem_cons_self)
        (le_refl piece.length)
      rw [List.take_length] at hpiece
      rw [List.foldl_cons, List.flatten_cons, ← List.append_assoc]
      exact ih hpiece fun other hother => hpieces other (List.mem_cons_of_mem _ hother)

end Streams

section Hashes

/-- The number that four bytes are, put together with shifts. -/
theorem word_eq (x₀ x₁ x₂ x₃ : UInt8) :
    ((x₃.toNat &&& 0xFF) <<< 24 ||| (x₂.toNat &&& 0xFF) <<< 16 ||| (x₁.toNat &&& 0xFF) <<< 8 |||
        (x₀.toNat &&& 0xFF)) =
      x₀.toNat + 256 * x₁.toNat + 256 ^ 2 * x₂.toNat + 256 ^ 3 * x₃.toNat := by
  have hmask (x : UInt8) : x.toNat &&& 0xFF = x.toNat :=
    (Nat.and_two_pow_sub_one_eq_mod _ 8).trans (Nat.mod_eq_of_lt x.toNat_lt)
  have hjoin (high low shift : Nat) (hlow : low < 256) :
      high <<< (shift + 8) ||| low <<< shift = (256 * high + low) <<< shift := by
    have hsplit : high <<< (shift + 8) = (high <<< 8) <<< shift := by
      rw [← Nat.shiftLeft_add, Nat.add_comm]
    rw [hsplit, ← Nat.shiftLeft_or_distrib, ← Nat.shiftLeft_add_eq_or_of_lt hlow,
      Nat.shiftLeft_eq high, Nat.mul_comm high]
  simp only [hmask]
  rw [hjoin x₃.toNat x₂.toNat 16 x₂.toNat_lt, hjoin _ x₁.toNat 8 x₁.toNat_lt]
  have hlast := hjoin (256 * (256 * x₃.toNat + x₂.toNat) + x₁.toNat) x₀.toNat 0 x₀.toNat_lt
  rw [Nat.zero_add, Nat.shiftLeft_zero, Nat.shiftLeft_zero] at hlast
  rw [hlast]
  omega

theorem word_lowFirst (x : UInt32) :
    (UInt8.ofNat (x.toNat / 256 ^ 0)).toNat + 256 * (UInt8.ofNat (x.toNat / 256 ^ 1)).toNat +
        256 ^ 2 * (UInt8.ofNat (x.toNat / 256 ^ 2)).toNat +
        256 ^ 3 * (UInt8.ofNat (x.toNat / 256 ^ 3)).toNat = x.toNat := by
  have hlt := x.toNat_lt
  simp only [UInt8.toNat_ofNat']
  omega

/-- The words of a digest are the registers. -/
theorem digestWord_digestOf (r : Registers) :
    digestWord (digestOf r) 0 = r.a.toNat ∧ digestWord (digestOf r) 1 = r.b.toNat ∧
      digestWord (digestOf r) 2 = r.c.toNat ∧ digestWord (digestOf r) 3 = r.d.toNat := by
  refine ⟨?_, ?_, ?_, ?_⟩
  · exact congrArg Nat.cast ((word_eq _ _ _ _).trans (word_lowFirst r.a))
  · exact congrArg Nat.cast ((word_eq _ _ _ _).trans (word_lowFirst r.b))
  · exact congrArg Nat.cast ((word_eq _ _ _ _).trans (word_lowFirst r.c))
  · exact congrArg Nat.cast ((word_eq _ _ _ _).trans (word_lowFirst r.d))

theorem toNat_loadUint64 (bytes : List UInt8) (hlength : bytes.length ≤ 8) :
    (loadUint64 bytes).toNat = Nat.ofDigits 256 (bytes.map UInt8.toNat) := by
  induction bytes with
  | nil => rfl
  | cons byte bytes ih =>
      rw [List.length_cons] at hlength
      have hlt : Nat.ofDigits 256 (bytes.map UInt8.toNat) < 256 ^ 7 := by
        apply (Nat.ofDigits_lt_base_pow_length (by decide) ?_).trans_le
        · apply Nat.pow_le_pow_right (by decide)
          rw [List.length_map]
          omega
        · intro digit hdigit
          obtain ⟨b, _, rfl⟩ := List.mem_map.mp hdigit
          exact b.toNat_lt
      rw [loadUint64, List.foldr_cons, UInt64.toNat_or, UInt64.toNat_shiftLeft]
      change (loadUint64 bytes).toNat <<< 8 % 2 ^ 64 ||| byte.toUInt64.toNat = _
      rw [ih (by omega), Nat.mod_eq_of_lt, List.map_cons, Nat.ofDigits_cons, UInt8.toNat_toUInt64,
        ← Nat.shiftLeft_add_eq_or_of_lt byte.toNat_lt, Nat.shiftLeft_eq, Nat.add_comm, Nat.mul_comm]
      · rw [Nat.shiftLeft_eq]
        omega

theorem ofDigits_lowFirst (x : UInt32) :
    Nat.ofDigits 256 ((lowFirst 4 x.toNat).map UInt8.toNat) = x.toNat := by
  have hword := word_lowFirst x
  simp only [lowFirst, List.range_succ, List.range_zero, List.nil_append, List.cons_append,
    List.map_cons, List.map_nil, Nat.ofDigits_cons, Nat.ofDigits_nil]
  omega

end Hashes

section Results

/-- A message may come in any pieces: the digest is the one that RFC 1321 defines for the
whole. -/
theorem md5_of_pieces (littleEndian : Bool) {buf : List UInt8} {pieces : List (List UInt8)}
    (hbuf : buf.length = 64) (hpieces : ∀ piece ∈ pieces, piece.length < 2 ^ 28) :
    md5Finish littleEndian
        (pieces.foldl (fun pms piece => md5Append littleEndian pms piece piece.length)
          (md5Init buf)) =
      digestOf (md5 pieces.flatten) := by
  have h := (represents_md5Init hbuf).append_all littleEndian hpieces
  rw [List.nil_append] at h
  exact h.finish

theorem md5_of_pieces_two :
    md5Finish true
        ([[0x61], [0x62, 0x63]].foldl (fun pms piece => md5Append true pms piece piece.length)
          (md5Init (List.replicate 64 0))) =
      digestOf (md5 [[0x61], [0x62, 0x63]].flatten) :=
  md5_of_pieces true List.length_replicate (by decide)

/-- The hash of libconhash is the sum of the four words of the digest, and `MD5Hash` is made
of the first two. -/
theorem hashes_of_digest (littleEndian : Bool) {buf : List UInt8} {s : Str}
    (hbuf : buf.length = 64) (hshort : s.length < 2 ^ 28) :
    conhashHashDef littleEndian buf s =
        ((md5 (bytesOf s)).a.toNat + (md5 (bytesOf s)).b.toNat + (md5 (bytesOf s)).c.toNat +
          (md5 (bytesOf s)).d.toNat : Nat) ∧
      0 ≤ conhashHashDef littleEndian buf s ∧ conhashHashDef littleEndian buf s < 2 ^ 34 ∧
      (md5Hash buf (bytesOf s) (UInt32.ofNat s.length)).toNat =
        (md5 (bytesOf s)).a.toNat + 2 ^ 32 * (md5 (bytesOf s)).b.toNat := by
  have hlength : (bytesOf s).length = s.length := List.length_map _
  have hwhole (littleEndian : Bool) : Represents
      (md5Append littleEndian (md5Init buf) (bytesOf s) s.length) (bytesOf s) := by
    have h := (represents_md5Init hbuf).append littleEndian hshort hlength.ge
    rw [List.nil_append, List.take_of_length_le hlength.le] at h
    exact h
  have hsum : conhashHashDef littleEndian buf s =
      ((md5 (bytesOf s)).a.toNat + (md5 (bytesOf s)).b.toNat + (md5 (bytesOf s)).c.toNat +
        (md5 (bytesOf s)).d.toNat : Nat) := by
    obtain ⟨ha, hb, hc, hd⟩ := digestWord_digestOf (md5 (bytesOf s))
    rw [conhashHashDef, conhashMd5Digest, (hwhole littleEndian).finish]
    simp only [List.range_succ, List.range_zero, List.nil_append, List.cons_append,
      List.foldl_cons, List.foldl_nil, ha, hb, hc, hd]
    omega
  have hlast : (md5Hash buf (bytesOf s) (UInt32.ofNat s.length)).toNat =
      (md5 (bytesOf s)).a.toNat + 2 ^ 32 * (md5 (bytesOf s)).b.toNat := by
    have hlen : MachineIntegers.narrow 31 ((UInt32.ofNat s.length).toNat : Nat) = s.length := by
      rw [UInt32.toNat_ofNat', Nat.mod_eq_of_lt (by omega), MachineIntegers.narrow_eq_self_iff]
      constructor <;> omega
    have hdigits : ((digestOf (md5 (bytesOf s))).take 8).map UInt8.toNat =
        (lowFirst 4 (md5 (bytesOf s)).a.toNat).map UInt8.toNat ++
          (lowFirst 4 (md5 (bytesOf s)).b.toNat).map UInt8.toNat := by
      rw [← List.map_append]
      rfl
    rw [md5Hash, hlen, (hwhole true).finish, toNat_loadUint64 _ (List.length_take_le _ _), hdigits,
      Nat.ofDigits_append, ofDigits_lowFirst, ofDigits_lowFirst]
    rw [List.length_map, lowFirst, List.length_map, List.length_range]
    omega
  have hlta := (md5 (bytesOf s)).a.toNat_lt
  have hltb := (md5 (bytesOf s)).b.toNat_lt
  have hltc := (md5 (bytesOf s)).c.toNat_lt
  have hltd := (md5 (bytesOf s)).d.toNat_lt
  refine ⟨hsum, ?_, ?_, hlast⟩ <;> rw [hsum] <;> omega

theorem hashes_of_digest_abc :
    conhashHashDef true (List.replicate 64 0) ['a', 'b', 'c'] < 2 ^ 34 := by
  obtain ⟨_, _, hlt, _⟩ := hashes_of_digest true (s := ['a', 'b', 'c'])
    (List.length_replicate : (List.replicate 64 (0 : UInt8)).length = 64) (by decide)
  exact hlt

end Results

end FastDCS.Md5
