import Mathlib.Algebra.Order.Ring.Nat
import Mathlib.Data.List.Infix

/-!
The base-128 encoding of natural numbers: seven bits a byte, the lowest first,
with the high bit set on every byte that another one follows.
-/

namespace FastDCS.Base128

def encode (v : Nat) : List UInt8 :=
  if v < 128 then [UInt8.ofNat v] else UInt8.ofNat (v % 128 + 128) :: encode (v / 128)
termination_by v
decreasing_by omega

/-- A byte that another one follows. -/
def Continues (byte : UInt8) : Prop := 128 ≤ byte.toNat

theorem encode_of_lt {v : Nat} (h : v < 128) : encode v = [UInt8.ofNat v] := by
  rw [encode, if_pos h]

theorem encode_of_le {v : Nat} (h : 128 ≤ v) :
    encode v = UInt8.ofNat (v % 128 + 128) :: encode (v / 128) := by
  rw [encode, if_neg (Nat.not_lt.mpr h)]

theorem toNat_last {v : Nat} (h : v < 128) : (UInt8.ofNat v).toNat = v := by
  rw [UInt8.toNat_ofNat']
  omega

theorem toNat_group (v : Nat) : (UInt8.ofNat (v % 128 + 128)).toNat = v % 128 + 128 := by
  rw [UInt8.toNat_ofNat']
  omega

/-- The length of the encoding tells the size of the number. -/
theorem length_encode_le_iff (v n : Nat) : (encode v).length ≤ n + 1 ↔ v < 128 ^ (n + 1) := by
  induction n generalizing v with
  | zero =>
      rcases Nat.lt_or_ge v 128 with hlt | hge
      · simpa [encode_of_lt hlt] using hlt
      · have hpos : 0 < (encode (v / 128)).length := by
          rw [encode]
          split_ifs <;> simp
        rw [encode_of_le hge, List.length_cons]
        omega
  | succ n ih =>
      rcases Nat.lt_or_ge v 128 with hlt | hge
      · have hpow : 128 ≤ 128 ^ (n + 1 + 1) := Nat.le_self_pow (by omega) 128
        rw [encode_of_lt hlt, List.length_singleton]
        omega
      · rw [encode_of_le hge, List.length_cons, Nat.add_le_add_iff_right, ih,
          Nat.div_lt_iff_lt_mul (by decide), ← pow_succ]

/-- An encoding that is cut off ends in the middle of a number. -/
theorem continues_of_cut {v : Nat} {cut : List UInt8} (hcut : cut <+: encode v)
    (hne : cut ≠ encode v) : ∀ byte ∈ cut, Continues byte := by
  induction v using encode.induct generalizing cut with
  | case1 v hlt =>
      rw [encode_of_lt hlt] at hcut hne
      cases cut with
      | nil => exact fun byte hbyte => absurd hbyte List.not_mem_nil
      | cons byte rest =>
          obtain ⟨rfl, hrest⟩ := List.cons_prefix_cons.mp hcut
          rw [List.prefix_nil.mp hrest] at hne
          exact absurd rfl hne
  | case2 v hge ih =>
      rw [encode_of_le (Nat.not_lt.mp hge)] at hcut hne
      cases cut with
      | nil => exact fun byte hbyte => absurd hbyte List.not_mem_nil
      | cons byte rest =>
          obtain ⟨rfl, hrest⟩ := List.cons_prefix_cons.mp hcut
          have htail := ih hrest fun heq => hne (by rw [heq])
          intro byte hbyte
          rcases List.mem_cons.mp hbyte with rfl | hbyte
          · rw [Continues, toNat_group]
            omega
          · exact htail byte hbyte

end FastDCS.Base128
