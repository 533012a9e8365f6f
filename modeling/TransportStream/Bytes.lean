import TransportStream.Slice

namespace TransportStream

abbrev Bytes := List UInt8

namespace Bytes

def toNat (data : Bytes) : Nat :=
  data.foldl (fun n b ↦ n * 256 + b.toNat) 0

def ofNat : Nat → Nat → Bytes
  | 0, _ => []
  | n + 1, v => ofNat n (v / 256) ++ [UInt8.ofNat (v % 256)]

@[simp] theorem length_ofNat (n v : Nat) : (ofNat n v).length = n := by
  induction n generalizing v with
  | zero => rfl
  | succ n ih => simp [ofNat, ih]

theorem toNat_append_byte (data : Bytes) (b : UInt8) :
    toNat (data ++ [b]) = toNat data * 256 + b.toNat := by
  simp [toNat]

theorem toNat_ofNat (n v : Nat) : toNat (ofNat n v) = v % (1 <<< (8 * n)) := by
  induction n generalizing v with
  | zero => simp [ofNat, toNat, Nat.mod_one]
  | succ n ih =>
    have hb : (UInt8.ofNat (v % 256)).toNat = v % 256 := by simp
    have hs : 1 <<< (8 * (n + 1)) = 256 * 1 <<< (8 * n) := by
      rw [Nat.mul_add, Nat.mul_one, Nat.shiftLeft_add, Nat.shiftLeft_eq (1 <<< (8 * n)),
        Nat.mul_comm]
    rw [ofNat, toNat_append_byte, ih, hb, hs, Nat.mod_mul]
    omega

end Bytes

/-- The bits of `b` from `low` upwards, `width` of them, as a number. -/
def bits (b : UInt8) (low width : Nat) : Nat :=
  (b.toNat >>> low) % (1 <<< width)

def bit (b : UInt8) (i : Nat) : Bool :=
  bits b i 1 == 1

def withBits (b : UInt8) (low width v : Nat) : UInt8 :=
  UInt8.ofNat ((b.toNat >>> (low + width)) <<< (low + width) + (v % (1 <<< width)) <<< low
    + b.toNat % (1 <<< low))

theorem eq_of_testBit {b c : UInt8} (h : ∀ k < 8, b.toNat.testBit k = c.toNat.testBit k) :
    b = c := by
  apply UInt8.toNat_inj.1
  apply Nat.eq_of_testBit_eq
  intro k
  by_cases hk : k < 8
  · exact h k hk
  · have hpow : 2 ^ 8 ≤ 2 ^ k := Nat.pow_le_pow_right (by decide) (Nat.not_lt.1 hk)
    rw [Nat.testBit_lt_two_pow (Nat.lt_of_lt_of_le b.toNat_lt hpow),
      Nat.testBit_lt_two_pow (Nat.lt_of_lt_of_le c.toNat_lt hpow)]

theorem bits_lt (b : UInt8) (low width : Nat) : bits b low width < 1 <<< width :=
  Nat.mod_lt _ (by rw [Nat.one_shiftLeft]; exact Nat.two_pow_pos width)

end TransportStream
