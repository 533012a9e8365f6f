import TransportStream.Bytes
import TransportStream.Text

namespace TransportStream

structure ClockReference where
  base : Nat
  extension : Nat
  base_lt : base < 1 <<< 33
  extension_lt : extension < 1 <<< 9
deriving DecidableEq

namespace ClockReference

def wrap : Nat := (1 <<< 33) * 300

def frequency : Nat := 27000000

def ofParts (base extension : Nat) : Except Fault ClockReference :=
  if h : base < 1 <<< 33 ∧ extension < 1 <<< 9 then .ok ⟨base, extension, h.1, h.2⟩
  else .error .precondition

def ofTicks (ticks : Nat) : ClockReference where
  base := ticks % wrap / 300
  extension := ticks % wrap % 300
  base_lt := by have := Nat.mod_lt ticks (show 0 < wrap by decide); simp only [wrap] at *; omega
  extension_lt := by have := Nat.mod_lt (ticks % wrap) (show 0 < 300 by decide); omega

def ticks (c : ClockReference) : Nat :=
  c.base * 300 + c.extension

def read (b₀ b₁ b₂ b₃ b₄ b₅ : UInt8) : ClockReference where
  base := b₀.toNat <<< 25 + b₁.toNat <<< 17 + b₂.toNat <<< 9 + b₃.toNat <<< 1 + bits b₄ 7 1
  extension := bits b₄ 0 1 <<< 8 + b₅.toNat
  base_lt := by
    have h₀ := b₀.toNat_lt; have h₁ := b₁.toNat_lt; have h₂ := b₂.toNat_lt
    have h₃ := b₃.toNat_lt; have h₄ := bits_lt b₄ 7 1
    omega
  extension_lt := by
    have h₄ := bits_lt b₄ 0 1; have h₅ := b₅.toNat_lt
    omega

def ofBytes : Bytes → Except Fault ClockReference
  | b₀ :: b₁ :: b₂ :: b₃ :: b₄ :: b₅ :: _ => .ok (read b₀ b₁ b₂ b₃ b₄ b₅)
  | _ => .error .outOfRange

def toBytes (c : ClockReference) : Bytes :=
  [UInt8.ofNat (c.base >>> 25), UInt8.ofNat (c.base >>> 17), UInt8.ofNat (c.base >>> 9),
    UInt8.ofNat (c.base >>> 1), UInt8.ofNat (c.base % 2 * 0x80 + 0x7e + c.extension >>> 8),
    UInt8.ofNat c.extension]

def describe (c : ClockReference) : String :=
  s!"PCR\x7b{Text.hex 8 c.base}:{Text.hex 4 c.extension}\x7d"

@[ext] theorem ext {c d : ClockReference} (hb : c.base = d.base)
    (he : c.extension = d.extension) : c = d := by
  cases c; cases d; simp_all

@[simp] theorem length_toBytes (c : ClockReference) : c.toBytes.length = 6 := rfl

theorem ticks_ofTicks (n : Nat) : (ofTicks n).ticks = n % wrap :=
  Nat.div_add_mod' _ _

theorem extension_ofTicks_lt (n : Nat) : (ofTicks n).extension < 300 :=
  Nat.mod_lt _ (by decide)

theorem ticks_lt_wrap {c : ClockReference} (h : c.extension < 300) :
    c.ticks < wrap := by
  have hbase : c.base < 8589934592 := c.base_lt
  have hwrap : wrap = 2576980377600 := rfl
  rw [ticks]
  omega

end ClockReference

end TransportStream
