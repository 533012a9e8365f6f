import TransportStream.Fault
import TransportStream.Text

namespace TransportStream

structure Pid where
  val : Nat
  val_lt : val < 0x2000 := by decide
deriving DecidableEq

namespace Pid

def pat : Pid := { val := 0 }

def null : Pid := { val := 0x1fff }

def ofNat? (n : Nat) : Option Pid :=
  if h : n < 0x2000 then some ⟨n, h⟩ else none

def ofNat (n : Nat) : Except Fault Pid :=
  if h : n < 0x2000 then .ok ⟨n, h⟩ else .error .precondition

instance : Inhabited Pid := ⟨pat⟩

instance : Ord Pid := ⟨fun p q ↦ compare p.val q.val⟩

instance : ToString Pid := ⟨fun p ↦ Text.markedHex 4 p.val⟩

def describe (p : Pid) : String :=
  s!"Pid({Text.hex 4 p.val})"

@[ext] theorem ext {p q : Pid} (h : p.val = q.val) : p = q := by
  cases p; cases q; simpa using h

theorem ofNat_eq_ok_iff {n : Nat} {p : Pid} : ofNat n = .ok p ↔ n = p.val := by
  have h := p.val_lt
  by_cases hn : n < 0x2000
  · simp [ofNat, hn, Pid.ext_iff]
  · simp only [ofNat, hn, dite_false]
    exact ⟨nofun, fun e ↦ by omega⟩

end Pid

end TransportStream
