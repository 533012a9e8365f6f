import TransportStream.Fault

namespace TransportStream

structure ContinuityCounter where
  val : Nat
  val_lt : val < 16 := by decide
deriving DecidableEq

namespace ContinuityCounter

def zero : ContinuityCounter := { val := 0 }

instance : Inhabited ContinuityCounter := ⟨zero⟩

def ofNat (n : Nat) : Except Fault ContinuityCounter :=
  if h : n < 16 then .ok ⟨n, h⟩ else .error .precondition

def next (c : ContinuityCounter) : ContinuityCounter :=
  ⟨(c.val + 1) % 16, Nat.mod_lt _ (by decide)⟩

def follows (c d : ContinuityCounter) : Bool :=
  (d.val + 1) % 16 == c.val

@[ext] theorem ext {c d : ContinuityCounter} (h : c.val = d.val) : c = d := by
  cases c; cases d; simpa using h

theorem follows_iff {c d : ContinuityCounter} : c.follows d = true ↔ c = d.next := by
  rw [follows, beq_iff_eq, ContinuityCounter.ext_iff]
  exact eq_comm

theorem next_ne (c : ContinuityCounter) : c.next ≠ c := by
  have h := c.val_lt
  rw [Ne, ContinuityCounter.ext_iff]
  simp only [next]
  omega

end ContinuityCounter

end TransportStream
