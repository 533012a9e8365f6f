
namespace TransportStream

inductive Fault
  | precondition
  | outOfRange
  | overflow
  | wideVersion (version : Nat)
  | oversizedSection (size : Nat)
  | noCapacity
  | windowTaken
deriving DecidableEq, Repr

def Fault.message : Fault → Option String
  | precondition | outOfRange | overflow => none
  | wideVersion v => some s!"version {v} is not 5 bits"
  | oversizedSection n => some s!"section of {n} bytes is too large"
  | noCapacity => some "PacketQueue capacity must not be zero"
  | windowTaken => some "PacketQueue: a write window is already open"

def require (p : Prop) [Decidable p] (fault : Fault := .precondition) : Except Fault Unit :=
  if p then .ok () else .error fault

def wordLimit : Nat := 1 <<< 64

def doubleWordLimit : Nat := 1 <<< 128

def maxMemory : Nat := 1 <<< 63 - 1

def fit (limit n : Nat) : Except Fault Nat :=
  if n < limit then .ok n else .error .overflow

def minus (a b : Nat) : Except Fault Nat :=
  if b ≤ a then .ok (a - b) else .error .overflow

theorem require_eq_ok_iff {p : Prop} [Decidable p] {fault : Fault} {u : Unit} :
    require p fault = .ok u ↔ p := by
  by_cases h : p <;> simp [require, h]

theorem fit_eq_ok_iff {limit n m : Nat} : fit limit n = .ok m ↔ n < limit ∧ n = m := by
  by_cases h : n < limit <;> simp [fit, h]

theorem minus_eq_ok_iff {a b c : Nat} : minus a b = .ok c ↔ b ≤ a ∧ a - b = c := by
  by_cases h : b ≤ a <;> simp [minus, h]

theorem bind_eq_ok_iff {α β : Type} {x : Except Fault α} {f : α → Except Fault β} {b : β} :
    x >>= f = .ok b ↔ ∃ a, x = .ok a ∧ f a = .ok b := by
  cases x <;> simp [bind, Except.bind]

theorem toOption_bind_eq_some_iff {α β : Type} {x : Except Fault α} {f : α → Option β} {b : β} :
    x.toOption.bind f = some b ↔ ∃ a, x = .ok a ∧ f a = some b := by
  cases x <;> simp [Except.toOption]

end TransportStream
