import TransportStream.Pid

namespace TransportStream

structure PidSet where
  members : List Pid := []
deriving DecidableEq

namespace PidSet

def empty : PidSet := {}

instance : Inhabited PidSet := ⟨empty⟩

variable (s : PidSet)

def contains (p : Pid) : Bool :=
  p ∈ s.members

def size : Nat :=
  s.members.length

def place (p : Pid) : List Pid → List Pid
  | [] => [p]
  | q :: rest =>
    if p.val < q.val then p :: q :: rest
    else if p = q then q :: rest
    else q :: place p rest

def insert (p : Pid) : PidSet :=
  ⟨place p s.members⟩

def erase (p : Pid) : PidSet :=
  ⟨s.members.filter (· ≠ p)⟩

def ofList (ps : List Pid) : PidSet :=
  ps.foldl insert empty

theorem mem_place {p q : Pid} {ps : List Pid} : q ∈ place p ps ↔ q = p ∨ q ∈ ps := by
  induction ps with
  | nil => simp [place]
  | cons r rest ih =>
    unfold place
    split
    · simp
    · split
      · next h => subst h; simp
      · simp only [List.mem_cons, ih]
        constructor
        · rintro (h | h | h) <;> simp [h]
        · rintro (h | h | h) <;> simp [h]

@[simp] theorem contains_empty (p : Pid) : empty.contains p = false := rfl

theorem contains_insert (p q : Pid) :
    (s.insert p).contains q = (decide (q = p) || s.contains q) := by
  simp [contains, insert, mem_place, Bool.decide_or]

theorem contains_erase (p q : Pid) :
    (s.erase p).contains q = (decide (q ≠ p) && s.contains q) := by
  simp [contains, erase, Bool.and_comm]

end PidSet

end TransportStream
