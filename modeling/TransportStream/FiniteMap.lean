
namespace TransportStream

structure FiniteMap (κ β : Type) where
  entries : List (κ × β) := []

namespace FiniteMap

variable {κ β : Type} [DecidableEq κ]

def empty : FiniteMap κ β := {}

instance : Inhabited (FiniteMap κ β) := ⟨empty⟩

def get? (m : FiniteMap κ β) (k : κ) : Option β :=
  (m.entries.find? (·.1 = k)).map (·.2)

def filterKeys (m : FiniteMap κ β) (keep : κ → Bool) : FiniteMap κ β :=
  ⟨m.entries.filter fun e ↦ keep e.1⟩

def erase (m : FiniteMap κ β) (k : κ) : FiniteMap κ β :=
  m.filterKeys fun k' ↦ k' ≠ k

def insert (m : FiniteMap κ β) (k : κ) (b : β) : FiniteMap κ β :=
  ⟨(k, b) :: (m.erase k).entries⟩

theorem get?_filterKeys (m : FiniteMap κ β) (keep : κ → Bool) (k : κ) :
    (m.filterKeys keep).get? k = if keep k then m.get? k else none := by
  obtain ⟨entries⟩ := m
  simp only [get?, filterKeys]
  induction entries with
  | nil => simp
  | cons e rest ih =>
    by_cases hk : e.1 = k
    · by_cases he : keep k
      · simp [hk, he]
      · simpa [hk, he] using ih
    · by_cases he : keep e.1
      · simpa [hk, he] using ih
      · simpa [hk, he] using ih

theorem get?_erase (m : FiniteMap κ β) (k k' : κ) :
    (m.erase k).get? k' = if k' = k then none else m.get? k' := by
  by_cases h : k' = k <;> simp [erase, get?_filterKeys, h]

theorem get?_insert (m : FiniteMap κ β) (k k' : κ) (b : β) :
    (m.insert k b).get? k' = if k' = k then some b else m.get? k' := by
  by_cases h : k' = k
  · simp [insert, get?, h]
  · have h' : ¬ k = k' := fun e ↦ h e.symm
    have := get?_erase m k k'
    simp only [get?, h, if_false] at this
    simp [insert, get?, h, h', this]

end FiniteMap

end TransportStream
