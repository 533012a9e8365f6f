import TransportStream.Fault

namespace TransportStream

def OverflowsOnly {α : Type} (x : Except Fault α) : Prop :=
  ∀ fault, x = .error fault → fault = .overflow

namespace OverflowsOnly

variable {α β : Type} {x : Except Fault α} {f : α → Except Fault β}

theorem ok (a : α) : OverflowsOnly (.ok a) := nofun

theorem bind (hx : OverflowsOnly x) (hf : ∀ a, x = .ok a → OverflowsOnly (f a)) :
    OverflowsOnly (x >>= f) := by
  intro fault h
  cases x with
  | error e => exact hx fault (congrArg Except.error (Except.error.inj h))
  | ok a => exact hf a rfl fault h

theorem fit (limit n : Nat) : OverflowsOnly (fit limit n) := by
  intro fault h
  unfold TransportStream.fit at h
  split at h
  · cases h
  · exact (Except.error.inj h).symm

theorem minus (a b : Nat) : OverflowsOnly (minus a b) := by
  intro fault h
  unfold TransportStream.minus at h
  split at h
  · cases h
  · exact (Except.error.inj h).symm

end OverflowsOnly

/-- Whether a computation gives a value, or overflows while `full` holds. -/
def Completes {α : Type} (x : Except Fault α) (full : Prop) : Prop :=
  (∃ a, x = .ok a) ∨ x = .error .overflow ∧ full

namespace Completes

variable {α β : Type} {x : Except Fault α} {f : α → Except Fault β} {full room : Prop}

theorem ok (a : α) : Completes (.ok a) full := .inl ⟨a, rfl⟩

theorem mono (h : Completes x full) (hf : full → room) : Completes x room :=
  h.imp_right fun ⟨hx, h⟩ ↦ ⟨hx, hf h⟩

theorem of_overflowsOnly (h : OverflowsOnly x) (done : ¬ full → ∃ a, x = .ok a) :
    Completes x full := by
  cases x with
  | ok a => exact .ok a
  | error fault =>
    obtain rfl := h fault rfl
    refine .inr ⟨rfl, Classical.byContradiction fun hfull ↦ ?_⟩
    obtain ⟨a, ha⟩ := done hfull
    cases ha

theorem bind (h : Completes x full) (hf : ∀ a, x = .ok a → Completes (f a) full) :
    Completes (x >>= f) full := by
  rcases h with ⟨a, rfl⟩ | ⟨rfl, h⟩
  · exact hf a rfl
  · exact .inr ⟨rfl, h⟩

end Completes

end TransportStream
