import TransportStream.Fault

namespace TransportStream

def itemAt (xs : List α) (i : Nat) : Except Fault α :=
  match xs[i]? with
  | some a => .ok a
  | none => .error .outOfRange

def slice (xs : List α) (start stop : Nat) : Except Fault (List α) :=
  if start ≤ stop ∧ stop ≤ xs.length then .ok ((xs.take stop).drop start)
  else .error .outOfRange

def overwrite (xs : List α) (i : Nat) (part : List α) : Except Fault (List α) :=
  if i + part.length ≤ xs.length then .ok (xs.take i ++ part ++ xs.drop (i + part.length))
  else .error .outOfRange

variable {xs part ys : List α} {i start stop : Nat} {a : α}

theorem itemAt_eq_ok_iff : itemAt xs i = .ok a ↔ xs[i]? = some a := by
  unfold itemAt
  cases xs[i]? <;> simp

theorem slice_eq_ok_iff : slice xs start stop = .ok part ↔
    (start ≤ stop ∧ stop ≤ xs.length) ∧ (xs.take stop).drop start = part := by
  by_cases h : start ≤ stop ∧ stop ≤ xs.length <;> simp [slice, h]

theorem length_of_slice (h : slice xs start stop = .ok part) : part.length = stop - start := by
  obtain ⟨⟨_, h₂⟩, rfl⟩ := slice_eq_ok_iff.1 h
  simp only [List.length_drop, List.length_take]
  omega

theorem overwrite_eq_ok_iff : overwrite xs i part = .ok ys ↔
    i + part.length ≤ xs.length ∧ xs.take i ++ part ++ xs.drop (i + part.length) = ys := by
  by_cases h : i + part.length ≤ xs.length <;> simp [overwrite, h]

theorem length_of_overwrite (h : overwrite xs i part = .ok ys) : ys.length = xs.length := by
  obtain ⟨h₁, rfl⟩ := overwrite_eq_ok_iff.1 h
  simp only [List.length_append, List.length_take, List.length_drop]
  omega

end TransportStream
