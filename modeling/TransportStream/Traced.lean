import TransportStream.Fault
import TransportStream.Notice

namespace TransportStream

structure Traced (α : Type) where
  run : Except Fault (α × List Notice)

namespace Traced

variable {α β γ : Type}

/-- What the computation gives, without its notices. -/
def value (x : Traced α) : Except Fault α :=
  match x.run with
  | .ok (a, _) => .ok a
  | .error e => .error e

def andThen (x : Traced α) (f : α → Traced β) : Traced β where
  run :=
    match x.run with
    | .error e => .error e
    | .ok (a, before) =>
      match (f a).run with
      | .error e => .error e
      | .ok (b, after) => .ok (b, before ++ after)

instance : Monad Traced where
  pure a := ⟨.ok (a, [])⟩
  bind := andThen

def note (n : Notice) : Traced Unit := ⟨.ok ((), [n])⟩

def ofExcept : Except Fault α → Traced α
  | .ok a => ⟨.ok (a, [])⟩
  | .error e => ⟨.error e⟩

instance : MonadLift (Except Fault) Traced := ⟨ofExcept⟩

@[simp] theorem value_pure (a : α) : (pure a : Traced α).value = .ok a := rfl

@[simp] theorem value_note (n : Notice) : (note n).value = .ok () := rfl

@[simp] theorem value_ofExcept (x : Except Fault α) : (ofExcept x).value = x := by
  cases x <;> rfl

@[simp] theorem value_liftM (x : Except Fault α) : (liftM x : Traced α).value = x :=
  value_ofExcept x

@[simp] theorem value_bind (x : Traced α) (f : α → Traced β) :
    (x >>= f).value = x.value >>= fun a ↦ (f a).value := by
  rcases x with ⟨e | ⟨a, before⟩⟩
  · rfl
  · rcases h : f a with ⟨e | ⟨b, after⟩⟩ <;> simp [value, andThen, h, bind, Except.bind]

theorem value_bind_of_ok {x : Traced α} {f : α → Traced β} {a : α} (h : x.value = .ok a) :
    (x >>= f).value = (f a).value := by
  rw [value_bind, h]
  rfl

theorem value_liftM_bind_of_ok {x : Except Fault α} {f : α → Traced β} {a : α} (h : x = .ok a) :
    ((liftM x : Traced α) >>= f).value = (f a).value :=
  value_bind_of_ok ((value_liftM x).trans h)

theorem value_bind_eq_ok_iff {x : Traced α} {f : α → Traced β} {b : β} :
    (x >>= f).value = .ok b ↔ ∃ a, x.value = .ok a ∧ (f a).value = .ok b := by
  rw [value_bind, bind_eq_ok_iff]

theorem pure_bind (a : α) (f : α → Traced β) : pure a >>= f = f a := by
  show andThen ⟨.ok (a, [])⟩ f = f a
  rcases h : f a with ⟨e | ⟨b, ns⟩⟩ <;> simp [andThen, h]

theorem bind_pure (x : Traced α) : x >>= pure = x := by
  show andThen x (fun a ↦ ⟨.ok (a, [])⟩) = x
  rcases x with ⟨e | ⟨a, ns⟩⟩ <;> simp [andThen]

theorem bind_assoc (x : Traced α) (f : α → Traced β) (g : β → Traced γ) :
    x >>= f >>= g = x >>= fun a ↦ f a >>= g := by
  show andThen (andThen x f) g = andThen x fun a ↦ andThen (f a) g
  rcases x with ⟨e | ⟨a, n₁⟩⟩
  · rfl
  · rcases hf : f a with ⟨e | ⟨b, n₂⟩⟩
    · simp [andThen, hf]
    · rcases hg : g b with ⟨e | ⟨c, n₃⟩⟩ <;> simp [andThen, hf, hg]

instance : LawfulMonad Traced :=
  LawfulMonad.mk' Traced (fun x ↦ bind_pure x) pure_bind bind_assoc

end Traced

end TransportStream
