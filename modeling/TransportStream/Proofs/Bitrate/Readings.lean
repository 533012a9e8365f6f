import TransportStream.Bitrate
import TransportStream.Proofs.Packet.Content

namespace TransportStream

theorem getElem?_append_singleton_eq_some {α : Type} {xs : List α} {x y : α} {i : Nat}
    (h : (xs ++ [x])[i]? = some y) : xs[i]? = some y ∨ i = xs.length ∧ x = y := by
  rcases Nat.lt_or_ge i xs.length with hi | hi
  · rw [List.getElem?_append_left hi] at h
    exact .inl h
  · rw [List.getElem?_append_right hi, List.getElem?_singleton] at h
    split at h
    · exact .inr ⟨by omega, Option.some.inj h⟩
    · cases h

def AdaptationField.reference? (f : AdaptationField) : Option ClockReference :=
  match f.clock with
  | .ok (.ok c) => some c
  | .ok (.error _) | .error _ => none

def Packet.reading? (p : Packet) : Option ClockReference :=
  match p.adaptationField.value with
  | .ok f => f.bind (·.reference?)
  | .error _ => none

namespace BitrateEstimator

variable (e : BitrateEstimator) (p : Packet)

/-- The estimator without the readings that a break announced by the packet parts from its own. -/
def parted : BitrateEstimator :=
  if p.breakSignalled then e.forget p.pid else e

theorem value_feed : (e.feed p).value = fit wordLimit (e.packetCount + 1) >>= fun n ↦
    match p.reading? with
    | none => .ok ({ e with packetCount := n }.parted p)
    | some c => (({ e with packetCount := n }.parted p).observe p.pid
        ⟨c.ticks, e.packetCount⟩).value := by
  obtain ⟨field, hfield⟩ := p.adaptationField_ok
  unfold feed parted
  rw [Traced.value_bind, Traced.value_liftM]
  refine congrArg _ (funext fun n ↦ ?_)
  rw [Traced.value_bind_of_ok hfield, Packet.reading?, Packet.breakSignalled, hfield]
  cases field with
  | none => rfl
  | some f =>
    obtain ⟨r, hr⟩ := f.exists_clock
    dsimp only [Option.bind_some, Option.elim_some]
    rw [Traced.value_liftM_bind_of_ok hr, AdaptationField.reference?, hr]
    cases r <;> rfl

def noteTicks (pid : Pid) (known : Option Nat) (p : Packet) : Option Nat :=
  if p.pid = pid then
    match p.reading? with
    | some c => some c.ticks
    | none => if p.breakSignalled then none else known
  else known

/-- The ticks of the last reading of a substream since the last break. -/
def lastTicks? (pid : Pid) (packets : List Packet) : Option Nat :=
  packets.foldl (noteTicks pid) none

theorem lastTicks?_append_singleton (pid : Pid) (packets : List Packet) :
    lastTicks? pid (packets ++ [p]) = noteTicks pid (lastTicks? pid packets) p := by
  rw [lastTicks?, List.foldl_append]
  rfl

/-- Whether the clock of a packet shows a time that is more than a whole turn of the clock before
the last one of its substream. -/
def FallsBehind (before : List Packet) (p : Packet) : Prop :=
  p.breakSignalled = false ∧ ∃ earlier later, lastTicks? p.pid before = some earlier ∧
    p.reading? = some later ∧ later.ticks + ClockReference.wrap < earlier

def NeverBehind (packets : List Packet) : Prop :=
  ∀ i p, packets[i]? = some p → ¬ FallsBehind (packets.take i) p

end BitrateEstimator

end TransportStream
