import TransportStream.Packet.Build
import TransportStream.Packet.Content

namespace TransportStream

theorem AdaptationField.exists_clock (f : AdaptationField) : ∃ r, f.clock = .ok r := by
  unfold clock
  split
  · exact ⟨_, rfl⟩
  · split
    · exact ⟨_, rfl⟩
    · next hlen =>
      have hle : 7 ≤ f.bytes.length := Nat.not_lt.1 hlen
      have hslice : slice f.bytes 1 7 = .ok ((f.bytes.take 7).drop 1) :=
        slice_eq_ok_iff.2 ⟨⟨by decide, hle⟩, rfl⟩
      have hsix : ((f.bytes.take 7).drop 1).length = 6 := length_of_slice hslice
      obtain ⟨c, hc⟩ : ∃ c, ClockReference.ofBytes ((f.bytes.take 7).drop 1) = .ok c := by
        match (f.bytes.take 7).drop 1, hsix with
        | [b₀, b₁, b₂, b₃, b₄, b₅], _ => exact ⟨.read b₀ b₁ b₂ b₃ b₄ b₅, rfl⟩
      exact ⟨.ok c, bind_eq_ok_iff.2 ⟨_, hslice, bind_eq_ok_iff.2 ⟨c, hc, rfl⟩⟩⟩

namespace Packet

variable (p : Packet)

def content : Option Bytes :=
  if p.layout.hasPayload = true ∧ p.contentOffset < size then some (p.bytes.drop p.contentOffset)
  else none

theorem value_payload : p.payload.value = .ok p.content := by
  have hl := p.length_bytes
  unfold payload content
  by_cases hp : p.layout.hasPayload = true
  · rw [if_neg (by simp [hp])]
    rcases Nat.lt_trichotomy p.contentOffset size with h | h | h
    · have hs : slice p.bytes p.contentOffset p.bytes.length =
          .ok (p.bytes.drop p.contentOffset) :=
        slice_eq_ok_iff.2 ⟨⟨by omega, Nat.le_refl _⟩, by rw [List.take_length]⟩
      rw [if_neg (by omega), if_neg (by omega), if_pos ⟨hp, h⟩, hs]
      rfl
    · rw [if_pos (by omega), if_neg (by omega)]
      rfl
    · rw [if_neg (by omega), if_pos (by omega), if_neg (by omega)]
      rfl
  · rw [if_pos (by simp [hp]), if_neg (fun h ↦ hp h.1)]
    rfl

theorem content_ne_nil {payload : Bytes} (h : p.content = some payload) : payload ≠ [] := by
  unfold content at h
  split at h
  · next hc =>
    cases h
    apply List.ne_nil_of_length_pos
    rw [List.length_drop, p.length_bytes]
    omega
  · cases h

def adaptationBytes : Bytes :=
  (p.bytes.take (adaptationOffset + p.adaptationLength)).drop adaptationOffset

theorem length_adaptationBytes (h : adaptationOffset + p.adaptationLength ≤ size) :
    p.adaptationBytes.length = p.adaptationLength := by
  rw [adaptationBytes, List.length_drop, List.length_take, p.length_bytes, Nat.min_eq_left h,
    Nat.add_sub_cancel_left]

/-- Whether the adaptation field can be read: it fills the packet, or leaves room for a payload. -/
def HasAdaptation : Prop :=
  p.layout = .adaptationOnly ∧ p.adaptationLength = size - adaptationOffset ∨
    p.layout = .adaptationAndPayload ∧ p.adaptationLength ≠ 0 ∧
      p.adaptationLength < size - adaptationOffset

theorem HasAdaptation.length_le {p : Packet} (h : p.HasAdaptation) :
    adaptationOffset + p.adaptationLength ≤ size := by
  have hroom : adaptationOffset ≤ size := by decide
  rcases h with ⟨-, h⟩ | ⟨-, -, h⟩ <;> omega

theorem HasAdaptation.bytes_ne_nil {p : Packet} (h : p.HasAdaptation) : p.adaptationBytes ≠ [] := by
  have hroom : adaptationOffset < size := by decide
  apply List.ne_nil_of_length_pos
  rw [length_adaptationBytes p h.length_le]
  rcases h with ⟨-, h⟩ | ⟨-, h, -⟩ <;> omega

theorem declaredAdaptation_eq (h : p.HasAdaptation) :
    p.declaredAdaptation = .ok ⟨p.adaptationBytes, h.bytes_ne_nil⟩ := by
  have hslice : slice p.bytes adaptationOffset (adaptationOffset + p.adaptationLength) =
      .ok p.adaptationBytes :=
    slice_eq_ok_iff.2 ⟨⟨Nat.le_add_right _ _, by rw [p.length_bytes]; exact h.length_le⟩, rfl⟩
  rw [declaredAdaptation, hslice]
  exact dif_pos h.bytes_ne_nil

theorem value_adaptationField_of_has (h : p.HasAdaptation) :
    p.adaptationField.value = .ok (some ⟨p.adaptationBytes, h.bytes_ne_nil⟩) := by
  have hdeclared := declaredAdaptation_eq p h
  generalize AdaptationField.mk p.adaptationBytes h.bytes_ne_nil = f at hdeclared ⊢
  unfold adaptationField
  rcases h with ⟨hlayout, hlength⟩ | ⟨hlayout, hpos, hlength⟩
  · rw [hlayout]
    dsimp only
    rw [if_neg (not_not_intro hlength), hdeclared]
    rfl
  · rw [hlayout]
    dsimp only
    rw [if_neg (Nat.not_le.2 hlength), if_neg hpos, hdeclared]
    rfl

theorem value_adaptationField_of_not (h : ¬ p.HasAdaptation) :
    p.adaptationField.value = .ok none := by
  unfold adaptationField
  cases hlayout : p.layout with
  | reserved | payloadOnly => rfl
  | adaptationOnly =>
    dsimp only
    rw [if_pos fun hlength ↦ h (.inl ⟨hlayout, hlength⟩)]
    rfl
  | adaptationAndPayload =>
    dsimp only
    split
    · rfl
    · next hlength =>
      rw [if_pos (Decidable.not_not.1 fun hpos ↦
        h (.inr ⟨hlayout, hpos, Nat.not_le.1 hlength⟩))]
      rfl

theorem adaptationField_ok : ∃ f, p.adaptationField.value = .ok f := by
  by_cases h : p.HasAdaptation
  · exact ⟨_, value_adaptationField_of_has p h⟩
  · exact ⟨_, value_adaptationField_of_not p h⟩

def breakSignalled : Bool :=
  match p.adaptationField.value with
  | .ok f => f.elim false (·.discontinuity)
  | .error _ => false

theorem breakSignalled_of_payloadOnly (h : p.layout = .payloadOnly) :
    p.breakSignalled = false := by
  simp only [breakSignalled, adaptationField, h]
  rfl

def leading (pid : Pid) (data : Bytes) : Packet :=
  ((payloadOnly pid .zero).setUnitStart true).withPayload (0 :: data)

end Packet

end TransportStream
