import TransportStream.Proofs.Packet.Fields
import TransportStream.Proofs.Packet.Content

namespace TransportStream

namespace ClockReference

variable {b₀ b₁ b₂ b₃ b₄ b₅ : UInt8}

theorem ofBytes_toBytes (c : ClockReference) : ofBytes c.toBytes = .ok c := by
  have hbase := c.base_lt
  have hextension := c.extension_lt
  refine congrArg Except.ok (ClockReference.ext ?_ ?_) <;>
  · simp only [read, bits, UInt8.toNat_ofNat', Nat.shiftRight_eq_div_pow, Nat.one_shiftLeft]
    omega

theorem or_reserved (b : UInt8) : b ||| 0x7e = withBits b 1 6 0x3f := by
  have hmask : ∀ i < 8, ∀ set : Bool, (set || Nat.testBit 0x7e i) =
      if 1 ≤ i ∧ i < 1 + 6 then Nat.testBit 0x3f (i - 1) else set := by decide
  apply eq_of_testBit
  intro i hi
  rw [UInt8.toNat_or, Nat.testBit_or, testBit_withBits b 1 6 _ hi]
  exact hmask i hi _

theorem toBytes_read : (read b₀ b₁ b₂ b₃ b₄ b₅).toBytes = [b₀, b₁, b₂, b₃, b₄ ||| 0x7e, b₅] := by
  have h₀ := b₀.toNat_lt
  have h₁ := b₁.toNat_lt
  have h₂ := b₂.toNat_lt
  have h₃ := b₃.toNat_lt
  have h₄ := b₄.toNat_lt
  have h₅ := b₅.toNat_lt
  rw [or_reserved]
  simp only [toBytes, read, bits, withBits, Nat.shiftRight_eq_div_pow, Nat.shiftLeft_eq,
    List.cons.injEq, ← UInt8.toNat_inj, UInt8.toNat_ofNat']
  refine ⟨?_, ?_, ?_, ?_, ?_, ?_, trivial⟩
  all_goals omega

theorem ticks_lt_wordLimit (c : ClockReference) : c.ticks < wordLimit := by
  have hbase := c.base_lt
  have hextension := c.extension_lt
  rw [ticks, wordLimit]
  omega

theorem ofTicks_ticks_iff {c : ClockReference} : ofTicks c.ticks = c ↔ c.extension < 300 := by
  constructor
  · intro h
    rw [← h]
    exact extension_ofTicks_lt _
  · intro h
    have hwrap : c.ticks % wrap = c.base * 300 + c.extension := Nat.mod_eq_of_lt (ticks_lt_wrap h)
    refine ClockReference.ext ?_ ?_
    · show c.ticks % wrap / 300 = c.base
      omega
    · show c.ticks % wrap % 300 = c.extension
      omega

end ClockReference

theorem AdaptationField.clock_of_bytes {f : AdaptationField} {c : ClockReference} {rest : Bytes}
    (h : f.bytes = 0x10 :: (c.toBytes ++ rest)) :
    f.discontinuity = false ∧ f.clock = .ok (.ok c) := by
  have hflags : f.flags = 0x10 := by
    obtain ⟨bytes, nonempty⟩ := f
    cases h
    rfl
  have hlength : ¬ f.bytes.length < 7 := by
    rw [h, List.length_cons, List.length_append, ClockReference.length_toBytes]
    omega
  have hslice : slice f.bytes 1 7 = .ok c.toBytes := by
    rw [h]
    exact slice_eq_ok_iff.2 ⟨⟨by decide, by simp⟩, rfl⟩
  constructor
  · rw [AdaptationField.discontinuity, hflags]
    rfl
  · rw [AdaptationField.clock, AdaptationField.hasClock, hflags]
    show (if f.bytes.length < 7 then _ else _) = _
    rw [if_neg hlength]
    exact bind_eq_ok_iff.2 ⟨_, hslice, bind_eq_ok_iff.2 ⟨c, c.ofBytes_toBytes, rfl⟩⟩

namespace Packet

variable (p : Packet) (pid : Pid) (c : ContinuityCounter) (clock : ClockReference)

theorem byte_withClock {i : Fin size} (hi : i.val < headerSize) :
    (p.withClock clock).byte i = p.byte i := by
  refine byte_eq_of_take ?_ hi
  show (p.bytes.take headerSize ++ _ ++ _).take headerSize = _
  rw [List.append_assoc]
  exact take_append_of_header p _

theorem pid_withClock : (p.withClock clock).pid = p.pid := by
  apply Pid.ext
  simp only [Packet.pid]
  rw [byte_withClock p clock (by decide), byte_withClock p clock (by decide)]

theorem counter_withClock : (p.withClock clock).counter = p.counter := by
  apply ContinuityCounter.ext
  simp only [counter]
  rw [byte_withClock p clock (by decide)]

theorem layout_withClock : (p.withClock clock).layout = p.layout := by
  simp only [layout]
  rw [byte_withClock p clock (by decide)]

theorem bytes_withClock : (p.withClock clock).bytes =
    (p.bytes.take headerSize ++ [183]) ++ (0x10 :: (clock.toBytes ++ p.bytes.drop 12)) := by
  simp [withClock]

theorem length_take_append_singleton (b : UInt8) :
    (p.bytes.take headerSize ++ [b]).length = adaptationOffset := by
  rw [List.length_append, List.length_take, p.length_bytes]
  rfl

theorem adaptationLength_withClock : (p.withClock clock).adaptationLength = 183 := by
  obtain ⟨bytes, hlength⟩ := p
  match bytes, hlength with
  | _ :: _ :: _ :: _ :: _, _ => rfl

theorem adaptationBytes_withClock : (p.withClock clock).adaptationBytes =
    0x10 :: (clock.toBytes ++ p.bytes.drop 12) := by
  have hfull : (p.withClock clock).bytes.length ≤
      adaptationOffset + (p.withClock clock).adaptationLength := by
    rw [(p.withClock clock).length_bytes, adaptationLength_withClock]
    exact Nat.le_refl 188
  rw [adaptationBytes, List.take_of_length_le hfull, bytes_withClock]
  exact List.drop_left' (length_take_append_singleton p 183)

theorem pid_clockOnly : (clockOnly pid c clock).pid = pid := by
  rw [clockOnly, pid_withClock, pid_setLayout, pid_payloadOnly]

theorem counter_clockOnly : (clockOnly pid c clock).counter = c := by
  rw [clockOnly, counter_withClock, counter_setLayout, counter_payloadOnly]

theorem layout_clockOnly : (clockOnly pid c clock).layout = .adaptationOnly := by
  rw [clockOnly, layout_withClock, layout_setLayout]

theorem content_clockOnly : (clockOnly pid c clock).content = none := by
  refine if_neg fun h ↦ ?_
  rw [layout_clockOnly] at h
  cases h.1

theorem adaptationField_clockOnly : ∃ field,
    (clockOnly pid c clock).adaptationField.value = .ok (some field) ∧
      field.discontinuity = false ∧ field.clock = .ok (.ok clock) := by
  have has : (clockOnly pid c clock).HasAdaptation :=
    .inl ⟨layout_clockOnly pid c clock, adaptationLength_withClock _ clock⟩
  exact ⟨_, value_adaptationField_of_has _ has,
    AdaptationField.clock_of_bytes (adaptationBytes_withClock _ clock)⟩

end Packet

namespace ClockReference

theorem exists_ofParts_iff {base extension : Nat} :
    (∃ c, ofParts base extension = .ok c ∧ c.base = base ∧ c.extension = extension ∧
      ofBytes c.toBytes = .ok c) ↔ base < 1 <<< 33 ∧ extension < 1 <<< 9 := by
  constructor
  · rintro ⟨c, -, rfl, rfl, -⟩
    exact ⟨c.base_lt, c.extension_lt⟩
  · intro h
    exact ⟨⟨base, extension, h.1, h.2⟩, dif_pos h, rfl, rfl, ofBytes_toBytes _⟩

/-- The parts, the bytes, the ticks and the packet of a clock reference. The parts are read back
from the bytes; the bytes are written again with their reserved bits set; ticks count modulo the
wrap, and name the references whose extension is below 300; and a packet of a clock alone carries
just that. -/
theorem codings_agree :
    (∀ base extension, (∃ c, ofParts base extension = .ok c ∧ c.base = base ∧
      c.extension = extension ∧ ofBytes c.toBytes = .ok c) ↔
        base < 1 <<< 33 ∧ extension < 1 <<< 9) ∧
    (∀ b₀ b₁ b₂ b₃ b₄ b₅, ∃ c, ofBytes [b₀, b₁, b₂, b₃, b₄, b₅] = .ok c ∧
      c.toBytes = [b₀, b₁, b₂, b₃, b₄ ||| 0x7e, b₅]) ∧
    (∀ n, (ofTicks n).base < 1 <<< 33 ∧ (ofTicks n).extension < 300 ∧
      (ofTicks n).ticks = n % ((1 <<< 33) * 300)) ∧
    (∀ c : ClockReference, c.ticks < wordLimit ∧ (ofTicks c.ticks = c ↔ c.extension < 300)) ∧
    (∀ pid counter c, (Packet.clockOnly pid counter c).pid = pid ∧
      (Packet.clockOnly pid counter c).counter = counter ∧
      (Packet.clockOnly pid counter c).payload.value = .ok none ∧
      ∃ field, (Packet.clockOnly pid counter c).adaptationField.value = .ok (some field) ∧
        field.discontinuity = false ∧ field.clock = .ok (.ok c)) := by
  refine ⟨fun _ _ ↦ exists_ofParts_iff, fun _ _ _ _ _ _ ↦ ⟨_, rfl, toBytes_read⟩,
    fun n ↦ ⟨(ofTicks n).base_lt, extension_ofTicks_lt n, ticks_ofTicks n⟩,
    fun c ↦ ⟨c.ticks_lt_wordLimit, ofTicks_ticks_iff⟩, fun pid counter c ↦ ?_⟩
  have hpayload := Packet.value_payload (.clockOnly pid counter c)
  rw [Packet.content_clockOnly] at hpayload
  exact ⟨Packet.pid_clockOnly pid counter c, Packet.counter_clockOnly pid counter c, hpayload,
    Packet.adaptationField_clockOnly pid counter c⟩

end ClockReference

end TransportStream
