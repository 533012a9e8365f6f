import TransportStream.Proofs.Packet.Content

namespace TransportStream

theorem PacketLayout.toCode_ofCode {n : Nat} (h : n < 4) : (ofCode n).toCode = n := by
  match n, h with
  | 0, _ | 1, _ | 2, _ | 3, _ => rfl

namespace Packet

variable {p : Packet} {data body rest : Bytes} {field : AdaptationField}
  {b₀ b₁ b₂ b₃ b₄ : UInt8}

structure ReadsHeader (p : Packet) (b₁ b₂ b₃ : UInt8) : Prop where
  unitStart : p.unitStart = bit b₁ 6
  pid : Pid.ofNat (bits b₁ 0 5 * 256 + b₂.toNat) = .ok p.pid
  scrambling : p.scrambling = bits b₃ 6 2 ∧ p.scrambling < 4
  layout : p.layout.toCode = bits b₃ 4 2
  counter : ContinuityCounter.ofNat (bits b₃ 0 4) = .ok p.counter

theorem readsHeader (p : Packet) : p.ReadsHeader (p.byte 1) (p.byte 2) (p.byte 3) where
  unitStart := rfl
  pid := Pid.ofNat_eq_ok_iff.2 rfl
  scrambling := ⟨rfl, bits_lt _ _ _⟩
  layout := PacketLayout.toCode_ofCode (bits_lt _ _ _)
  counter := dif_pos p.counter.val_lt

theorem exists_header (hsync : p.bytes.head? = some syncByte) :
    ∃ rest, p.bytes = syncByte :: p.byte 1 :: p.byte 2 :: p.byte 3 :: p.byte 4 :: rest := by
  obtain ⟨bytes, hlength⟩ := p
  match bytes, hlength with
  | b₀ :: b₁ :: b₂ :: b₃ :: b₄ :: rest, _ =>
    cases hsync
    exact ⟨rest, rfl⟩

theorem hasAdaptation_of_some (h : p.adaptationField.value = .ok (some field)) :
    p.HasAdaptation ∧ field.bytes = p.adaptationBytes := by
  by_cases has : p.HasAdaptation
  · cases (value_adaptationField_of_has p has).symm.trans h
    exact ⟨has, rfl⟩
  · cases (value_adaptationField_of_not p has).symm.trans h

theorem adaptationBytes_eq (hbytes : p.bytes = b₀ :: b₁ :: b₂ :: b₃ :: b₄ :: rest) :
    p.adaptationBytes = rest.take p.adaptationLength := by
  rw [adaptationBytes, hbytes, Nat.add_comm]
  rfl

theorem content_eq_some (h : p.content = some body) :
    p.layout.hasPayload = true ∧ p.contentOffset < size ∧ p.bytes.drop p.contentOffset = body := by
  unfold Packet.content at h
  split at h
  · next hroom => exact ⟨hroom.1, hroom.2, Option.some.inj h⟩
  · cases h

theorem contentOffset_of_both (hlayout : p.layout = .adaptationAndPayload) :
    p.contentOffset = adaptationOffset + p.adaptationLength := by
  rw [contentOffset, hlayout]

theorem content_eq_none_iff (hlayout : p.layout = .adaptationAndPayload) :
    p.content = none ↔ 183 ≤ p.adaptationLength := by
  have hoffset : p.contentOffset = 5 + p.adaptationLength := contentOffset_of_both hlayout
  have hpayload : p.layout.hasPayload = true := by rw [hlayout]; rfl
  unfold Packet.content
  by_cases h : p.contentOffset < size
  · rw [if_pos ⟨hpayload, h⟩]
    exact iff_of_false (fun h' ↦ by cases h') (by simp only [size] at h; omega)
  · rw [if_neg fun h' ↦ h h'.2]
    exact iff_of_true rfl (by simp only [size] at h; omega)

theorem not_hasAdaptation_iff (hlayout : p.layout = .adaptationAndPayload) :
    ¬ p.HasAdaptation ↔ p.adaptationLength = 0 ∨ 183 ≤ p.adaptationLength := by
  have hsize : size - adaptationOffset = 183 := rfl
  simp only [HasAdaptation, hlayout, hsize, true_and, reduceCtorEq, false_and, false_or]
  omega

theorem hasPayload_of_hasAdaptation (has : p.HasAdaptation) (h : p.layout.hasPayload = true) :
    p.layout = .adaptationAndPayload := by
  rcases has with ⟨hlayout, -⟩ | ⟨hlayout, -⟩
  · rw [hlayout] at h
    cases h
  · exact hlayout

theorem adaptation_append_content (hbytes : p.bytes = b₀ :: b₁ :: b₂ :: b₃ :: b₄ :: rest)
    (hfield : p.adaptationField.value = .ok (some field)) (hbody : p.content = some body) :
    field.bytes ++ body = rest := by
  obtain ⟨has, hbytes'⟩ := hasAdaptation_of_some hfield
  obtain ⟨hpayload, -, rfl⟩ := content_eq_some hbody
  rw [contentOffset_of_both (hasPayload_of_hasAdaptation has hpayload), hbytes',
    adaptationBytes_eq hbytes, hbytes, Nat.add_comm]
  exact List.take_append_drop ..

theorem adaptationField_eq_none_iff {field? : Option AdaptationField}
    (h : p.adaptationField.value = .ok field?) : field? = none ↔ ¬ p.HasAdaptation := by
  by_cases has : p.HasAdaptation
  · cases (value_adaptationField_of_has p has).symm.trans h
    exact iff_of_false (fun h ↦ by cases h) (not_not_intro has)
  · cases (value_adaptationField_of_not p has).symm.trans h
    exact iff_of_true rfl has

theorem ofBytes_of_synced (hlength : data.length = size) (hsync : data.head? = some syncByte) :
    ∃ p, ofBytes data = .ok p ∧ p.bytes = data := by
  have h : ofBytes? data = .ok (some ⟨data, hlength⟩) := ofBytes?_eq_some_iff.2 ⟨rfl, hsync⟩
  refine ⟨⟨data, hlength⟩, ?_, rfl⟩
  rw [ofBytes, h]
  rfl

/-- The parts of 188 bytes that a sync byte comes first in. -/
theorem parts_of_synced (hlength : data.length = size) (hsync : data.head? = some syncByte) :
    ∃ p b₁ b₂ b₃ b₄ rest field? payload?,
      ofBytes data = .ok p ∧ p.bytes = data ∧ data = syncByte :: b₁ :: b₂ :: b₃ :: b₄ :: rest ∧
      ReadsHeader p b₁ b₂ b₃ ∧
      p.adaptationField.value = .ok field? ∧ p.payload.value = .ok payload? ∧
      (∀ field, field? = some field →
        field.bytes ≠ [] ∧ field.bytes <+: rest ∧ ∃ r, field.clock = .ok r) ∧
      (∀ body, payload? = some body → body ≠ [] ∧ body <:+ data) ∧
      (∀ field body, field? = some field → payload? = some body →
        field.bytes ++ body = rest ∧ 5 + field.bytes.length + body.length = 188) ∧
      (p.layout = .adaptationAndPayload →
        (payload? = none ↔ 183 ≤ b₄.toNat) ∧
        (field? = none ↔ b₄.toNat = 0 ∨ 183 ≤ b₄.toNat)) := by
  obtain ⟨p, hp, rfl⟩ := ofBytes_of_synced hlength hsync
  obtain ⟨rest, hbytes⟩ := exists_header hsync
  obtain ⟨field?, hfield?⟩ := p.adaptationField_ok
  refine ⟨p, _, _, _, _, rest, field?, p.content, hp, rfl, hbytes, readsHeader p, hfield?,
    p.value_payload, ?field, ?payload, ?both, ?limits⟩
  case field =>
    rintro field rfl
    obtain ⟨-, hfield⟩ := hasAdaptation_of_some hfield?
    rw [adaptationBytes_eq hbytes] at hfield
    exact ⟨field.nonempty, hfield ▸ List.take_prefix _ _, field.exists_clock⟩
  case payload =>
    intro body hbody
    obtain ⟨-, -, hdrop⟩ := content_eq_some hbody
    exact ⟨p.content_ne_nil hbody, hdrop ▸ List.drop_suffix _ _⟩
  case both =>
    rintro field body rfl hbody
    have hrest := adaptation_append_content hbytes hfield? hbody
    have hlength : 188 = _ := p.length_bytes.symm.trans (congrArg List.length hbytes)
    rw [← hrest, List.length_cons, List.length_cons, List.length_cons, List.length_cons,
      List.length_cons, List.length_append] at hlength
    exact ⟨hrest, by omega⟩
  case limits =>
    intro hlayout
    exact ⟨content_eq_none_iff hlayout,
      (adaptationField_eq_none_iff hfield?).trans (not_hasAdaptation_iff hlayout)⟩

theorem parts_of_synced_both : ∃ data p field body, data.length = size ∧
    data.head? = some syncByte ∧ ofBytes data = .ok p ∧ p.layout = .adaptationAndPayload ∧
    p.adaptationField.value = .ok (some field) ∧ p.payload.value = .ok (some body) ∧
    data = data.take 5 ++ (field.bytes ++ body) ∧ 5 + field.bytes.length + body.length = 188 := by
  let data : Bytes :=
    [0x47, 0x40, 0x11, 0x35, 7, 0x10, 0, 0, 0, 0, 0xfe, 0] ++ List.replicate 176 0xff
  obtain ⟨p, b₁, b₂, b₃, b₄, rest, field?, payload?, hp, hbytes, hdata, header, hfield, hpayload,
    -, -, hboth, hlimits⟩ := @parts_of_synced data rfl rfl
  have hflags : b₃ = 0x35 := (Option.some.inj (congrArg (fun d : Bytes ↦ d[3]?) hdata)).symm
  have hdeclared : b₄ = 7 := (Option.some.inj (congrArg (fun d : Bytes ↦ d[4]?) hdata)).symm
  have hlayout : p.layout = .adaptationAndPayload := by
    rw [← p.layout.ofCode_toCode, header.layout, hflags]
    rfl
  obtain ⟨hnopayload, hnofield⟩ := hlimits hlayout
  obtain ⟨field, rfl⟩ := Option.ne_none_iff_exists'.1
    fun h ↦ absurd (hnofield.1 h) (by rw [hdeclared]; decide)
  obtain ⟨body, rfl⟩ := Option.ne_none_iff_exists'.1
    fun h ↦ absurd (hnopayload.1 h) (by rw [hdeclared]; decide)
  obtain ⟨hrest, htotal⟩ := hboth field body rfl rfl
  exact ⟨data, p, field, body, rfl, rfl, hp, hlayout, hfield, hpayload, by rw [hrest, hdata]; rfl,
    htotal⟩

end Packet

end TransportStream
