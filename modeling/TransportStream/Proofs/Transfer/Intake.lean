import TransportStream.Proofs.Demux.Reassembly
import TransportStream.Proofs.Packing.Carriage
import TransportStream.Proofs.Packing.Filling

namespace TransportStream

variable {ended rest : List Section} {n sent ahead : Nat}

namespace Extraction

theorem split_joined (he : ∀ s ∈ ended, IsSection s.bytes) (hr : ∀ s ∈ rest, IsSection s.bytes)
    (hw : Within ahead rest) (padding : Nat) (hp : 0 < padding → ahead = 0) :
    (split (joined ended ++ (joined rest).take ahead ++ List.replicate padding 0xff)).pieces =
        ended.map (·.bytes) ∧
      (split (joined ended ++ (joined rest).take ahead ++
        List.replicate padding 0xff)).pending = (joined rest).take ahead := by
  induction ended with
  | nil =>
    rw [joined_nil, List.nil_append, List.map_nil]
    rcases Nat.eq_zero_or_pos ahead with rfl | ha
    · rw [List.take_zero, List.nil_append]
      cases padding with
      | zero => rw [List.replicate_zero, split_nil]; exact ⟨rfl, rfl⟩
      | succ k => rw [split_of_stuffing rfl]; exact ⟨rfl, rfl⟩
    · obtain rfl : padding = 0 := by omega
      cases rest with
      | nil => exact absurd hw (by rw [Within]; omega)
      | cons s tail =>
        have hs : ahead < s.bytes.length := hw
        have hu := (hr s (List.mem_cons_self ..)).unfinished_take ha hs
        rw [joined_cons, List.take_append_of_le_length (Nat.le_of_lt hs), List.replicate_zero,
          List.append_nil, split_of_unfinished hu]
        exact ⟨rfl, rfl⟩
  | cons s tail ih =>
    obtain ⟨hpieces, hpending⟩ := ih fun t ht ↦ he t (List.mem_cons_of_mem _ ht)
    have hs := split_section_append (he s (List.mem_cons_self ..))
      (joined tail ++ (joined rest).take ahead ++ List.replicate padding 0xff)
    rw [joined_cons, List.append_assoc, List.append_assoc, ← List.append_assoc (joined tail), hs]
    exact ⟨congrArg (s.bytes :: ·) hpieces, hpending⟩

end Extraction

theorem take_append_drop_joined (hlt : sent ≤ (joined ended).length + ahead) :
    (joined (ended ++ rest)).take sent ++
        (joined ended ++ (joined rest).take ahead).drop sent =
      joined ended ++ (joined rest).take ahead := by
  have h : joined ended ++ (joined rest).take ahead =
      (joined (ended ++ rest)).take ((joined ended).length + ahead) := by
    rw [joined_append, List.take_length_add_append]
  have ht : (joined (ended ++ rest)).take sent =
      ((joined (ended ++ rest)).take ((joined ended).length + ahead)).take sent := by
    rw [List.take_take, Nat.min_eq_left hlt]
  rw [h, ht, List.take_append_drop]

namespace Reassembly

variable {share : SectionPacker.Share (UInt8 × Nat)} (z : SectionPacker) (r : Reassembly)

theorem started_cons {distance : Nat} {data : Bytes} (h : distance < 256)
    (hd : distance ≤ data.length) :
    r.started (UInt8.ofNat distance :: data) =
      (r.keep (Extraction.split (data.drop distance)).pending,
        { r.finished (data.take distance) with
          pieces := (r.finished (data.take distance)).pieces ++
            (Extraction.split (data.drop distance)).pieces }) := by
  have hb : (UInt8.ofNat distance).toNat = distance := by
    rw [UInt8.toNat_ofNat']
    exact Nat.mod_eq_of_lt h
  unfold started
  simp only [List.headD_cons, List.drop_succ_cons, List.drop_zero, hb]
  rw [if_neg (Nat.not_lt.2 hd)]

theorem absorbed_packet_of_some {distance : Nat} (hptr : share.pointer = some distance)
    (hl : share.items.length ≤ SectionPacker.pointedSize) :
    r.absorbed (z.packet share) =
      r.started (UInt8.ofNat distance :: (share.items.map Prod.fst ++
        List.replicate (SectionPacker.pointedSize - share.items.length) 0xff)) := by
  have hm : (share.items.map Prod.fst).length ≤ SectionPacker.pointedSize := by
    rwa [List.length_map]
  rw [SectionPacker.packet, hptr, absorbed, SectionPacker.isScrambled_fill,
    SectionPacker.content_fill_some z _ hm, SectionPacker.unitStart_fill, List.length_map]
  rfl

theorem absorbed_packet_of_none (hptr : share.pointer = none)
    (hl : share.items.length ≤ Packet.maxPayloadSize) :
    r.absorbed (z.packet share) =
      r.continued (share.items.map Prod.fst ++
        List.replicate (Packet.maxPayloadSize - share.items.length) 0xff) := by
  have hm : (share.items.map Prod.fst).length ≤ Packet.maxPayloadSize := by
    rwa [List.length_map]
  rw [SectionPacker.packet, hptr, absorbed, SectionPacker.isScrambled_fill,
    SectionPacker.content_fill_none z _ hm, SectionPacker.unitStart_fill, List.length_map]
  rfl

variable (takes : share.Takes n ended rest sent ahead) (after : Within ahead rest)
  (sections : ∀ s ∈ ended ++ rest, IsSection s.bytes)

include takes after sections

theorem absorbed_start (h₀ : sent = 0) :
    r.absorbed (z.packet share) =
      (r.keep ((joined rest).take ahead),
        { r.finished [] with pieces := (r.finished []).pieces ++ ended.map (·.bytes) }) := by
  have hd := takes.map_fst_items
  have hl := takes.length_le
  have hp := takes.ahead_eq_zero
  rw [h₀, List.drop_zero] at hd
  cases hptr : share.pointer with
  | none =>
    have hs := (takes.unpointed hptr).1
    omega
  | some distance =>
    rw [SectionPacker.Share.room, hptr] at hl hp
    obtain ⟨-, ⟨-, rfl⟩ | ⟨hs, -⟩⟩ := takes.pointed distance hptr
    · obtain ⟨hpieces, hpending⟩ := Extraction.split_joined
        (fun s hs ↦ sections s (List.mem_append_left _ hs))
        (fun s hs ↦ sections s (List.mem_append_right _ hs)) after
        (SectionPacker.pointedSize - share.items.length) (fun h ↦ hp (Nat.sub_pos_iff_lt.1 h))
      rw [absorbed_packet_of_some z r hptr hl, started_cons r (by decide) (Nat.zero_le _),
        List.drop_zero, List.take_zero, hd, hpieces, hpending]
    · omega

theorem absorbed_pointed {distance : Nat} {s : Section} {tail : List Section} (h₀ : 0 < sent)
    (hptr : share.pointer = some distance) (hs : ended = s :: tail) :
    r.absorbed (z.packet share) =
      (r.keep ((joined rest).take ahead),
        { r.finished (s.bytes.drop sent) with
          pieces := (r.finished (s.bytes.drop sent)).pieces ++ tail.map (·.bytes) }) := by
  have hd := takes.map_fst_items
  have hl := takes.length_le
  have hp := takes.ahead_eq_zero
  rw [SectionPacker.Share.room, hptr] at hl hp
  obtain ⟨hlt, ⟨h, -⟩ | ⟨-, t, more, ht, hsize⟩⟩ := takes.pointed distance hptr
  · omega
  · obtain ⟨rfl, rfl⟩ := List.cons.inj (hs.symm.trans ht)
    subst hs
    have hsz : s.size = s.bytes.length := rfl
    have hb : (s.bytes.drop sent).length = distance := by
      rw [List.length_drop]
      omega
    have hdata : share.items.map Prod.fst =
        s.bytes.drop sent ++ (joined tail ++ (joined rest).take ahead) := by
      rw [hd, joined_cons, List.append_assoc, List.drop_append_of_le_length (by omega)]
    obtain ⟨hpieces, hpending⟩ := Extraction.split_joined
      (fun t ht ↦ sections t (List.mem_append_left _ (List.mem_cons_of_mem _ ht)))
      (fun t ht ↦ sections t (List.mem_append_right _ ht)) after
      (SectionPacker.pointedSize - share.items.length) (fun h ↦ hp (Nat.sub_pos_iff_lt.1 h))
    have hlen : distance ≤ (s.bytes.drop sent ++ (joined tail ++ (joined rest).take ahead ++
        List.replicate (SectionPacker.pointedSize - share.items.length) 0xff)).length := by
      rw [List.length_append, hb]
      exact Nat.le_add_right ..
    rw [absorbed_packet_of_some z r hptr hl, hdata, List.append_assoc,
      started_cons r (Nat.lt_trans hlt (by decide)) hlen, List.drop_left' hb, List.take_left' hb,
      hpieces, hpending]

theorem absorbed_whole (before : Within sent (ended ++ rest)) :
    (r.keep ((joined (ended ++ rest)).take sent)).absorbed (z.packet share) =
      (r.keep ((joined rest).take ahead), { pieces := ended.map (·.bytes) }) := by
  rcases Nat.eq_zero_or_pos sent with h₀ | h₀
  · rw [absorbed_start z _ takes after sections h₀, h₀]
    rfl
  have hne : (joined (ended ++ rest)).take sent ≠ [] := by
    apply List.ne_nil_of_length_pos
    have hle := before.le_length
    rw [List.length_take]
    omega
  have hacc : (r.keep ((joined (ended ++ rest)).take sent)).intake = .accumulating := if_neg hne
  have hl := takes.length_le
  cases hptr : share.pointer with
  | some distance =>
    obtain ⟨-, ⟨h, -⟩ | ⟨-, s, tail, rfl, -⟩⟩ := takes.pointed distance hptr
    · omega
    · have hs : sent < s.bytes.length := before
      have hsec := Extraction.split_section_append (sections s (List.mem_cons_self ..)) []
      have hb : (joined (s :: tail ++ rest)).take sent ++ s.bytes.drop sent = s.bytes := by
        rw [List.cons_append, joined_cons, List.take_append_of_le_length (Nat.le_of_lt hs),
          List.take_append_drop]
      have hf : (r.keep ((joined (s :: tail ++ rest)).take sent)).finished (s.bytes.drop sent) =
          { pieces := [s.bytes] } := by
        rw [List.append_nil, Extraction.split_nil] at hsec
        rw [finished_of_accumulating hacc hb, hsec]
        rfl
      rw [absorbed_pointed z _ takes after sections h₀ hptr rfl, hf]
      rfl
  | none =>
    rw [SectionPacker.Share.room, hptr] at hl
    obtain ⟨hpieces, hpending⟩ := Extraction.split_joined
      (fun t ht ↦ sections t (List.mem_append_left _ ht))
      (fun t ht ↦ sections t (List.mem_append_right _ ht)) after
      (Packet.maxPayloadSize - share.items.length) fun h ↦ takes.ahead_eq_zero (by
        rw [SectionPacker.Share.room, hptr]
        exact Nat.sub_pos_iff_lt.1 h)
    have hb : (joined (ended ++ rest)).take sent ++ (share.items.map Prod.fst ++
          List.replicate (Packet.maxPayloadSize - share.items.length) 0xff) =
        joined ended ++ (joined rest).take ahead ++
          List.replicate (Packet.maxPayloadSize - share.items.length) 0xff := by
      rw [takes.map_fst_items, ← List.append_assoc,
        take_append_drop_joined (Nat.le_of_lt takes.sent_lt)]
    rw [absorbed_packet_of_none z _ hptr hl, continued_of_accumulating hacc hb, hpieces, hpending]
    rfl

theorem absorbed_broken (h₀ : 0 < sent) :
    (r.keep []).absorbed (z.packet share) =
      (r.keep (if ended = [] then [] else (joined rest).take ahead),
        { pieces := ended.tail.map (·.bytes) }) := by
  have hl := takes.length_le
  cases hptr : share.pointer with
  | some distance =>
    obtain ⟨-, ⟨h, -⟩ | ⟨-, s, tail, hs, -⟩⟩ := takes.pointed distance hptr
    · omega
    · rw [absorbed_pointed z _ takes after sections h₀ hptr hs, hs]
      rfl
  | none =>
    rw [SectionPacker.Share.room, hptr] at hl
    rw [absorbed_packet_of_none z _ hptr hl]
    obtain ⟨-, rfl | ⟨s, rfl, rfl⟩⟩ := takes.unpointed hptr
    · rfl
    · rfl

omit r in
theorem absorbed_share (pid : Pid) (last : Option ContinuityCounter) {whole : Bool}
    (before : Within sent (ended ++ rest)) (h₀ : whole = false → 0 < sent) :
    (holding pid last (if whole then (joined (ended ++ rest)).take sent else [])).absorbed
        (z.packet share) =
      (holding pid last (if whole || !ended.isEmpty then (joined rest).take ahead else []),
        { pieces := (if whole then ended else ended.tail).map (·.bytes) }) := by
  unfold holding
  cases whole with
  | true => exact absorbed_whole z _ takes after sections before
  | false =>
    simp only [Bool.false_eq_true, if_false, Bool.false_or]
    rw [absorbed_broken z _ takes after sections (h₀ rfl)]
    cases ended <;> rfl

end Reassembly

end TransportStream
