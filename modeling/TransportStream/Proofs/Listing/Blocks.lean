import TransportStream.TableListing

namespace TransportStream.TableListing

def blockAt (file : Bytes) (i : Nat) : Bytes :=
  (file.drop (i * Packet.size)).take Packet.size

def packet? (block : Bytes) : Option Packet :=
  if h : block.length = Packet.size ∧ block.head? = some Packet.syncByte then some ⟨block, h.1⟩
  else none

/-- The packets of a file, in the order of their blocks. -/
def packetsOf (file : Bytes) : List Packet :=
  (List.range (file.length / Packet.size)).filterMap fun i ↦ packet? (blockAt file i)

theorem packetsOf_of_lt {file : Bytes} (h : file.length < Packet.size) : packetsOf file = [] := by
  rw [packetsOf, Nat.div_eq_of_lt h]
  rfl

@[simp] theorem packetsOf_nil : packetsOf [] = [] := rfl

theorem blockAt_append_succ {block : Bytes} (h : block.length = Packet.size) (rest : Bytes)
    (i : Nat) : blockAt (block ++ rest) (i + 1) = blockAt rest i := by
  rw [blockAt, Nat.succ_mul, Nat.add_comm, ← List.drop_drop, List.drop_left' h, blockAt]

theorem packetsOf_append {block : Bytes} (h : block.length = Packet.size) (rest : Bytes) :
    packetsOf (block ++ rest) = (packet? block).toList ++ packetsOf rest := by
  have hcount : (block ++ rest).length / Packet.size = rest.length / Packet.size + 1 := by
    rw [List.length_append, h, Nat.add_comm, Nat.add_div_right _ (by decide)]
  have hfirst : blockAt (block ++ rest) 0 = block := by
    rw [blockAt, Nat.zero_mul, List.drop_zero, List.take_left' h]
  have hrest : (fun i ↦ packet? (blockAt (block ++ rest) i)) ∘ Nat.succ =
      fun i ↦ packet? (blockAt rest i) :=
    funext fun i ↦ congrArg packet? (blockAt_append_succ h rest i)
  unfold packetsOf
  rw [hcount, List.range_succ_eq_map, List.filterMap_cons, hfirst, List.filterMap_map, hrest]
  cases packet? block <;> rfl

theorem ofBytes?_eq {block : Bytes} (h : block.length = Packet.size) :
    Packet.ofBytes? block = .ok (packet? block) := by
  unfold packet? Packet.ofBytes?
  by_cases hs : block.head? = some Packet.syncByte
  · rw [dif_pos h, if_pos hs, dif_pos ⟨h, hs⟩]
  · rw [dif_pos h, if_neg hs, dif_neg fun hb ↦ hs hb.2]

structure Takes (room : Nat) (data : Bytes) (packets : List Packet) (rest : Bytes) : Prop where
  length_le : packets.length ≤ room
  packetsOf_eq : ∀ more, packetsOf (data ++ more) = packets ++ packetsOf (rest ++ more)
  shorter : rest.length + packets.length * Packet.size ≤ data.length
  progress : 0 < room → Packet.size ≤ data.length → rest.length + Packet.size ≤ data.length

theorem takes_nil (room : Nat) {data : Bytes} (h : ¬ (0 < room ∧ Packet.size ≤ data.length)) :
    Takes room data [] data where
  length_le := Nat.zero_le _
  packetsOf_eq _ := rfl
  shorter := Nat.le_of_eq (by rw [List.length_nil, Nat.zero_mul, Nat.add_zero])
  progress hroom hlength := absurd ⟨hroom, hlength⟩ h

theorem Takes.block {room room' : Nat} {data : Bytes} {packets : List Packet} {rest : Bytes}
    (h : Takes room' (data.drop Packet.size) packets rest) (hlength : Packet.size ≤ data.length)
    (hroom : (packet? (data.take Packet.size)).toList.length + room' ≤ room) :
    Takes room data ((packet? (data.take Packet.size)).toList ++ packets) rest where
  length_le := by
    have hle := h.length_le
    rw [List.length_append]
    omega
  packetsOf_eq more := by
    have hblock : (data.take Packet.size).length = Packet.size := List.length_take_of_le hlength
    rw [List.append_assoc, ← h.packetsOf_eq more, ← packetsOf_append hblock, ← List.append_assoc,
      List.take_append_drop]
  shorter := by
    have hle := h.shorter
    have hone : (packet? (data.take Packet.size)).toList.length ≤ 1 :=
      Option.length_toList_le
    have hmul := Nat.mul_le_mul_right Packet.size hone
    rw [List.length_drop] at hle
    rw [List.length_append, Nat.add_mul]
    omega
  progress _ _ := by
    have hle := h.shorter
    rw [List.length_drop] at hle
    omega

theorem value_takeBlocks (room position : Nat) (data : Bytes) : ∃ packets stop rest,
    (takeBlocks room position data).value = .ok (packets, stop, rest) ∧
      Takes room data packets rest := by
  induction hn : data.length using Nat.strongRecOn generalizing room position data with
  | ind n ih =>
    by_cases h : 0 < room ∧ Packet.size ≤ data.length
    · have hblock : (data.take Packet.size).length = Packet.size := List.length_take_of_le h.2
      have hslice : slice data 0 Packet.size = .ok (data.take Packet.size) :=
        slice_eq_ok_iff.2 ⟨⟨Nat.zero_le _, h.2⟩, rfl⟩
      have hlt : (data.drop Packet.size).length < n := by
        have hpos : 0 < Packet.size := by decide
        rw [List.length_drop]
        omega
      rw [takeBlocks, dif_pos h, Traced.value_liftM_bind_of_ok hslice,
        Traced.value_liftM_bind_of_ok (ofBytes?_eq hblock)]
      cases hp : packet? (data.take Packet.size) with
      | some p =>
        obtain ⟨packets, stop, rest, hvalue, htake⟩ := ih _ hlt (room - 1)
          (position + Packet.size) (data.drop Packet.size) rfl
        have htakes : Takes room data _ rest := htake.block h.2 (by
          rw [hp]
          show 1 + (room - 1) ≤ room
          omega)
        rw [hp] at htakes
        dsimp only
        rw [Traced.value_bind_of_ok hvalue]
        exact ⟨p :: packets, stop, rest, rfl, htakes⟩
      | none =>
        obtain ⟨packets, stop, rest, hvalue, htake⟩ := ih _ hlt room
          (position + Packet.size) (data.drop Packet.size) rfl
        have htakes : Takes room data _ rest := htake.block h.2 (by
          rw [hp]
          show 0 + room ≤ room
          omega)
        rw [hp] at htakes
        dsimp only
        rw [Traced.value_bind_of_ok (Traced.value_note _)]
        exact ⟨packets, stop, rest, hvalue, htakes⟩
    · rw [takeBlocks, dif_neg h]
      exact ⟨[], position, data, rfl, takes_nil room h⟩

end TransportStream.TableListing
