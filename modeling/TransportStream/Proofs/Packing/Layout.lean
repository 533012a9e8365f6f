import TransportStream.Proofs.Packing.Carriage
import TransportStream.Proofs.Packing.Filling

namespace TransportStream.SectionPacker

theorem pairwise_positions (base : Nat) (sections : List Section) :
    (positions base sections).Pairwise (· ≤ ·) := by
  induction sections generalizing base with
  | nil => exact .nil
  | cons s rest ih =>
    exact .cons (fun m hm ↦ Nat.le_trans (Nat.le_add_right _ _) (le_of_mem_positions hm)) (ih _)

theorem lt_of_mem_positions {base m : Nat} {sections : List Section}
    (nonempty : ∀ s ∈ sections, s.bytes ≠ []) (h : m ∈ positions base sections) :
    m < base + (joined sections).length := by
  induction sections generalizing base with
  | nil => cases h
  | cons s rest ih =>
    have hs : 0 < s.bytes.length := List.length_pos_iff.2 (nonempty s (List.mem_cons_self ..))
    rw [joined_cons, List.length_append]
    rcases List.mem_cons.1 h with rfl | h
    · omega
    · have hlt := ih (fun t ht ↦ nonempty t (List.mem_cons_of_mem _ ht)) h
      have hsize : s.size = s.bytes.length := rfl
      omega

variable {starts : List Nat} {n : Nat}

theorem le_of_head?_startsAfter {distance : Nat} (sorted : starts.Pairwise (· ≤ ·))
    (h : (startsAfter n starts).head? = some distance) {m : Nat} (hm : m ∈ starts) (hn : n ≤ m) :
    n + distance ≤ m := by
  induction starts with
  | nil => cases h
  | cons k rest ih =>
    obtain ⟨hk, hrest⟩ := List.pairwise_cons.1 sorted
    by_cases hlt : k < n
    · rw [startsAfter_of_lt hlt] at h
      rcases List.mem_cons.1 hm with rfl | hm
      · omega
      · exact ih hrest h hm
    · rw [startsAfter, List.dropWhile_cons_of_neg (by simpa using hlt)] at h
      obtain rfl : k - n = distance := Option.some.inj h
      rcases List.mem_cons.1 hm with rfl | hm
      · omega
      · have hle := hk m hm
        omega

theorem lt_of_head?_startsAfter (h : (startsAfter n starts).head? = none) {m : Nat}
    (hm : m ∈ starts) : m < n := by
  induction starts with
  | nil => cases hm
  | cons k rest ih =>
    by_cases hlt : k < n
    · rw [startsAfter_of_lt hlt] at h
      rcases List.mem_cons.1 hm with rfl | hm
      · exact hlt
      · exact ih h hm
    · rw [startsAfter, List.dropWhile_cons_of_neg (by simpa using hlt)] at h
      cases h

def Everywhere (P : Nat → Share UInt8 → Prop) : Nat → List (Share UInt8) → Prop
  | _, [] => True
  | n, share :: rest => P n share ∧ Everywhere P (n + share.items.length) rest

section Everywhere

variable {P Q : Nat → Share UInt8 → Prop} {shares more : List (Share UInt8)}

theorem Everywhere.append (h : Everywhere P n shares)
    (h' : Everywhere P (n + (shares.flatMap (·.items)).length) more) :
    Everywhere P n (shares ++ more) := by
  induction shares generalizing n with
  | nil => exact h'
  | cons share rest ih =>
    rw [List.flatMap_cons, List.length_append, ← Nat.add_assoc] at h'
    exact ⟨h.1, ih h.2 h'⟩

theorem Everywhere.shift (base : Nat) (h : Everywhere P n shares)
    (hQ : ∀ n share, P n share → Q (base + n) share) : Everywhere Q (base + n) shares := by
  induction shares generalizing n with
  | nil => trivial
  | cons share rest ih => exact ⟨hQ _ _ h.1, Nat.add_assoc base n _ ▸ ih h.2⟩

theorem Everywhere.getElem? (h : Everywhere P n shares) {i : Nat} {share : Share UInt8}
    (hi : shares[i]? = some share) :
    P (n + ((shares.take i).flatMap (·.items)).length) share := by
  induction shares generalizing n i with
  | nil => cases hi
  | cons first rest ih =>
    cases i with
    | zero =>
      obtain rfl := Option.some.inj hi
      exact h.1
    | succ i =>
      rw [List.take_succ_cons, List.flatMap_cons, List.length_append, ← Nat.add_assoc]
      exact ih h.2 hi

end Everywhere

/-- How a share stands at the position of its first byte, where sections start at `starts` and the
room that is left after `stops` may stay unused. -/
structure Share.Stands (starts : List Nat) (stops : Nat → Prop) (first : Nat)
    (share : Share UInt8) : Prop where
  nonempty : share.items ≠ []
  fits : share.items.length ≤ share.room
  pointed : ∀ distance, share.pointer = some distance →
    distance < share.items.length ∧ first + distance ∈ starts ∧
      ∀ m ∈ starts, first ≤ m → first + distance ≤ m
  unpointed : share.pointer = none → ∀ m ∈ starts, first ≤ m → first + share.items.length ≤ m
  spare : share.items.length < share.room → stops (first + share.items.length) ∨
    share.pointer = none ∧ share.items.length + 1 = share.room ∧
      first + share.items.length ∈ starts

theorem stands_unpointed {stops : Nat → Prop} {items : Bytes} {limit : Nat} (nonempty : items ≠ [])
    (hlength : items.length = min Packet.maxPayloadSize limit)
    (before : ∀ m ∈ starts, n ≤ m → n + limit ≤ m)
    (limited : stops (n + limit) ∨ pointedSize ≤ limit ∧ n + limit ∈ starts) :
    Share.Stands starts stops n ⟨none, items⟩ := by
  have hp : pointedSize = 183 := rfl
  have hm : Packet.maxPayloadSize = 184 := rfl
  refine ⟨nonempty, ?_, fun _ hd ↦ (by cases hd), fun _ m hmem hn ↦ ?_, fun hlt ↦ ?_⟩
  · show items.length ≤ 184
    omega
  · have hle := before m hmem hn
    show n + items.length ≤ m
    omega
  · have hlt : items.length < 184 := hlt
    obtain rfl : limit = items.length := by omega
    refine limited.imp_right fun ⟨hfar, hmem⟩ ↦ ⟨rfl, ?_, hmem⟩
    show items.length + 1 = 184
    omega

theorem stands_portion {data : Bytes} (sorted : starts.Pairwise (· ≤ ·))
    (inside : ∀ m ∈ starts, m < data.length) (h : n < data.length) {next : Portion}
    (hnext : next = portion (data.length - n) (startsAfter n starts).head?) :
    next.size ≤ data.length - n ∧
      Share.Stands starts (· = data.length) n ⟨next.pointer, (data.drop n).take next.size⟩ := by
  have hp : pointedSize = 183 := rfl
  have hpos : 0 < next.size := hnext ▸ portion_size_pos (Nat.sub_pos_of_lt h) _
  have hle : next.size ≤ data.length - n := by
    rw [hnext]
    refine size_portion_le fun distance hd ↦ ?_
    have hlt := inside _ (add_mem_of_head?_startsAfter hd)
    omega
  have hlength : ((data.drop n).take next.size).length = next.size := by
    rw [List.length_take, List.length_drop, Nat.min_eq_left hle]
  refine ⟨hle, ?_⟩
  obtain ⟨pointer, size⟩ := next
  generalize (data.drop n).take size = items at hlength
  simp only at hpos hle hlength
  have hnonempty : items ≠ [] := List.ne_nil_of_length_pos (by omega)
  show Share.Stands starts (· = data.length) n ⟨pointer, items⟩
  cases hhead : (startsAfter n starts).head? with
  | none =>
    -- No section starts any more.
    rw [hhead] at hnext
    obtain ⟨rfl, hsize⟩ := Portion.mk.inj hnext
    refine stands_unpointed hnonempty (hlength.trans hsize) (fun m hmem hn ↦ ?_) (.inl ?_)
    · have hbefore := lt_of_head?_startsAfter hhead hmem
      omega
    · exact Nat.add_sub_cancel' (Nat.le_of_lt h)
  | some distance =>
    have hmem := add_mem_of_head?_startsAfter hhead
    have hfirst : ∀ m ∈ starts, n ≤ m → n + distance ≤ m :=
      fun m ↦ le_of_head?_startsAfter sorted hhead
    have hdistance := inside _ hmem
    rw [hhead, portion] at hnext
    split at hnext
    · -- The next start is within reach.
      obtain ⟨rfl, hsize⟩ := Portion.mk.inj hnext
      refine ⟨hnonempty, ?_, ?_, fun hd ↦ (by cases hd), fun hlt ↦ .inl ?_⟩
      · show items.length ≤ 183
        omega
      · rintro _ ⟨⟩
        have hwithin : distance < items.length := by omega
        exact ⟨hwithin, hmem, hfirst⟩
      · have hlt : items.length < 183 := hlt
        show n + items.length = data.length
        omega
    · -- The next start is out of reach, and the packet ends before it.
      next hfar =>
      obtain ⟨rfl, hsize⟩ := Portion.mk.inj hnext
      exact stands_unpointed hnonempty (hlength.trans hsize) hfirst
        (.inr ⟨Nat.not_lt.1 hfar, hmem⟩)

theorem everywhere_cut {data : Bytes} (sorted : starts.Pairwise (· ≤ ·))
    (inside : ∀ m ∈ starts, m < data.length) (n : Nat) :
    Everywhere
      (fun n share ↦ n + share.items.length ≤ data.length ∧
        share.Stands starts (· = data.length) n)
      n (cut (data.drop n) (startsAfter n starts)) := by
  generalize hrest : data.drop n = rest
  generalize hleft : startsAfter n starts = left
  fun_induction cut rest left generalizing n with
  | case1 left => trivial
  | case2 rest left hne next ih =>
    subst hrest hleft
    have h : n < data.length := Nat.not_le.1 fun h ↦ hne (List.drop_eq_nil_iff.2 h)
    have hpos : 0 < next.size := portion_size_pos (by rw [List.length_drop]; omega) _
    have hnext : next = portion (data.length - n) (startsAfter n starts).head? := by
      rw [← List.length_drop]
    obtain ⟨hle, hstands⟩ := stands_portion sorted inside h hnext
    have hlength : ((data.drop n).take next.size).length = next.size := by
      rw [List.length_take, List.length_drop, Nat.min_eq_left hle]
    refine ⟨⟨?_, hstands⟩, ?_⟩
    · show n + ((data.drop n).take next.size).length ≤ data.length
      omega
    · rw [hlength]
      exact ih _ (by rw [List.drop_drop]) (startsAfter_startsAfter _ hpos _).symm

theorem positions_append (base : Nat) (a b : List Section) :
    positions base (a ++ b) = positions base a ++ positions (base + (joined a).length) b := by
  induction a generalizing base with
  | nil => rfl
  | cons s rest ih =>
    rw [List.cons_append, positions, ih, positions, joined_cons, List.length_append,
      ← Nat.add_assoc]
    rfl

def ends : Nat → List (List Section) → List Nat
  | _, [] => []
  | n, batch :: rest => (n + (joined batch).length) :: ends (n + (joined batch).length) rest

def sharesOf (batches : List (List Section)) : List (Share UInt8) :=
  batches.flatMap fun batch ↦ cut (joined batch) (positions 0 batch)

theorem map_shares (n : Nat) (batches : List (List Section)) :
    (shares n batches).map (Share.map Prod.fst) = sharesOf batches := by
  induction batches generalizing n with
  | nil => rfl
  | cons batch rest ih =>
    rw [shares, List.map_append, ih, ← cut_map, map_fst_tagged]
    rfl

theorem pack_eq_fillAll (z : SectionPacker) (sections : List Section) :
    z.pack sections = z.fillAll (sharesOf (batches z.stuffing sections)) := by
  rw [z.pack_eq 0, fillTagged, map_shares]

theorem flatMap_items_cut (data : Bytes) (starts : List Nat) :
    (cut data starts).flatMap (·.items) = data := by
  fun_induction cut data starts with
  | case1 starts => rfl
  | case2 data starts hne next ih => rw [List.flatMap_cons, ih, List.take_append_drop]

theorem flatMap_items_sharesOf (batches : List (List Section)) :
    (sharesOf batches).flatMap (·.items) = joined batches.flatten := by
  induction batches with
  | nil => rfl
  | cons batch rest ih =>
    rw [List.flatten_cons, joined_append, ← ih, sharesOf, List.flatMap_cons, List.flatMap_append,
      flatMap_items_cut]
    rfl

variable {starts' : List Nat} {stops stops' : Nat → Prop}

theorem Share.Stands.shift {base size first : Nat} {share : Share UInt8}
    (h : share.Stands starts stops first) (within : first + share.items.length ≤ size)
    (started : ∀ m ∈ starts, base + m ∈ starts')
    (starting : ∀ m ∈ starts', base ≤ m → m - base ∈ starts ∨ base + size ≤ m)
    (stopping : ∀ m, stops m → stops' (base + m)) :
    share.Stands starts' stops' (base + first) := by
  refine ⟨h.nonempty, h.fits, fun distance hd ↦ ?_, fun hd m hm hfirst ↦ ?_, fun hlt ↦ ?_⟩
  · obtain ⟨hlt, hmem, hleast⟩ := h.pointed distance hd
    refine ⟨hlt, Nat.add_assoc .. ▸ started _ hmem, fun m hm hfirst ↦ ?_⟩
    rcases starting m hm (by omega) with hm | hm
    · have hle := hleast _ hm (by omega)
      omega
    · omega
  · rcases starting m hm (by omega) with hm | hm
    · have hle := h.unpointed hd _ hm (by omega)
      omega
    · omega
  · rw [Nat.add_assoc]
    exact (h.spare hlt).imp (stopping _) fun ⟨hd, hlast, hm⟩ ↦ ⟨hd, hlast, started _ hm⟩

theorem everywhere_sharesOf {base : Nat} {batches : List (List Section)}
    (nonempty : ∀ s ∈ batches.flatten, s.bytes ≠ [])
    (hstarts : ∀ m, base ≤ m → (m ∈ starts ↔ m ∈ positions base batches.flatten))
    (hstops : ∀ m ∈ ends base batches, stops m) :
    Everywhere (Share.Stands starts stops) base (sharesOf batches) := by
  induction batches generalizing base with
  | nil => trivial
  | cons batch rest ih =>
    have hbatch : ∀ s ∈ batch, s.bytes ≠ [] := fun s hs ↦ nonempty s (List.mem_append_left _ hs)
    have hrest : ∀ s ∈ rest.flatten, s.bytes ≠ [] :=
      fun s hs ↦ nonempty s (List.mem_append_right _ hs)
    have hmem : ∀ m, base ≤ m → (m ∈ starts ↔
        m - base ∈ positions 0 batch ∨
          m ∈ positions (base + (joined batch).length) rest.flatten) := by
      intro m hm
      have hbase : positions base batch = (positions 0 batch).map (base + ·) :=
        positions_add base 0 batch
      rw [hstarts m hm, List.flatten_cons, positions_append, List.mem_append, hbase, List.mem_map]
      refine or_congr_left ⟨?_, fun h ↦ ⟨_, h, Nat.add_sub_cancel' hm⟩⟩
      rintro ⟨k, hk, rfl⟩
      rwa [Nat.add_sub_cancel_left]
    have hcut := everywhere_cut (pairwise_positions 0 batch)
      (fun m hm ↦ Nat.zero_add (joined batch).length ▸ lt_of_mem_positions hbatch hm) 0
    rw [List.drop_zero, startsAfter_zero] at hcut
    refine Everywhere.append (hcut.shift base fun n share h ↦ ?_) ?_
    · refine h.2.shift h.1 (fun m hm ↦ ?_) (fun m hm hb ↦ ?_) fun m hm ↦ ?_
      · exact (hmem _ (Nat.le_add_right _ _)).2 (.inl (by rwa [Nat.add_sub_cancel_left]))
      · exact ((hmem m hb).1 hm).imp_right le_of_mem_positions
      · exact hstops _ (hm ▸ List.mem_cons_self ..)
    · rw [flatMap_items_cut]
      refine ih hrest (fun m hm ↦ ?_) fun m hm ↦ hstops m (List.mem_cons_of_mem _ hm)
      rw [hmem m (by omega)]
      refine or_iff_right fun h ↦ ?_
      have hlt := lt_of_mem_positions hbatch h
      omega

def after (z : SectionPacker) (n : Nat) : SectionPacker :=
  { z with counter := ⟨(z.counter.val + n) % 16, Nat.mod_lt _ (by decide)⟩ }

theorem after_zero (z : SectionPacker) : z.after 0 = z := by
  have hval : (z.counter.val + 0) % 16 = z.counter.val := Nat.mod_eq_of_lt z.counter.val_lt
  simp only [after, hval]

theorem after_following (z : SectionPacker) (n : Nat) : z.following.after n = z.after (n + 1) := by
  have hval : ((z.counter.val + 1) % 16 + n) % 16 = (z.counter.val + (n + 1)) % 16 := by omega
  simp only [after, following, ContinuityCounter.next, hval]

theorem snd_fillAll (z : SectionPacker) (shares : List (Share UInt8)) :
    (z.fillAll shares).2 = z.after shares.length := by
  induction shares generalizing z with
  | nil => exact z.after_zero.symm
  | cons share rest ih => exact (ih z.following).trans (z.after_following _)

theorem getElem?_fillAll (z : SectionPacker) (shares : List (Share UInt8)) (i : Nat) :
    (z.fillAll shares).1[i]? =
      shares[i]?.map fun share ↦ (z.after i).fill share.pointer share.items := by
  induction shares generalizing z i with
  | nil => rfl
  | cons share rest ih =>
    cases i with
    | zero => rw [after_zero]; rfl
    | succ i => rw [← after_following]; exact ih z.following i

/-- A packet of the sections carries `data`, of which the first byte is at position `first`, and
says where sections start in it. -/
structure Places (z : SectionPacker) (sections : List Section) (first : Nat) (p : Packet)
    (data : Bytes) : Prop where
  sync_eq : p.byte 0 = Packet.syncByte
  pid_eq : p.pid = z.pid
  layout_eq : p.layout = .payloadOnly
  clear : p.isScrambled = false
  nonempty : data ≠ []
  unitStart_iff : p.unitStart = true ↔
    ∃ m ∈ positions 0 sections, first ≤ m ∧ m < first + data.length
  /-- The pointer leads to the first start, and unwritten bytes follow only where a batch ends. -/
  pointed : p.unitStart = true → ∃ distance left,
    distance ≤ 182 ∧
    p.payload.value =
      .ok (some (UInt8.ofNat distance :: (data ++ List.replicate left 0xff))) ∧
    first + distance ∈ positions 0 sections ∧
    (∀ m ∈ positions 0 sections, first ≤ m → first + distance ≤ m) ∧
    (0 < left → first + data.length ∈ ends 0 (batches z.stuffing sections))
  /-- Unwritten bytes follow where a batch ends, or a single one before the next start. -/
  unpointed : p.unitStart = false → ∃ left,
    p.payload.value = .ok (some (data ++ List.replicate left 0xff)) ∧
    (0 < left → first + data.length ∈ ends 0 (batches z.stuffing sections) ∨
      left = 1 ∧ first + data.length ∈ positions 0 sections)

theorem Share.Stands.places {z : SectionPacker} {sections : List Section} {first : Nat}
    {share : Share UInt8}
    (h : share.Stands (positions 0 sections) (· ∈ ends 0 (batches z.stuffing sections)) first)
    (i : Nat) :
    Places z sections first ((z.after i).fill share.pointer share.items) share.items := by
  have hp : pointedSize = 183 := rfl
  have hm : Packet.maxPayloadSize = 184 := rfl
  obtain ⟨pointer, items⟩ := share
  have hpointed := h.pointed
  have hunpointed := h.unpointed
  have hspare := h.spare
  have hfits := h.fits
  have hflag := unitStart_fill (z.after i) pointer items
  refine ⟨byte_zero_fill .., pid_fill .., layout_fill .., isScrambled_fill .., h.nonempty,
    ?_, ?_, ?_⟩
  · rw [hflag]
    cases pointer with
    | none =>
      refine ⟨nofun, fun ⟨m, hmem, hfirst, hlt⟩ ↦ ?_⟩
      have hle := hunpointed rfl m hmem hfirst
      omega
    | some distance =>
      obtain ⟨hlt, hmem, -⟩ := hpointed distance rfl
      exact ⟨fun _ ↦ ⟨_, hmem, Nat.le_add_right _ _, Nat.add_lt_add_left hlt _⟩, fun _ ↦ rfl⟩
  · intro hstart
    rw [hflag] at hstart
    obtain ⟨distance, rfl⟩ := Option.isSome_iff_exists.1 hstart
    obtain ⟨hlt, hmem, hleast⟩ := hpointed distance rfl
    have hroom : items.length ≤ pointedSize := hfits
    have hlt : distance < items.length := hlt
    refine ⟨distance, pointedSize - items.length, by omega, ?_, hmem, hleast, fun hleft ↦ ?_⟩
    · rw [Packet.value_payload, content_fill_some _ _ hroom]
    · exact (hspare (Nat.lt_of_sub_pos hleft)).resolve_right (nomatch ·.1)
  · intro hstart
    rw [hflag] at hstart
    obtain rfl := Option.not_isSome_iff_eq_none.1 (Bool.eq_false_iff.1 hstart)
    have hroom : items.length ≤ Packet.maxPayloadSize := hfits
    refine ⟨Packet.maxPayloadSize - items.length, ?_, fun hleft ↦ ?_⟩
    · rw [Packet.value_payload, content_fill_none _ _ hroom]
    · refine (hspare (Nat.lt_of_sub_pos hleft)).imp_right fun ⟨_, hlast, hmem⟩ ↦ ⟨?_, hmem⟩
      have hlast : items.length + 1 = Packet.maxPayloadSize := hlast
      omega

/-- The packets carry the parts of the sections in their order, and the packer goes on with the
counter after theirs. -/
structure Packs (z : SectionPacker) (sections : List Section)
    (result : List Packet × SectionPacker) (parts : List Bytes) : Prop where
  flatten_eq : parts.flatten = sections.flatMap (·.bytes)
  length_eq : result.1.length = parts.length
  counted : ∀ i p, result.1[i]? = some p → p.counter.val = (z.counter.val + i) % 16
  places : ∀ i p data, result.1[i]? = some p → parts[i]? = some data →
    Places z sections (parts.take i).flatten.length p data
  next_eq : result.2 = z.after result.1.length

/-- Sections of any size are cut into the payloads of packets that say where each of them starts,
and lie one after the other without a break but for the ends of batches and the byte that no section
may start in. -/
theorem exists_packs (z : SectionPacker) (sections : List Section)
    (nonempty : ∀ s ∈ sections, s.bytes ≠ []) :
    ∃ parts, Packs z sections (z.pack sections) parts := by
  have hflatten := flatten_batches z.stuffing sections
  have hstands : Everywhere
      (Share.Stands (positions 0 sections) (· ∈ ends 0 (batches z.stuffing sections))) 0
      (sharesOf (batches z.stuffing sections)) :=
    everywhere_sharesOf (by rwa [hflatten]) (fun m _ ↦ by rw [hflatten]) fun _ ↦ id
  refine ⟨(sharesOf (batches z.stuffing sections)).map (·.items), ?_, ?_, ?_, ?_, ?_⟩
  · rw [← List.flatMap_def, flatMap_items_sharesOf, hflatten]
    rfl
  · rw [pack_eq_fillAll, length_fillAll, List.length_map]
  · intro i p hp
    rw [pack_eq_fillAll, getElem?_fillAll, Option.map_eq_some_iff] at hp
    obtain ⟨share, -, rfl⟩ := hp
    exact congrArg ContinuityCounter.val (counter_fill (z.after i) ..)
  · intro i p data hp hdata
    rw [pack_eq_fillAll, getElem?_fillAll, Option.map_eq_some_iff] at hp
    obtain ⟨share, hshare, rfl⟩ := hp
    rw [List.getElem?_map, hshare] at hdata
    obtain rfl := Option.some.inj hdata
    have hfirst := (hstands.getElem? hshare).places i
    rwa [Nat.zero_add, List.flatMap_def, List.map_take] at hfirst
  · rw [pack_eq_fillAll, snd_fillAll, length_fillAll]

theorem exists_packs_unreached : ∃ parts, Packs ⟨.pat, .never, .zero⟩
    [.ofBytes .check (List.replicate 366 7) .pat, .ofBytes .check [1, 2] .pat]
    (pack ⟨.pat, .never, .zero⟩
      [.ofBytes .check (List.replicate 366 7) .pat, .ofBytes .check [1, 2] .pat]) parts :=
  exists_packs _ _ (by decide)

example : (cut (List.replicate 366 7 ++ [1, 2]) [0, 366]).map
    (fun share ↦ (share.pointer, share.items.length)) =
      [(some 0, 183), (none, 183), (some 0, 2)] := by
  decide +kernel

end TransportStream.SectionPacker
