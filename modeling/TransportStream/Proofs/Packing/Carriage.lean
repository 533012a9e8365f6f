import TransportStream.Proofs.Packing.Progress

namespace TransportStream.SectionPacker

def Share.room {α : Type} (share : Share α) : Nat :=
  if share.pointer.isSome then pointedSize else Packet.maxPayloadSize

/-- A share takes sections forward: `sent` bytes of the first one are behind it, the sections
`ended` end in it, and `ahead` bytes of the one after them are in it. -/
structure Share.Takes (share : Share (UInt8 × Nat)) (n : Nat) (ended rest : List Section)
    (sent ahead : Nat) : Prop where
  items_eq : share.items =
    (tagged n ended ++ (tagged (n + ended.length) rest).take ahead).drop sent
  sent_lt : sent < (joined ended).length + ahead
  pointed : ∀ distance, share.pointer = some distance → distance < pointedSize ∧
    (sent = 0 ∧ distance = 0 ∨
      0 < sent ∧ ∃ s tail, ended = s :: tail ∧ sent + distance = s.size)
  unpointed : share.pointer = none → 0 < sent ∧ (ended = [] ∨ ∃ s, ended = [s] ∧ ahead = 0)
  length_le : share.items.length ≤ share.room
  ahead_eq_zero : share.items.length < share.room → ahead = 0

/-- The shares carry what is left of the sections, counted from `n`, after `sent` bytes. -/
inductive Carries : Nat → List Section → Nat → List (Share (UInt8 × Nat)) → Prop
  | nil (n : Nat) : Carries n [] 0 []
  | cons {n sent ahead : Nat} {sections ended rest : List Section}
      {share : Share (UInt8 × Nat)} {shares : List (Share (UInt8 × Nat))}
      (split : sections = ended ++ rest) (before : Within sent sections)
      (after : Within ahead rest) (takes : share.Takes n ended rest sent ahead)
      (more : Carries (n + ended.length) rest ahead shares) :
      Carries n sections sent (share :: shares)

variable {n sent ahead : Nat} {ended rest : List Section}

theorem ahead_eq_zero_of_all (ended : List Section) (hw : Within ahead rest)
    (h : (joined (ended ++ rest)).length ≤ (joined ended).length + ahead) : ahead = 0 := by
  rw [joined_append, List.length_append] at h
  cases rest with
  | nil => exact hw
  | cons s tail =>
    have hs : ahead < s.bytes.length := hw
    rw [joined_cons, List.length_append] at h
    omega

theorem takes_of (hw : Within ahead rest) {pointer : Option Nat} {size : Nat} (room : Nat)
    (hroom : (if pointer.isSome then pointedSize else Packet.maxPayloadSize) = room)
    (hk : sent + size = (joined ended).length + ahead) (hp : 0 < size)
    (pointed : ∀ distance, pointer = some distance → distance < pointedSize ∧
      (sent = 0 ∧ distance = 0 ∨
        0 < sent ∧ ∃ s tail, ended = s :: tail ∧ sent + distance = s.size))
    (unpointed : pointer = none → 0 < sent ∧ (ended = [] ∨ ∃ s, ended = [s] ∧ ahead = 0))
    (hle : size ≤ room) (hlt : size < room → ahead = 0) :
    Share.Takes ⟨pointer, ((tagged n (ended ++ rest)).drop sent).take size⟩ n ended rest sent
      ahead := by
  have hl : ((tagged n (ended ++ rest)).drop sent).length =
      (joined ended).length + (joined rest).length - sent := by
    rw [List.length_drop, length_tagged, joined_append, List.length_append]
  have hr := hw.le_length
  have hs : (((tagged n (ended ++ rest)).drop sent).take size).length = size := by
    rw [List.length_take, hl]
    omega
  refine ⟨?_, by omega, pointed, unpointed, ?_, ?_⟩
  · rw [List.take_drop, hk, tagged_append, ← length_tagged n ended, List.take_length_add_append]
  · rw [hs, Share.room, hroom]
    exact hle
  · rw [hs, Share.room, hroom]
    exact hlt

theorem ended_eq_cons {s : Section} {tail : List Section} {m : Nat} (hw : Within ahead rest)
    (hS : ended ++ rest = s :: tail) (hm : s.size ≤ m) (hk : m = (joined ended).length + ahead) :
    ∃ more, ended = s :: more := by
  rcases List.append_eq_cons_iff.1 hS with ⟨rfl, rfl⟩ | ⟨more, he, -⟩
  · have ha : ahead < s.size := hw
    rw [joined_nil, List.length_nil] at hk
    omega
  · exact ⟨more, he⟩

theorem ended_eq_nil_or {s : Section} {tail : List Section} {m : Nat}
    (he : ∀ s ∈ ended, s.bytes ≠ []) (hS : ended ++ rest = s :: tail) (hm : m ≤ s.size)
    (hk : m = (joined ended).length + ahead) : ended = [] ∨ ∃ s, ended = [s] ∧ ahead = 0 := by
  rcases List.append_eq_cons_iff.1 hS with ⟨rfl, -⟩ | ⟨more, rfl, -⟩
  · exact .inl rfl
  · have hs : s.size = s.bytes.length := rfl
    cases more with
    | nil =>
      rw [joined_cons, joined_nil, List.append_nil] at hk
      exact .inr ⟨s, rfl, by omega⟩
    | cons t more =>
      have ht : 0 < t.bytes.length := List.length_pos_iff.2 (he t (by simp))
      rw [joined_cons, joined_cons, List.length_append, List.length_append] at hk
      omega

theorem takes_portion {next : Portion} (hpos : ∀ s ∈ ended ++ rest, s.bytes ≠ [])
    (hb : Within sent (ended ++ rest)) (ha : Within ahead rest)
    (hlt : sent < (joined (ended ++ rest)).length)
    (hn : next = portion ((joined (ended ++ rest)).length - sent)
      (startsAfter sent (positions 0 (ended ++ rest))).head?)
    (hk : sent + next.size = (joined ended).length + ahead) :
    Share.Takes ⟨next.pointer, ((tagged n (ended ++ rest)).drop sent).take next.size⟩ n ended rest
      sent ahead := by
  have hp : pointedSize = 183 := rfl
  have hm : Packet.maxPayloadSize = 184 := rfl
  have hall := ahead_eq_zero_of_all ended ha
  have he : ∀ s ∈ ended, s.bytes ≠ [] := fun s hs ↦ hpos s (List.mem_append_left _ hs)
  obtain ⟨pointer, size⟩ := next
  simp only at hk ⊢
  obtain ⟨s, tail, hS⟩ : ∃ s tail, ended ++ rest = s :: tail := by
    cases h : ended ++ rest with
    | nil => simp [h] at hlt
    | cons s tail => exact ⟨s, tail, rfl⟩
  have hs : sent < s.size := by
    rw [hS] at hb
    exact hb
  have hj : (joined (ended ++ rest)).length = s.size + (joined tail).length := by
    rw [hS, joined_cons, List.length_append]
    rfl
  rcases Nat.eq_zero_or_pos sent with h₀ | h₀
  · -- A section starts with the packet.
    rw [h₀, startsAfter_zero, hS] at hn
    obtain ⟨rfl, hsz⟩ := Portion.mk.inj hn
    rw [← hS] at hsz
    refine takes_of ha 183 rfl hk (by omega) ?_ (fun h ↦ by cases h) (by omega)
      fun _ ↦ hall (by omega)
    rintro _ ⟨⟩
    exact ⟨by omega, .inl ⟨h₀, rfl⟩⟩
  · cases tail with
    | nil =>
      -- The section under way is the last one.
      rw [hS, positions, startsAfter_of_lt h₀] at hn
      obtain ⟨rfl, hsz⟩ := Portion.mk.inj hn
      rw [joined_nil, List.length_nil] at hj
      rw [← hS] at hsz
      refine takes_of ha 184 rfl hk (by omega) (fun _ h ↦ by cases h) ?_ (by omega)
        fun _ ↦ hall (by omega)
      exact fun _ ↦ ⟨h₀, ended_eq_nil_or he hS (by omega) hk⟩
    | cons t tail =>
      have ht : 0 < t.bytes.length := List.length_pos_iff.2 (hpos t (by rw [hS]; simp))
      rw [joined_cons, List.length_append] at hj
      rw [hS, head?_startsAfter_of_pos h₀ (Nat.le_of_lt hs), ← hS, portion] at hn
      split at hn
      · -- The next start is within reach.
        next hd =>
        obtain ⟨rfl, hsz⟩ := Portion.mk.inj hn
        refine takes_of ha 183 rfl hk (by omega) ?_ (fun h ↦ by cases h) (by omega)
          fun _ ↦ hall (by omega)
        rintro _ ⟨⟩
        obtain ⟨more, hmore⟩ := ended_eq_cons ha hS (by omega) hk
        exact ⟨hd, .inr ⟨h₀, s, more, hmore, by omega⟩⟩
      · -- The packet ends before the next start.
        next hd =>
        obtain ⟨rfl, hsz⟩ := Portion.mk.inj hn
        have hnil := ended_eq_nil_or he hS (by omega) hk
        refine takes_of ha 184 rfl hk (by omega) (fun _ h ↦ by cases h) (fun _ ↦ ⟨h₀, hnil⟩)
          (by omega) fun _ ↦ ?_
        obtain ⟨more, rfl⟩ := ended_eq_cons ha hS (by omega) hk
        rcases hnil with hnil | ⟨_, _, h⟩
        · cases hnil
        · exact h

theorem size_portion_le {remaining : Nat} {start : Option Nat}
    (h : ∀ distance, start = some distance → distance ≤ remaining) :
    (portion remaining start).size ≤ remaining := by
  rcases start with _ | distance
  · exact Nat.min_le_right _ _
  · have hd := h distance rfl
    rw [portion]
    split
    · exact Nat.min_le_right _ _
    · exact Nat.le_trans (Nat.min_le_right _ _) hd

theorem head?_startsAfter_le {sections : List Section} (hw : Within sent sections) :
    ∀ distance, (startsAfter sent (positions 0 sections)).head? = some distance →
      distance ≤ (joined sections).length - sent := by
  intro distance h
  rcases Nat.eq_zero_or_pos sent with rfl | h₀
  · rw [startsAfter_zero] at h
    cases sections with
    | nil => cases h
    | cons s rest =>
      obtain rfl : 0 = distance := Option.some.inj h
      exact Nat.zero_le _
  · match sections with
    | [] => cases h
    | [s] =>
      rw [positions, startsAfter_of_lt h₀] at h
      cases h
    | s :: t :: rest =>
      rw [head?_startsAfter_of_pos h₀ (Nat.le_of_lt hw)] at h
      have hs : s.size = s.bytes.length := rfl
      have hd : s.size - sent = distance := Option.some.inj h
      rw [joined_cons, List.length_append]
      omega

theorem carries_cut {sections : List Section} (hpos : ∀ s ∈ sections, s.bytes ≠ [])
    (hw : Within sent sections) :
    Carries n sections sent
      (cut ((tagged n sections).drop sent) (startsAfter sent (positions 0 sections))) := by
  generalize hd : (tagged n sections).drop sent = data
  generalize hst : startsAfter sent (positions 0 sections) = starts
  -- By the recursion of `cut`, for any progress: a portion leads from one `Within` to the next.
  fun_induction cut data starts generalizing n sections sent with
  | case1 =>
    have hl : (joined sections).length ≤ sent := by
      rw [← length_tagged n]
      exact List.drop_eq_nil_iff.1 hd
    cases sections with
    | nil =>
      obtain rfl : sent = 0 := hw
      exact .nil n
    | cons s rest =>
      have hs : sent < s.bytes.length := hw
      rw [joined_cons, List.length_append] at hl
      omega
  | case2 data starts hne next =>
    rename_i ih
    subst hd hst
    have hlt : sent < (joined sections).length := by
      rw [← length_tagged n]
      exact Nat.not_le.1 fun h ↦ hne (List.drop_eq_nil_iff.2 h)
    have hl : ((tagged n sections).drop sent).length = (joined sections).length - sent := by
      rw [List.length_drop, length_tagged]
    have hpz : 0 < next.size := portion_size_pos (by omega) _
    have hsz : next.size ≤ (joined sections).length - sent := by
      rw [← hl]
      refine size_portion_le ?_
      rw [hl]
      exact head?_startsAfter_le hw
    obtain ⟨ended, rest, ahead, rfl, hk, ha⟩ :=
      exists_progress sections (n := sent + next.size) (by omega)
    refine .cons rfl hw ha (takes_portion hpos hw ha hlt (by rw [← hl]) hk) ?_
    refine ih (fun s hs ↦ hpos s (List.mem_append_right _ hs)) ha ?_ ?_
    · rw [List.drop_drop, hk, tagged_append, ← length_tagged n ended, List.drop_append,
        List.drop_of_length_le (Nat.le_add_right _ _), Nat.add_sub_cancel_left, List.nil_append]
    · rw [startsAfter_startsAfter _ hpz, hk,
        startsAfter_positions fun s hs ↦ hpos s (List.mem_append_left _ hs)]

theorem Share.Takes.append {share : Share (UInt8 × Nat)}
    (h : share.Takes n ended rest sent ahead) (hw : Within ahead rest) (more : List Section) :
    share.Takes n ended (rest ++ more) sent ahead := by
  refine { h with items_eq := ?_ }
  have hl : ahead ≤ (tagged (n + ended.length) rest).length := by
    rw [length_tagged]
    exact hw.le_length
  rw [tagged_append, List.take_append_of_le_length hl]
  exact h.items_eq

theorem Carries.append {sections more : List Section} {shares others : List (Share (UInt8 × Nat))}
    (h : Carries n sections sent shares) (hm : Carries (n + sections.length) more 0 others)
    (hpos : ∀ s ∈ more, s.bytes ≠ []) : Carries n (sections ++ more) sent (shares ++ others) := by
  induction h with
  | nil n => exact hm
  | cons split before after takes _ ih =>
    subst split
    rw [List.length_append, ← Nat.add_assoc] at hm
    exact .cons (List.append_assoc ..) (before.append hpos) (after.append hpos)
      (takes.append after _) (ih hm)

theorem carries_shares (batches : List (List Section))
    (hpos : ∀ s ∈ batches.flatten, s.bytes ≠ []) :
    Carries n batches.flatten 0 (shares n batches) := by
  induction batches generalizing n with
  | nil => exact .nil n
  | cons batch rest ih =>
    rw [List.flatten_cons] at hpos
    have hb : ∀ s ∈ batch, s.bytes ≠ [] := fun s hs ↦ hpos s (List.mem_append_left _ hs)
    have hr : ∀ s ∈ rest.flatten, s.bytes ≠ [] := fun s hs ↦ hpos s (List.mem_append_right _ hs)
    have hc := carries_cut (n := n) hb (within_zero hb)
    rw [List.drop_zero, startsAfter_zero] at hc
    exact hc.append (ih hr) hr

theorem Share.Takes.map_fst_items {share : Share (UInt8 × Nat)}
    (h : share.Takes n ended rest sent ahead) :
    share.items.map Prod.fst = (joined ended ++ (joined rest).take ahead).drop sent := by
  rw [h.items_eq, List.map_drop, List.map_append, List.map_take, map_fst_tagged, map_fst_tagged]
  rfl

theorem Share.Takes.mem_numbers_iff {share : Share (UInt8 × Nat)}
    (h : share.Takes n ended rest sent ahead) (hpos : ∀ s ∈ ended ++ rest, s.bytes ≠ [])
    (hb : Within sent (ended ++ rest)) (ha : Within ahead rest) {m : Nat} :
    m ∈ share.items.map Prod.snd ↔
      n ≤ m ∧ m < n + ended.length ∨ m = n + ended.length ∧ 0 < ahead := by
  have hnext : ∀ k, m ∈ (((joined rest).take ahead).drop k |>.map (·, n + ended.length)).map
      Prod.snd ↔ m = n + ended.length ∧ k < ahead := by
    intro k
    have hle := ha.le_length
    simp only [List.map_map, Function.comp_def, List.map_const', List.mem_replicate,
      List.length_drop, List.length_take, ne_eq]
    omega
  have hlt := h.sent_lt
  rw [h.items_eq, take_tagged ha]
  cases ended with
  | nil =>
    rw [joined_nil, List.length_nil] at hlt
    rw [tagged, List.nil_append, ← List.map_drop, hnext, List.length_nil]
    omega
  | cons s more =>
    have hs : sent < s.bytes.length := hb
    have hn := hnext 0
    have hm : m ∈ (tagged (n + 1) more).map Prod.snd ↔ n + 1 ≤ m ∧ m < n + 1 + more.length :=
      mem_numbers_tagged fun t ht ↦ hpos t (by simp [ht])
    have hf : m ∈ ((s.bytes.drop sent).map (·, n)).map Prod.snd ↔ m = n := by
      simp only [List.map_map, Function.comp_def, List.map_const', List.mem_replicate,
        List.length_drop, ne_eq]
      omega
    rw [List.drop_zero] at hn
    rw [tagged, List.append_assoc, List.drop_append_of_le_length (by simpa using Nat.le_of_lt hs),
      List.map_append, List.mem_append, ← List.map_drop, hf, List.map_append, List.mem_append, hm,
      hn, List.length_cons]
    omega

end TransportStream.SectionPacker
