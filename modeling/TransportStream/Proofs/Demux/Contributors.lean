import TransportStream.Proofs.Demux.Splicing

namespace TransportStream

namespace Visit

variable (v : Visit)

def data : Bytes :=
  if v.isReadable = true ∧ v.packet.isScrambled = false then v.packet.sectionData else []

/-- Whether the packet has a counter of its own: it announces a payload and is not passed over. -/
def counts : Bool := v.packet.layout.hasPayload && !v.isIgnored

variable {v}

theorem data_of_unread (h : v.isReadable = false) : v.data = [] :=
  if_neg fun hv ↦ by cases h.symm.trans hv.1

theorem isReadable_of_data_ne_nil (h : v.data ≠ []) : v.isReadable = true := by
  cases hr : v.isReadable with
  | false => exact absurd (data_of_unread hr) h
  | true => rfl

theorem content_of_isReadable (h : v.isReadable = true) : v.packet.content = some v.payload := by
  rw [isReadable, Bool.and_eq_true] at h
  obtain ⟨payload, content⟩ := Option.isSome_iff_exists.1 h.2
  rw [Visit.payload, content]
  rfl

theorem clear_of_isReadable (h : v.isReadable = true) (unbroken : v.Unbroken) :
    v.packet.isScrambled = false := by
  rw [isReadable, Bool.and_eq_true, Bool.not_eq_true'] at h
  refine Bool.eq_false_iff.2 fun hs ↦ ?_
  cases h.1.symm.trans (unbroken.clear hs)

theorem data_of_whole (h : v.isReadable = true) (clear : v.packet.isScrambled = false)
    (whole : v.packet.unitStart = false) : v.data = v.payload := by
  rw [data, if_pos ⟨h, clear⟩, Packet.sectionData, whole]
  rfl

theorem data_of_starts (h : v.isReadable = true) (clear : v.packet.isScrambled = false)
    (starts : v.packet.unitStart = true) : v.data = v.payload.drop 1 := by
  rw [data, if_pos ⟨h, clear⟩, Packet.sectionData, starts]
  rfl

theorem share_prefix_data (h : v.isReadable = true) (clear : v.packet.isScrambled = false) :
    v.share <+: v.data := by
  cases starts : v.packet.unitStart with
  | false =>
    rw [data_of_whole h clear starts, share, starts]
    exact List.prefix_refl _
  | true =>
    rw [data_of_starts h clear starts, share, starts]
    exact List.take_prefix _ _

theorem Opens.tail_suffix_data (h : v.Opens) : v.tail <:+ v.data := by
  rw [data_of_starts h.readable h.clear h.starts]
  exact List.drop_suffix _ _

theorem Unbroken.counter_eq (h : v.Unbroken) {last : ContinuityCounter}
    (hlast : v.state.last = some last) :
    v.packet.counter.val = (last.val + if v.counts then 1 else 0) % 16 := by
  have hsame : (last.val + 0) % 16 = last.val := Nat.mod_eq_of_lt last.val_lt
  have harrival : v.state.arrival v.packet v.packet.breakSignalled =
      if v.packet.layout.hasPayload then
        if v.packet.counter.follows last then .inSequence
        else if v.packet.counter = last ∧ !v.state.duplicateSeen then .duplicate
        else .outOfSequence last
      else if v.packet.counter = last then .inSequence
      else .outOfSequence last := by
    rw [Reassembly.arrival, hlast, h.unsignalled]
    rfl
  have inOrder : v.state.arrival v.packet v.packet.breakSignalled ≠ .outOfSequence last := by
    intro hout
    have hcounted : v.isCounted = true := by
      rw [isCounted, Reassembly.next, hout]
      exact decide_eq_true (List.mem_cons_self ..)
    cases h.uncounted.symm.trans hcounted
  cases hpayload : v.packet.layout.hasPayload with
  | true =>
    rw [hpayload, if_pos rfl] at harrival
    by_cases hfollows : v.packet.counter.follows last = true
    · rw [if_pos hfollows] at harrival
      have hcounts : v.counts = true := by
        rw [counts, isIgnored, harrival, hpayload]
        rfl
      rw [hcounts, ContinuityCounter.follows_iff.1 hfollows]
      rfl
    · rw [if_neg hfollows] at harrival
      by_cases hagain : v.packet.counter = last ∧ (!v.state.duplicateSeen) = true
      · rw [if_pos hagain] at harrival
        have hcounts : v.counts = false := by
          rw [counts, isIgnored, harrival, hpayload]
          rfl
        rw [hcounts, hagain.1]
        exact hsame.symm
      · rw [if_neg hagain] at harrival
        exact absurd harrival inOrder
  | false =>
    rw [hpayload, if_neg Bool.false_ne_true] at harrival
    have hcounts : v.counts = false := by rw [counts, hpayload, Bool.false_and]
    by_cases hagain : v.packet.counter = last
    · rw [hcounts, hagain]
      exact hsame.symm
    · rw [if_neg hagain] at harrival
      exact absurd harrival inOrder

end Visit

def numbered : Nat → List Visit → List (UInt8 × Nat)
  | _, [] => []
  | n, v :: rest => v.data.map (·, n) ++ numbered (n + 1) rest

variable {n : Nat} {log between : List Visit} {v : Visit}

theorem numbered_append (n : Nat) (a b : List Visit) :
    numbered n (a ++ b) = numbered n a ++ numbered (n + a.length) b := by
  induction a generalizing n with
  | nil => rfl
  | cons v rest ih =>
    rw [List.cons_append, numbered, numbered, ih, List.append_assoc, List.length_cons,
      Nat.add_assoc, Nat.add_comm 1]

theorem map_fst_numbered (n : Nat) (log : List Visit) :
    (numbered n log).map Prod.fst = log.flatMap Visit.data := by
  induction log generalizing n with
  | nil => rfl
  | cons v rest ih =>
    rw [numbered, List.map_append, ih, List.flatMap_cons, List.map_map]
    congr 1
    exact List.map_id _

theorem mem_numbers_iff {m : Nat} : m ∈ (numbered n log).map Prod.snd ↔
    ∃ i v, m = n + i ∧ log[i]? = some v ∧ v.data ≠ [] := by
  induction log generalizing n with
  | nil => exact ⟨nofun, fun ⟨_, _, _, h, _⟩ ↦ by cases h⟩
  | cons v rest ih =>
    have hv : m ∈ (v.data.map (·, n)).map Prod.snd ↔ m = n ∧ v.data ≠ [] := by
      simp only [List.map_map, Function.comp_def, List.map_const', List.mem_replicate,
        ne_eq, List.length_eq_zero_iff]
      exact and_comm
    rw [numbered, List.map_append, List.mem_append, hv, ih]
    constructor
    · rintro (⟨rfl, hne⟩ | ⟨i, w, rfl, hw, hne⟩)
      · exact ⟨0, v, rfl, rfl, hne⟩
      · exact ⟨i + 1, w, by omega, hw, hne⟩
    · rintro ⟨_ | i, w, rfl, hw, hne⟩
      · obtain rfl := Option.some.inj hw
        exact .inl ⟨rfl, hne⟩
      · exact .inr ⟨i, w, by omega, hw, hne⟩

theorem pairwise_numbered (n : Nat) (log : List Visit) :
    ((numbered n log).map Prod.snd).Pairwise (· ≤ ·) := by
  induction log generalizing n with
  | nil => exact .nil
  | cons v rest ih =>
    have hv : ∀ i ∈ (v.data.map (·, n)).map Prod.snd, i = n := by
      intro i hi
      simp only [List.map_map, Function.comp_def, List.map_const', List.mem_replicate] at hi
      exact hi.2
    rw [numbered, List.map_append, List.pairwise_append]
    refine ⟨?_, ih _, fun i hi j hj ↦ ?_⟩
    · refine List.pairwise_iff_forall_sublist.2 fun {i j} hij ↦ ?_
      have hi := hv i (hij.subset (by simp))
      have hj := hv j (hij.subset (by simp))
      omega
    · obtain ⟨k, -, rfl, -⟩ := mem_numbers_iff.1 hj
      have hi := hv i hi
      omega

theorem mem_of_between {numbers stretch : List Nat} (sorted : numbers.Pairwise (· ≤ ·))
    (h : stretch <:+: numbers) {i j m : Nat} (hi : i ∈ stretch) (hj : j ∈ stretch) (him : i < m)
    (hmj : m < j) (hm : m ∈ numbers) : m ∈ stretch := by
  obtain ⟨front, back, rfl⟩ := h
  rw [List.pairwise_append, List.pairwise_append] at sorted
  obtain ⟨⟨-, -, hfront⟩, -, hback⟩ := sorted
  rw [List.mem_append, List.mem_append] at hm
  rcases hm with (hm | hm) | hm
  · have hle := hfront m hm i hi
    omega
  · exact hm
  · have hle := hback j (List.mem_append_right _ hj) m hm
    omega

theorem shares_prefix_data (unbroken : ∀ v ∈ between, v.Unbroken)
    (whole : ∀ v ∈ (between.filter Visit.isReadable).dropLast, v.packet.unitStart = false) :
    (between.filter Visit.isReadable).flatMap Visit.share <+: between.flatMap Visit.data := by
  induction between with
  | nil => exact List.prefix_refl _
  | cons v rest ih =>
    have hrest := fun w hw ↦ unbroken w (List.mem_cons_of_mem _ hw)
    cases readable : v.isReadable with
    | false =>
      rw [List.filter_cons_of_neg (by simp [readable])] at whole ⊢
      rw [List.flatMap_cons, Visit.data_of_unread readable, List.nil_append]
      exact ih hrest whole
    | true =>
      have clear := Visit.clear_of_isReadable readable (unbroken v (List.mem_cons_self ..))
      rw [List.filter_cons_of_pos readable] at whole ⊢
      rw [List.flatMap_cons, List.flatMap_cons]
      cases hreadable : rest.filter Visit.isReadable with
      | nil =>
        rw [List.flatMap_nil, List.append_nil]
        exact (Visit.share_prefix_data readable clear).trans (List.prefix_append _ _)
      | cons w others =>
        rw [hreadable] at whole ih
        have starts : v.packet.unitStart = false := whole v (by simp)
        have hshare : v.share = v.data := by
          rw [Visit.data_of_whole readable clear starts, Visit.share, starts]
          rfl
        rw [hshare]
        exact (List.prefix_append_right_inj _).2 (ih hrest fun u hu ↦ whole u (by simp [hu]))

theorem mem_dropLast_readable {a b : Nat} {w : Visit} (hab : a < b) (hv : between[a]? = some v)
    (hw : between[b]? = some w) (readable : v.isReadable = true) (after : w.isReadable = true) :
    v ∈ (between.filter Visit.isReadable).dropLast := by
  have hfront : v ∈ (between.take (a + 1)).filter Visit.isReadable := by
    refine List.mem_filter.2 ⟨List.mem_of_getElem? (i := a) ?_, readable⟩
    rw [List.getElem?_take_of_lt (Nat.lt_succ_self a), hv]
  have hback : w ∈ (between.drop (a + 1)).filter Visit.isReadable := by
    refine List.mem_filter.2 ⟨List.mem_of_getElem? (i := b - (a + 1)) ?_, after⟩
    rw [List.getElem?_drop, Nat.add_sub_cancel' hab, hw]
  rw [← List.take_append_drop (a + 1) between, List.filter_append,
    List.dropLast_append_of_ne_nil (List.ne_nil_of_mem hback)]
  exact List.mem_append_left _ hfront

/-- The counter of a packet is that of an earlier one, and one more for each packet from there on
that counts. -/
theorem counter_eq_add_countP
    (linked : ∀ m v w, log[m]? = some v → log[m + 1]? = some w →
      w.state.last = some v.packet.counter)
    {i : Nat} (hv : log[i]? = some v) (d : Nat)
    (unbroken : ∀ m w, i < m → m ≤ i + d → log[m]? = some w → w.Unbroken) {w : Visit}
    (hw : log[i + d]? = some w) :
    w.packet.counter.val = (v.packet.counter.val +
      ((log.take (i + d + 1)).drop (i + 1)).countP Visit.counts) % 16 := by
  induction d generalizing w with
  | zero =>
    obtain rfl := Option.some.inj (hv.symm.trans hw)
    have hempty : (log.take (i + 0 + 1)).drop (i + 1) = [] :=
      List.drop_eq_nil_of_le (List.length_take_le _ _)
    rw [hempty]
    exact (Nat.mod_eq_of_lt v.packet.counter.val_lt).symm
  | succ d ih =>
    have hlength : i + d + 1 < log.length := (List.getElem?_eq_some_iff.1 hw).1
    obtain ⟨u, hu⟩ : ∃ u, log[i + d]? = some u :=
      ⟨_, List.getElem?_eq_getElem (Nat.lt_of_succ_lt hlength)⟩
    have hbefore := ih (fun m w hi hm ↦ unbroken m w hi (Nat.le_succ_of_le hm)) hu
    have hstep := (unbroken _ w (by omega) (Nat.le_refl _) hw).counter_eq (linked _ u w hu hw)
    have hsplit : (log.take (i + (d + 1) + 1)).drop (i + 1) =
        (log.take (i + d + 1)).drop (i + 1) ++ [w] := by
      rw [List.take_add_one, hw, List.drop_append_of_le_length (by rw [List.length_take]; omega)]
      rfl
    rw [hsplit, List.countP_append, List.countP_singleton]
    omega

/-- How a piece lies in the bytes of packets, each of which has its number. From the first to the
last packet that contributes to it, all that announce a payload contribute, unless they are
excused. -/
structure Contributed (excused : Visit → Prop) (log : List Visit) (piece : Bytes)
    (stretch : List (UInt8 × Nat)) : Prop where
  bytes_eq : stretch.map Prod.fst = piece
  within : stretch <:+: numbered 0 log
  complete : ∀ i ∈ stretch.map Prod.snd, ∀ j ∈ stretch.map Prod.snd, ∀ n v, i ≤ n → n ≤ j →
    log[n]? = some v → v.packet.layout.hasPayload = true →
      n ∈ stretch.map Prod.snd ∨ excused v

/-- Whether the counters of these packets differ by as many packets as count from one to the
other. -/
def CountsUp (log : List Visit) (numbers : List Nat) : Prop :=
  ∀ i ∈ numbers, ∀ j ∈ numbers, i ≤ j → ∀ v w, log[i]? = some v → log[j]? = some w →
    w.packet.counter.val =
      (v.packet.counter.val + ((log.take (j + 1)).drop (i + 1)).countP Visit.counts) % 16

def opened (start : Nat) (first : Visit) (between : List Visit) : List (UInt8 × Nat) :=
  first.tail.map (·, start) ++ numbered (start + 1) between

section Located

variable {before after : List Visit} {first : Visit} {start : Nat}

theorem opened_within (opens : first.Opens) (before between after : List Visit) :
    opened before.length first between <:+:
      numbered 0 (before ++ first :: (between ++ after)) := by
  obtain ⟨front, hfront⟩ := opens.tail_suffix_data
  rw [opened, numbered_append, Nat.zero_add, numbered, ← hfront, numbered_append, List.map_append]
  refine ⟨numbered 0 before ++ front.map (·, before.length),
    numbered (before.length + 1 + between.length) after, ?_⟩
  simp only [List.append_assoc]

theorem of_mem_numbers_opened {i : Nat} (h : i ∈ (opened start first between).map Prod.snd) :
    i = start ∨ ∃ k w, i = start + 1 + k ∧ between[k]? = some w ∧ w.data ≠ [] := by
  rw [opened, List.map_append, List.mem_append, mem_numbers_iff] at h
  refine h.imp_left fun h ↦ ?_
  simp only [List.map_map, Function.comp_def, List.map_const', List.mem_replicate] at h
  exact h.2

theorem bounds_of_mem_numbers_opened {i : Nat}
    (h : i ∈ (opened start first between).map Prod.snd) :
    start ≤ i ∧ i ≤ start + between.length := by
  rcases of_mem_numbers_opened h with rfl | ⟨k, w, rfl, hw, -⟩
  · omega
  · have hk := (List.getElem?_eq_some_iff.1 hw).1
    omega

theorem getElem?_between {n : Nat} (hstart : before.length < n)
    (hend : n ≤ before.length + between.length) :
    (before ++ first :: (between ++ after))[n]? = between[n - before.length - 1]? := by
  rw [List.getElem?_append_right (by omega), List.getElem?_cons, if_neg (by omega),
    List.getElem?_append_left (by omega)]

theorem Splice.infix_opened {data : Bytes} (h : Splice log data first between)
    (unbroken : ∀ v ∈ between, v.Unbroken) (start : Nat) :
    data <:+: (opened start first between).map Prod.fst := by
  have htail : first.tail.map (Prod.fst ∘ (·, start)) = first.tail := List.map_id _
  rw [opened, List.map_append, map_fst_numbered, List.map_map, htail]
  refine h.within.trans (List.IsPrefix.isInfix ?_)
  exact (List.prefix_append_right_inj _).2 (shares_prefix_data unbroken h.whole)

theorem Splice.data_ne_nil {data : Bytes} (h : Splice log data first between)
    (unbroken : ∀ v ∈ between, v.Unbroken) {a b : Nat} {w : Visit} (hab : a < b)
    (hv : between[a]? = some v) (hw : between[b]? = some w) (readable : v.isReadable = true)
    (after : w.data ≠ []) : v.data ≠ [] := by
  have hmem := mem_dropLast_readable hab hv hw readable (Visit.isReadable_of_data_ne_nil after)
  have clear := Visit.clear_of_isReadable readable (unbroken v (List.mem_of_getElem? hv))
  rw [Visit.data_of_whole readable clear (h.whole v hmem)]
  exact v.packet.content_ne_nil (Visit.content_of_isReadable readable)

/-- Before the last contributor, a packet that does not contribute is passed over, or has no payload
that can be read. -/
theorem Splice.contributes_or_unread {data : Bytes} (h : Splice log data first between)
    (unbroken : ∀ v ∈ between, v.Unbroken) {j k : Nat}
    (hj : j ∈ (opened start first between).map Prod.snd) (hk : start + 1 + k < j)
    (hv : between[k]? = some v) : v.data ≠ [] ∨ v.isIgnored = true ∨ v.packet.content = none := by
  obtain ⟨last, w, rfl, hw, hne⟩ := (of_mem_numbers_opened hj).resolve_left (by omega)
  cases readable : v.isReadable with
  | true => exact .inl (h.data_ne_nil unbroken (by omega) hv hw readable hne)
  | false =>
    right
    rw [Visit.isReadable] at readable
    cases ignored : v.isIgnored with
    | true => exact .inl rfl
    | false =>
      rw [ignored] at readable
      exact .inr (Option.isNone_iff_eq_none.1 (by simpa using readable))

end Located

theorem Splice.exists_stretch {data : Bytes} {first : Visit}
    (h : Splice log data first between) (unbroken : ∀ v ∈ between, v.Unbroken) :
    ∃ stretch, Contributed (fun v ↦ v.isIgnored = true ∨ v.packet.content = none) log data
        stretch ∧
      ∃ start, (∀ i ∈ stretch.map Prod.snd, start ≤ i) ∧
        ∀ n v, start < n → (∃ j ∈ stretch.map Prod.snd, n ≤ j) → log[n]? = some v →
          v.Unbroken := by
  obtain ⟨before, after, hlog⟩ := h.located
  obtain ⟨stretch, hstretch, hdata⟩ :=
    List.infix_map_iff.1 (h.infix_opened unbroken before.length)
  have hwithin : stretch <:+: numbered 0 log := by
    rw [hlog]
    exact hstretch.trans (opened_within h.opens before between after)
  have hnumbers : ∀ i ∈ stretch.map Prod.snd,
      i ∈ (opened before.length first between).map Prod.snd :=
    fun i hi ↦ (hstretch.map Prod.snd).subset hi
  have hbetween : ∀ n v j, before.length < n → j ∈ stretch.map Prod.snd → n ≤ j →
      log[n]? = some v → between[n - before.length - 1]? = some v := by
    intro n v j hn hj hnj hv
    have hend := (bounds_of_mem_numbers_opened (hnumbers j hj)).2
    rwa [hlog, getElem?_between hn (by omega)] at hv
  refine ⟨stretch, ⟨hdata.symm, hwithin, fun i hi j hj n v hin hnj hv _ ↦ ?_⟩, before.length,
    fun i hi ↦ (bounds_of_mem_numbers_opened (hnumbers i hi)).1, fun n v hn ⟨j, hj, hnj⟩ hv ↦
      unbroken v (List.mem_of_getElem? (hbetween n v j hn hj hnj hv))⟩
  have hi' := (bounds_of_mem_numbers_opened (hnumbers i hi)).1
  rcases Nat.eq_or_lt_of_le hin with rfl | hlt
  · exact .inl hi
  rcases Nat.eq_or_lt_of_le hnj with rfl | hlt'
  · exact .inl hj
  have hv' := hbetween n v j (by omega) hj hnj hv
  refine (h.contributes_or_unread unbroken (hnumbers j hj) (by omega) hv').imp_left fun hne ↦ ?_
  exact mem_of_between (pairwise_numbered 0 log) (hwithin.map Prod.snd) hi hj hlt hlt'
    (mem_numbers_iff.2 ⟨n, v, (Nat.zero_add n).symm, hv, hne⟩)

theorem Reassembly.last_of_getElem?_visits {r : Reassembly} {packets : List Packet} {m : Nat}
    {w : Visit} (hv : (r.visits packets)[m]? = some v)
    (hw : (r.visits packets)[m + 1]? = some w) : w.state.last = some v.packet.counter := by
  induction packets generalizing r m with
  | nil => cases hv
  | cons p rest ih =>
    cases m with
    | zero =>
      obtain rfl := Option.some.inj hv
      cases rest with
      | nil => cases hw
      | cons q rest =>
        obtain rfl := Option.some.inj hw
        exact last_next p
    | succ m => exact ih hv hw

namespace Demux

variable {σ : Type} {m : Moment σ} {events : List Event} {pid : Pid} {pieces : List Bytes}
  {data : Bytes}

/-- From the first to the last packet that contributes to a piece, every packet that announces a
payload contributes, is passed over as a repetition, or has no payload that can be read. The
counters go up by one with each of them that is not passed over, so that those of the contributors
are consecutive if all of them could be read. -/
theorem Run.exists_contributed {options : DemuxOptions} {state : σ}
    (run : Run ⟨{ options, handlerState := state }, none⟩ events m)
    (due : m.work = some (pid, pieces)) (mem : data ∈ pieces) :
    ∃ stretch, Contributed (fun v ↦ v.isIgnored = true ∨ v.packet.content = none)
        (({ pid } : Reassembly).visits (since pid events)) data stretch ∧
      CountsUp (({ pid } : Reassembly).visits (since pid events)) (stretch.map Prod.snd) := by
  obtain ⟨first, between, hsplice, unbroken⟩ :=
    Reassembly.spliced_of_mem_extracted (run.accounted.1.work pid pieces due data mem)
  obtain ⟨stretch, contributed, start, hstart, hunbroken⟩ := hsplice.exists_stretch unbroken
  refine ⟨stretch, contributed, fun i hi j hj hij v w hv hw ↦ ?_⟩
  obtain ⟨d, rfl⟩ := Nat.exists_eq_add_of_le hij
  have hi' := hstart i hi
  exact counter_eq_add_countP (fun _ _ _ ↦ Reassembly.last_of_getElem?_visits) hv d
    (fun n u hin hnj ↦ hunbroken n u (by omega) ⟨_, hj, hnj⟩) hw

/-- The start of a section, a packet that announces a payload after an adaptation field that leaves
no room for one, and the rest of the section. -/
def gapped : List Packet :=
  [.leading .pat (spread.take 183),
    ((Packet.payloadOnly .pat ContinuityCounter.zero.next).setLayout
      .adaptationAndPayload).withPayload [183],
    (Packet.payloadOnly .pat ContinuityCounter.zero.next.next).withPayload (spread.drop 183)]

theorem Run.exists_contributed_gapped :
    ∃ stretch, Contributed (fun v ↦ v.isIgnored = true ∨ v.packet.content = none)
        (({ pid := .pat } : Reassembly).visits gapped) spread stretch ∧
      CountsUp (({ pid := .pat } : Reassembly).visits gapped) (stretch.map Prod.snd) := by
  obtain ⟨events, m, run, due, hsince⟩ := Run.exists_of_third gapped[0] gapped[1] gapped[2]
    spread (by decide +kernel) (by decide +kernel) (by decide +kernel)
  have h := run.exists_contributed due (List.mem_singleton_self spread)
  rwa [hsince] at h

/-- A section may be put together around a packet that announces a payload, and is neither passed
over nor read. -/
theorem gap_between :
    (tabulator.feedAll gapped).value.toOption.map (·.2) =
      some [.table (.single (.ofBytes .ignore spread .pat))] ∧
    ¬ ∃ stretch, Contributed (fun v ↦ v.isIgnored = true)
      (({ pid := .pat } : Reassembly).visits gapped) spread stretch := by
  refine ⟨by decide +kernel, ?_⟩
  rintro ⟨stretch, bytes_eq, within, complete⟩
  have hlength : stretch.length = 200 := by
    rw [← List.length_map (f := Prod.fst), bytes_eq]
    rfl
  have needed : ∀ i, (numbered 0 (({ pid := .pat } : Reassembly).visits gapped)).countP
      (fun item ↦ item.2 ≠ i) < 200 → i ∈ stretch.map Prod.snd := by
    intro i hlt
    refine Decidable.byContradiction fun hmem ↦ ?_
    have hall : stretch.countP (fun item ↦ item.2 ≠ i) = stretch.length := by
      refine List.countP_eq_length.2 fun item hitem ↦ decide_eq_true fun he ↦ hmem ?_
      exact he ▸ List.mem_map_of_mem hitem
    have hle := within.sublist.countP_le (p := fun item ↦ item.2 ≠ i)
    omega
  -- Neither the bytes of the first packet nor those of the last are enough.
  obtain ⟨v, hv, announced, unheeded, empty⟩ :
      ∃ v, (({ pid := .pat } : Reassembly).visits gapped)[1]? = some v ∧
        v.packet.layout.hasPayload = true ∧ v.isIgnored = false ∧ v.data = [] :=
    ⟨_, rfl, by decide +kernel, by decide +kernel, by decide +kernel⟩
  rcases complete 0 (needed 0 (by decide +kernel)) 2 (needed 2 (by decide +kernel)) 1 v
    (by decide) (by decide) hv announced with hmem | ignored
  · obtain ⟨i, w, hi, hw, hne⟩ := mem_numbers_iff.1 ((within.map Prod.snd).subset hmem)
    obtain rfl : i = 1 := by omega
    obtain rfl := Option.some.inj (hv.symm.trans hw)
    exact hne empty
  · cases unheeded.symm.trans ignored

end Demux

end TransportStream
