import TransportStream.Proofs.Demux.Reassembly

namespace TransportStream

namespace Extraction

variable {data more : Bytes} {e rest : Extraction Bytes}

theorem split_of_oversized (unmarked : data.head? ≠ some stuffingMark) (long : Oversized data) :
    split data = { pieces := [data] } := by
  have hd : data ≠ [] := List.ne_nil_of_length_pos (Nat.lt_of_lt_of_le (by decide) long.size_le)
  rw [split, dif_neg hd, if_neg unmarked, if_neg (Nat.not_lt.2 long.size_le),
    if_pos long.maxSize_lt]

theorem Splits.split_eq (h : Splits data e) : split data = e := by
  induction h with
  | nothing => exact split_nil
  | stuffing marked => exact split_of_stuffing marked
  | pending unfinished => exact split_of_unfinished unfinished
  | oversized unmarked long => exact split_of_oversized unmarked long
  | piece whole _ ih => rw [split_section_append whole, ih]

/-- Whether the section under way goes on after the data: stuffing ends it, and so does a section
that is too long. -/
def intake (e : Extraction Staged) : Intake :=
  if e.stuffing = [] ∧ e.pieces.any (·.isMalformed) = false then .accumulating else .idle

/-- Whether the item is a section of the length that its header declares, with what the checks say
of it. -/
def IsWhole (rule : ChecksumRule) (pid : Pid) (item : Staged) : Prop :=
  ∃ data, IsSection data ∧ item = .sect (.ofBytes rule data pid)

def EndsOversized (rule : ChecksumRule) (pid : Pid) (items : List Staged) : Prop :=
  ∃ sections rest, items = sections ++ [.malformed rest (.tooLong (declaredSize rest))] ∧
    (∀ item ∈ sections, IsWhole rule pid item) ∧ Oversized rest ∧
    rest.head? ≠ some stuffingMark

/-- Takes all of the data apart: whole sections follow each other in front, and what comes after
them is the start of another section, or stuffing, or one item that declares too many bytes. -/
structure Partitions (rule : ChecksumRule) (pid : Pid) (e : Extraction Staged) (data : Bytes) :
    Prop where
  whole : (e.pieces.map (·.bytes)).flatten ++ (e.pending ++ e.stuffing) = data
  pieces : (∀ item ∈ e.pieces, IsWhole rule pid item) ∨
    EndsOversized rule pid e.pieces ∧ e.pending = [] ∧ e.stuffing = []
  pending : e.pending = [] ∨ Unfinished e.pending ∧ e.stuffing = []
  stuffing : e.stuffing = [] ∨ e.stuffing.head? = some stuffingMark

variable (rule : ChecksumRule) (pid : Pid)

theorem isWhole_ofPiece (whole : IsSection data) : IsWhole rule pid (.ofPiece rule pid data) :=
  ⟨data, whole, Staged.ofPiece_of_isSection rule pid whole⟩

variable {rule pid} in
theorem EndsOversized.cons {front : Staged} {items : List Staged}
    (h : EndsOversized rule pid items) (whole : IsWhole rule pid front) :
    EndsOversized rule pid (front :: items) := by
  obtain ⟨sections, rest, rfl, hsections, hrest⟩ := h
  exact ⟨front :: sections, rest, rfl, List.forall_mem_cons.2 ⟨whole, hsections⟩, hrest⟩

theorem Splits.partitions (h : Splits data e) :
    (e.map (.ofPiece rule pid)).Partitions rule pid data := by
  refine ⟨?whole, ?pieces, ?pending, ?stuffing⟩
  case whole =>
    rw [Extraction.map, Staged.map_bytes_map]
    exact h.flatten_append
  case pieces =>
    induction h with
    | nothing | stuffing | pending => exact .inl (List.forall_mem_nil _)
    | @oversized data unmarked long =>
      have hitem := Staged.ofPiece_of_oversized rule pid long
      exact .inr ⟨⟨[], data, congrArg ([·]) hitem, List.forall_mem_nil _, long, unmarked⟩, rfl, rfl⟩
    | piece whole _ ih =>
      have hitem := isWhole_ofPiece rule pid whole
      refine ih.imp (fun hall ↦ List.forall_mem_cons.2 ⟨hitem, hall⟩) ?_
      exact fun h ↦ ⟨h.1.cons hitem, h.2⟩
  case pending =>
    exact h.pending_eq_nil_or.imp_right fun h ↦ ⟨h.1, h.2.1⟩
  case stuffing =>
    induction h with
    | nothing | pending | oversized => exact .inl rfl
    | stuffing marked => exact .inr marked
    | piece _ _ ih => exact ih

variable {rule pid} in
theorem any_isMalformed {items : List Staged} (h : ∀ item ∈ items, IsWhole rule pid item) :
    items.any (·.isMalformed) = false := by
  refine List.any_eq_false.2 fun item hitem ↦ ?_
  obtain ⟨_, -, rfl⟩ := h item hitem
  exact Bool.false_ne_true

theorem intake_append {items : List Staged} (h : ∀ item ∈ items, IsWhole rule pid item)
    (e : Extraction Staged) : { e with pieces := items ++ e.pieces }.intake = e.intake := by
  simp only [intake, List.any_append, any_isMalformed h, Bool.false_or]

theorem Splits.append (h : Splits data e) (hp : e.pending ≠ [])
    (h' : Splits (e.pending ++ more) rest) :
    Splits (data ++ more) { rest with pieces := e.pieces ++ rest.pieces } := by
  induction h with
  | nothing | stuffing | oversized => exact absurd rfl hp
  | pending => exact h'
  | piece whole _ ih =>
    rw [List.append_assoc]
    exact (ih hp h').piece whole

theorem split_append (hp : (split data).pending ≠ []) (more : Bytes) :
    split (data ++ more) =
      { split ((split data).pending ++ more) with
        pieces := (split data).pieces ++ (split ((split data).pending ++ more)).pieces } :=
  ((splits_split data).append hp (splits_split _)).split_eq

theorem isWhole_of_pending (hp : (split data).pending ≠ []) :
    ∀ item ∈ (split data).pieces.map (.ofPiece rule pid), IsWhole rule pid item := by
  obtain ⟨-, -, hpieces⟩ := (splits_split data).pending_eq_nil_or.resolve_left hp
  exact List.forall_mem_map.2 fun piece hpiece ↦ isWhole_ofPiece rule pid (hpieces piece hpiece)

theorem intake_of_pending (hp : (split data).pending ≠ []) :
    ((split data).map (.ofPiece rule pid)).intake = .accumulating := by
  obtain ⟨-, hstuffing, -⟩ := (splits_split data).pending_eq_nil_or.resolve_left hp
  exact if_pos ⟨hstuffing, any_isMalformed (isWhole_of_pending rule pid hp)⟩

end Extraction

namespace Reassembly

variable {r : Reassembly} {x y : Bytes}

theorem continued_append (hr : r.intake = .accumulating) (hkept : (r.continued x).1.buffer ≠ []) :
    r.continued (x ++ y) = (((r.continued x).1.continued y).1,
      { pieces := (r.continued x).2.pieces ++ ((r.continued x).1.continued y).2.pieces }) := by
  let kept := (Extraction.split (r.buffer ++ x)).pending
  have hfirst : r.continued x =
      (r.keep kept, { pieces := (Extraction.split (r.buffer ++ x)).pieces }) :=
    continued_of_accumulating hr rfl
  rw [hfirst] at hkept ⊢
  have hpending : kept ≠ [] := hkept
  have hsecond : (r.keep kept).continued y =
      ((r.keep kept).keep (Extraction.split (kept ++ y)).pending,
        { pieces := (Extraction.split (kept ++ y)).pieces }) :=
    continued_of_accumulating (if_neg hpending) rfl
  rw [hsecond, continued_of_accumulating hr (List.append_assoc ..).symm,
    Extraction.split_append hpending]
  rfl

end Reassembly

namespace Extraction

variable (rule : ChecksumRule) (pid : Pid)

/-- Data is taken apart without loss. If its first part ends within a section, then to split that
part, and what is pending of it together with the second one, gives the same items in the same
order and leaves the same as to split the data at once; and so for a substream that takes the parts
one after the other. -/
theorem ofBytes_in_parts :
    (∀ data, ∃ e, (ofBytes rule pid data).value = .ok e ∧ e.Partitions rule pid data) ∧
    (∀ x y first, (ofBytes rule pid x).value = .ok first → first.pending ≠ [] →
      first.intake = .accumulating ∧ ∃ second whole,
        (ofBytes rule pid (first.pending ++ y)).value = .ok second ∧
        (ofBytes rule pid (x ++ y)).value = .ok whole ∧
        whole.pieces = first.pieces ++ second.pieces ∧ whole.pending = second.pending ∧
        whole.stuffing = second.stuffing ∧ whole.intake = second.intake) ∧
    ∀ (r first : Reassembly) x y found, r.intake = .accumulating →
      (r.takeMore rule x).value = .ok (first, found) → first.buffer ≠ [] →
      ∃ second more, (first.takeMore rule y).value = .ok (second, more) ∧
        (r.takeMore rule (x ++ y)).value =
          .ok (second, { pieces := found.pieces ++ more.pieces }) := by
  refine ⟨fun data ↦ ?_, fun x y first hfirst hpending ↦ ?_,
    fun r first x y found hr hfirst hkept ↦ ?_⟩
  · exact ⟨_, value_ofBytes rule pid data, (splits_split data).partitions rule pid⟩
  · obtain rfl := Except.ok.inj ((value_ofBytes rule pid x).symm.trans hfirst)
    have hpending : (split x).pending ≠ [] := hpending
    let second := (split ((split x).pending ++ y)).map (Staged.ofPiece rule pid)
    have hwhole : (split (x ++ y)).map (Staged.ofPiece rule pid) = { second with
        pieces := (split x).pieces.map (Staged.ofPiece rule pid) ++ second.pieces } := by
      rw [split_append hpending, Extraction.map, List.map_append]
      rfl
    refine ⟨intake_of_pending rule pid hpending, second, _, value_ofBytes rule pid _,
      value_ofBytes rule pid _, ?_⟩
    rw [hwhole]
    exact ⟨rfl, rfl, rfl, intake_append rule pid (isWhole_of_pending rule pid hpending) second⟩
  · obtain ⟨rfl, rfl⟩ := Prod.mk.inj (Except.ok.inj ((r.value_takeMore rule x).symm.trans hfirst))
    have hpid : (r.continued x).1.pid = r.pid := by
      rw [Reassembly.continued_of_accumulating hr rfl]
      rfl
    have hsecond := (r.continued x).1.value_takeMore rule y
    rw [hpid] at hsecond
    refine ⟨_, _, hsecond, ?_⟩
    rw [r.value_takeMore, Reassembly.continued_append hr hkept]
    exact congrArg (fun items ↦ Except.ok (_, Findings.mk [] items)) (List.map_append)

def sampleStart : Bytes := [0x70, 0x30, 1, 9, 0x71]

def sampleRest : Bytes := [0x30, 2, 5, 6, 0xff, 0xff]

theorem split_sampleStart :
    split sampleStart = { pieces := [[0x70, 0x30, 1, 9]], pending := [0x71] } :=
  (@Splits.piece [0x70, 0x30, 1, 9] _ _ ⟨by decide, by decide, by decide, by decide⟩
    (.pending ⟨by decide, by decide, .inl (by decide)⟩)).split_eq

theorem split_sampleRest : split (0x71 :: sampleRest) =
    { pieces := [[0x71, 0x30, 2, 5, 6]], stuffing := [0xff, 0xff] } :=
  (@Splits.piece [0x71, 0x30, 2, 5, 6] _ _ ⟨by decide, by decide, by decide, by decide⟩
    (.stuffing rfl)).split_eq

def sampleSubstream : Reassembly := { pid := .pat, intake := .accumulating }

def sampleItem : Staged := .sect (.ofBytes .ignore [0x70, 0x30, 1, 9] .pat)

theorem ofBytes_in_parts_header :
    (∃ second whole, (ofBytes .ignore .pat sampleStart).value =
        .ok { pieces := [sampleItem], pending := [0x71] } ∧
      (ofBytes .ignore .pat (0x71 :: sampleRest)).value = .ok second ∧
      (ofBytes .ignore .pat (sampleStart ++ sampleRest)).value = .ok whole ∧
      whole.pieces = sampleItem :: second.pieces ∧ whole.stuffing = second.stuffing ∧
      second.pieces.map (·.bytes) = [[0x71, 0x30, 2, 5, 6]] ∧ second.intake = .idle) ∧
    ∃ second more, (sampleSubstream.takeMore .ignore (sampleStart ++ sampleRest)).value =
        .ok (second, { pieces := sampleItem :: more.pieces }) ∧
      ((sampleSubstream.keep [0x71]).takeMore .ignore sampleRest).value = .ok (second, more) := by
  have hsplit : (split sampleStart).map (.ofPiece .ignore .pat) =
      { pieces := [sampleItem], pending := [0x71] } :=
    congrArg (map (Staged.ofPiece .ignore .pat)) split_sampleStart
  have hfirst : (ofBytes .ignore .pat sampleStart).value =
      .ok { pieces := [sampleItem], pending := [0x71] } := by
    rw [value_ofBytes, hsplit]
  have htaken : (sampleSubstream.takeMore .ignore sampleStart).value =
      .ok (sampleSubstream.keep [0x71], { pieces := [sampleItem] }) := by
    rw [Reassembly.value_takeMore, Reassembly.continued_of_accumulating rfl rfl]
    exact congrArg (fun e : Extraction Staged ↦
      Except.ok (sampleSubstream.keep e.pending, ({ pieces := e.pieces } : Findings Staged))) hsplit
  obtain ⟨-, hsplits, htakes⟩ := ofBytes_in_parts .ignore .pat
  obtain ⟨-, second, whole, hsecond, hwhole, hpieces, -, hstuffing, -⟩ :=
    hsplits sampleStart sampleRest _ hfirst (by decide)
  obtain ⟨next, more, hnext, hall⟩ :=
    htakes sampleSubstream _ sampleStart sampleRest _ rfl htaken (by decide)
  obtain rfl : (split (0x71 :: sampleRest)).map (.ofPiece .ignore .pat) = second :=
    Except.ok.inj ((value_ofBytes .ignore .pat _).symm.trans hsecond)
  rw [split_sampleRest] at hsecond hpieces hstuffing
  exact ⟨⟨_, whole, hfirst, hsecond, hwhole, hpieces, hstuffing, rfl, by decide⟩,
    next, more, hall, hnext⟩

end Extraction

end TransportStream
