import TransportStream.Demux.Extraction

namespace TransportStream

theorem CommonHeader.read_take (data : Bytes) : read (data.take size) = read data := by
  rcases data with _ | ⟨b₀, _ | ⟨b₁, _ | ⟨b₂, rest⟩⟩⟩ <;> rfl

theorem CommonHeader.read_append {data : Bytes} (h : size ≤ data.length) (rest : Bytes) :
    read (data ++ rest) = read data := by
  rw [← read_take (data ++ rest), List.take_append_of_le_length h, read_take]

def declaredSize (data : Bytes) : Nat := (CommonHeader.read data).totalSize

theorem declaredSize_pos (data : Bytes) : 0 < declaredSize data := by
  simp only [declaredSize, CommonHeader.totalSize, CommonHeader.size]
  omega

structure IsSection (data : Bytes) : Prop where
  head?_ne : data.head? ≠ some Extraction.stuffingMark
  size_le : CommonHeader.size ≤ data.length
  declaredSize_eq : declaredSize data = data.length
  length_le : data.length ≤ Section.maxSize

/-- Data that may become a section once more of it has come. -/
structure Unfinished (data : Bytes) : Prop where
  ne_nil : data ≠ []
  head?_ne : data.head? ≠ some Extraction.stuffingMark
  length_lt : data.length < CommonHeader.size ∨
    data.length < declaredSize data ∧ declaredSize data ≤ Section.maxSize

theorem Unfinished.length_lt_maxSize {data : Bytes} (h : Unfinished data) :
    data.length < Section.maxSize := by
  have hm : Section.maxSize = 4096 := rfl
  have hc : CommonHeader.size = 3 := rfl
  have hl := h.length_lt
  omega

theorem IsSection.ne_nil {data : Bytes} (h : IsSection data) : data ≠ [] := by
  have hs : CommonHeader.size = 3 := rfl
  have hl := h.size_le
  exact List.ne_nil_of_length_pos (by omega)

theorem IsSection.unfinished_take {data : Bytes} (h : IsSection data) {n : Nat} (h₀ : 0 < n)
    (hn : n < data.length) : Unfinished (data.take n) where
  ne_nil := List.ne_nil_of_length_pos (by rw [List.length_take]; omega)
  head?_ne := by
    rw [List.head?_take, if_neg (by omega)]
    exact h.head?_ne
  length_lt := by
    have hl : (data.take n).length = n := by rw [List.length_take]; omega
    rw [hl]
    by_cases hs : n < CommonHeader.size
    · exact .inl hs
    · have hd : declaredSize (data.take n) = data.length := by
        rw [← h.declaredSize_eq, declaredSize, declaredSize,
          ← CommonHeader.read_append (by omega) (data.drop n), List.take_append_drop]
      rw [hd]
      exact .inr ⟨hn, h.length_le⟩

/-- A header that declares more bytes than a section may have, with all that comes after it. -/
structure Oversized (data : Bytes) : Prop where
  size_le : CommonHeader.size ≤ data.length
  maxSize_lt : Section.maxSize < declaredSize data

theorem oversized_of_maxSize_lt {data : Bytes} (h : Section.maxSize < declaredSize data) :
    Oversized data := by
  refine ⟨Nat.not_lt.1 fun hshort ↦ ?_, h⟩
  have hmax : Section.maxSize = 4096 := rfl
  have hsize : CommonHeader.size = 3 := rfl
  have hlast : data.getD 2 0 = 0 := by
    rw [List.getD_eq_getElem?_getD, List.getElem?_eq_none (by omega)]
    rfl
  have hbits := bits_lt (data.getD 1 0) 0 4
  simp only [declaredSize, CommonHeader.totalSize, CommonHeader.read, hlast, hmax, hsize,
    UInt8.toNat_zero] at h
  omega

theorem Section.diagnose_of_oversized {data : Bytes} (h : Oversized data) (rule : ChecksumRule) :
    diagnose rule data = some (.tooLong (declaredSize data)) := by
  have hsize : ¬ data.length < CommonHeader.size := Nat.not_lt.2 h.size_le
  have hmax : maxSize < (CommonHeader.read data).totalSize := h.maxSize_lt
  unfold diagnose
  dsimp only
  rw [if_neg hsize, if_pos hmax, declaredSize]

def IsPiece (data : Bytes) : Prop := IsSection data ∨ Oversized data

namespace Staged

def bytes : Staged → Bytes
  | .sect s => s.bytes
  | .malformed data _ => data

def defect : Staged → Option Section.Defect
  | .sect s => s.defect
  | .malformed _ defect => some defect

def isMalformed : Staged → Bool
  | .sect _ => false
  | .malformed .. => true

def ofPiece (rule : ChecksumRule) (pid : Pid) (data : Bytes) : Staged :=
  if Section.maxSize < declaredSize data then .malformed data (.tooLong (declaredSize data))
  else .sect (.ofBytes rule data pid)

variable (rule : ChecksumRule) (pid : Pid) (data : Bytes)

theorem bytes_ofPiece : (ofPiece rule pid data).bytes = data := by
  unfold ofPiece
  split <;> rfl

/-- Where splitting finds a fault of its own, the checks of a section find the same. -/
theorem defect_ofPiece : (ofPiece rule pid data).defect = Section.diagnose rule data := by
  unfold ofPiece
  split
  · next long => exact (Section.diagnose_of_oversized (oversized_of_maxSize_lt long) rule).symm
  · rfl

variable {data} in
theorem ofPiece_of_isSection (h : IsSection data) :
    ofPiece rule pid data = .sect (.ofBytes rule data pid) := by
  refine if_neg (Nat.not_lt.2 ?_)
  rw [h.declaredSize_eq]
  exact h.length_le

variable {data} in
theorem ofPiece_of_oversized (h : Oversized data) :
    ofPiece rule pid data = .malformed data (.tooLong (declaredSize data)) :=
  if_pos h.maxSize_lt

theorem map_bytes_map (pieces : List Bytes) :
    (pieces.map (ofPiece rule pid)).map bytes = pieces := by
  have hbytes : bytes ∘ ofPiece rule pid = id := funext (bytes_ofPiece rule pid)
  rw [List.map_map, hbytes, List.map_id]

end Staged

namespace Extraction

def map {α β : Type} (f : α → β) (e : Extraction α) : Extraction β where
  pieces := e.pieces.map f
  pending := e.pending
  stuffing := e.stuffing

def split (data : Bytes) : Extraction Bytes :=
  if _hd : data = [] then {}
  else if data.head? = some stuffingMark then { stuffing := data }
  else if data.length < CommonHeader.size then { pending := data }
  else if Section.maxSize < declaredSize data then { pieces := [data] }
  else if data.length < declaredSize data then { pending := data }
  else
    let rest := split (data.drop (declaredSize data))
    { rest with pieces := data.take (declaredSize data) :: rest.pieces }
termination_by data.length
decreasing_by
  have := List.length_pos_iff.2 _hd
  have := declaredSize_pos data
  simp only [List.length_drop]
  omega

theorem value_readHeader {data : Bytes} (hl : ¬ data.length < CommonHeader.size) {α : Type}
    (f : CommonHeader → Traced α) :
    (liftM (slice data 0 CommonHeader.size) >>= fun bytes ↦
      liftM (CommonHeader.ofBytes bytes) >>= f : Traced α).value =
      (f (CommonHeader.read data)).value := by
  have hs : slice data 0 CommonHeader.size = .ok (data.take CommonHeader.size) :=
    slice_eq_ok_iff.2 ⟨⟨Nat.zero_le _, by omega⟩, rfl⟩
  have hh : CommonHeader.ofBytes (data.take CommonHeader.size) = .ok (CommonHeader.read data) :=
    CommonHeader.ofBytes_eq_ok_iff.2 ⟨by rw [List.length_take]; omega, CommonHeader.read_take _⟩
  rw [Traced.value_liftM_bind_of_ok hs, Traced.value_liftM_bind_of_ok hh]

theorem value_readMark {data : Bytes} (hd : data ≠ []) {α : Type} (x y : Traced α) :
    (liftM (itemAt data 0) >>= fun b ↦ if b = stuffingMark then x else y : Traced α).value =
      if data.head? = some stuffingMark then x.value else y.value := by
  obtain ⟨b, rest, rfl⟩ := List.exists_cons_of_ne_nil hd
  have hb : itemAt (b :: rest) 0 = .ok b := rfl
  rw [Traced.value_liftM_bind_of_ok hb, List.head?_cons]
  by_cases h : b = stuffingMark
  · rw [if_pos h, if_pos (congrArg some h)]
  · rw [if_neg h, if_neg fun he ↦ h (Option.some.inj he)]

theorem declaredSize_take {data : Bytes} (h : declaredSize data ≤ data.length) :
    declaredSize (data.take (declaredSize data)) = declaredSize data := by
  have hsize : CommonHeader.size ≤ declaredSize data := Nat.le_add_right _ _
  have hlength : (data.take (declaredSize data)).length = declaredSize data :=
    List.length_take_of_le h
  rw [declaredSize, ← CommonHeader.read_append (by omega) (data.drop (declaredSize data)),
    List.take_append_drop, declaredSize]

theorem value_ofBytes (rule : ChecksumRule) (pid : Pid) (data : Bytes) :
    (ofBytes rule pid data).value = .ok ((split data).map (.ofPiece rule pid)) := by
  fun_induction split data with
  | case1 =>
    rw [ofBytes, dif_pos rfl]
    rfl
  | case2 data hd hb =>
    rw [ofBytes, dif_neg hd, value_readMark hd, if_pos hb]
    rfl
  | case3 data hd hb hl =>
    rw [ofBytes, dif_neg hd, value_readMark hd, if_neg hb, if_pos hl]
    rfl
  | case4 data hd hb hl hm =>
    have hpiece : Staged.ofPiece rule pid data = .malformed data (.tooLong (declaredSize data)) :=
      if_pos hm
    rw [map, List.map_singleton, hpiece]
    rw [declaredSize] at hm
    rw [ofBytes, dif_neg hd, value_readMark hd, if_neg hb, if_neg hl, value_readHeader hl,
      if_pos hm]
    rfl
  | case5 data hd hb hl hm hn =>
    rw [declaredSize] at hm hn
    rw [ofBytes, dif_neg hd, value_readMark hd, if_neg hb, if_neg hl, value_readHeader hl,
      if_neg hm, if_pos hn]
    rfl
  | case6 data hd hb hl hm hn rest ih =>
    have hpiece : Staged.ofPiece rule pid (data.take (declaredSize data)) =
        .sect (.ofBytes rule (data.take (declaredSize data)) pid) :=
      if_neg (by rwa [declaredSize_take (Nat.not_lt.1 hn)])
    rw [map, List.map_cons, hpiece]
    rw [declaredSize] at hm hn ih ⊢
    have hp : slice data 0 (CommonHeader.read data).totalSize =
        .ok (data.take (CommonHeader.read data).totalSize) :=
      slice_eq_ok_iff.2 ⟨⟨Nat.zero_le _, by omega⟩, rfl⟩
    rw [ofBytes, dif_neg hd, value_readMark hd, if_neg hb, if_neg hl, value_readHeader hl,
      if_neg hm, if_neg hn, Traced.value_liftM_bind_of_ok hp, Traced.value_bind_of_ok ih]
    rfl

@[simp] theorem split_nil : split [] = {} := by rw [split, dif_pos rfl]

theorem split_of_stuffing {data : Bytes} (h : data.head? = some stuffingMark) :
    split data = { stuffing := data } := by
  have hd : data ≠ [] := by
    rintro rfl
    simp at h
  rw [split, dif_neg hd, if_pos h]

theorem split_of_unfinished {data : Bytes} (h : Unfinished data) :
    split data = { pending := data } := by
  rw [split, dif_neg h.ne_nil, if_neg h.head?_ne]
  split
  · rfl
  · next hl =>
    have hn := h.length_lt.resolve_left hl
    rw [if_neg (by omega), if_pos hn.1]

theorem split_section_append {data : Bytes} (h : IsSection data) (rest : Bytes) :
    split (data ++ rest) =
      { split rest with pieces := data :: (split rest).pieces } := by
  have hd : declaredSize (data ++ rest) = data.length := by
    rw [← h.declaredSize_eq, declaredSize, CommonHeader.read_append h.size_le, declaredSize]
  have hl : (data ++ rest).length = data.length + rest.length := List.length_append
  have hs := h.size_le
  have hm := h.length_le
  have hh : (data ++ rest).head? = data.head? := by
    obtain ⟨b, tail, rfl⟩ := List.exists_cons_of_ne_nil h.ne_nil
    rfl
  rw [split, dif_neg (by simp [h.ne_nil]), if_neg (by rw [hh]; exact h.head?_ne),
    if_neg (by omega), if_neg (by omega), if_neg (by omega), hd, List.take_left', List.drop_left']
  · rfl
  · rfl

theorem length_pieces_le (data : Bytes) : (split data).pieces.length ≤ data.length := by
  fun_induction split data with
  | case1 | case2 | case3 | case5 => exact Nat.zero_le _
  | case4 data hd => exact List.length_pos_iff.2 hd
  | case6 data hd hb hl hm hn rest ih =>
    have hpos := declaredSize_pos data
    rw [List.length_drop] at ih
    simp only [List.length_cons, rest]
    omega

theorem isSection_take {data : Bytes} (hb : data.head? ≠ some stuffingMark)
    (hm : declaredSize data ≤ Section.maxSize) (hn : declaredSize data ≤ data.length) :
    IsSection (data.take (declaredSize data)) := by
  have hsize : CommonHeader.size ≤ declaredSize data := Nat.le_add_right _ _
  have hlength : (data.take (declaredSize data)).length = declaredSize data :=
    List.length_take_of_le hn
  refine ⟨?_, by omega, by rw [declaredSize_take hn, hlength], by omega⟩
  rw [List.head?_take, if_neg (Nat.ne_of_gt (declaredSize_pos data))]
  exact hb

/-- How data is split: sections come off in front, until nothing is left, or stuffing, or what may
still become a section, or what declares too many bytes. -/
inductive Splits : Bytes → Extraction Bytes → Prop
  | nothing : Splits [] {}
  | stuffing {data : Bytes} (marked : data.head? = some stuffingMark) :
      Splits data { stuffing := data }
  | pending {data : Bytes} (unfinished : Unfinished data) : Splits data { pending := data }
  | oversized {data : Bytes} (unmarked : data.head? ≠ some stuffingMark) (long : Oversized data) :
      Splits data { pieces := [data] }
  | piece {data more : Bytes} {e : Extraction Bytes} (whole : IsSection data)
      (rest : Splits more e) : Splits (data ++ more) { e with pieces := data :: e.pieces }

theorem splits_split (data : Bytes) : Splits data (split data) := by
  fun_induction split data with
  | case1 => exact .nothing
  | case2 data hd hb => exact .stuffing hb
  | case3 data hd hb hl => exact .pending ⟨hd, hb, .inl hl⟩
  | case4 data hd hb hl hm => exact .oversized hb ⟨Nat.not_lt.1 hl, hm⟩
  | case5 data hd hb hl hm hn => exact .pending ⟨hd, hb, .inr ⟨hn, Nat.not_lt.1 hm⟩⟩
  | case6 data hd hb hl hm hn rest ih =>
    have h := ih.piece (isSection_take hb (Nat.not_lt.1 hm) (Nat.not_lt.1 hn))
    rwa [List.take_append_drop] at h

namespace Splits

variable {data : Bytes} {e : Extraction Bytes}

theorem flatten_append (h : Splits data e) :
    e.pieces.flatten ++ (e.pending ++ e.stuffing) = data := by
  induction h with
  | nothing | stuffing => rfl
  | pending => exact List.append_nil _
  | oversized => simp
  | piece _ _ ih => rw [List.flatten_cons, List.append_assoc, ih]

theorem isPiece (h : Splits data e) : ∀ piece ∈ e.pieces, IsPiece piece := by
  induction h with
  | nothing | stuffing | pending => exact List.forall_mem_nil _
  | oversized _ long => exact List.forall_mem_singleton.2 (.inr long)
  | piece whole _ ih => exact List.forall_mem_cons.2 ⟨.inl whole, ih⟩

theorem pending_eq_nil_or (h : Splits data e) :
    e.pending = [] ∨
      Unfinished e.pending ∧ e.stuffing = [] ∧ ∀ piece ∈ e.pieces, IsSection piece := by
  induction h with
  | nothing | stuffing | oversized => exact .inl rfl
  | pending unfinished =>
    exact .inr ⟨unfinished, rfl, List.forall_mem_nil _⟩
  | piece whole _ ih =>
    exact ih.imp_right fun ⟨hpending, hstuffing, hpieces⟩ ↦
      ⟨hpending, hstuffing, List.forall_mem_cons.2 ⟨whole, hpieces⟩⟩

end Splits

theorem isPiece_of_mem {data piece : Bytes} (h : piece ∈ (split data).pieces) : IsPiece piece :=
  (splits_split data).isPiece piece h

theorem flatten_pieces_prefix (data : Bytes) : (split data).pieces.flatten <+: data :=
  ⟨_, (splits_split data).flatten_append⟩

theorem infix_of_mem_pieces {data piece : Bytes} (h : piece ∈ (split data).pieces) :
    piece <:+: data := by
  have hfront := flatten_pieces_prefix data
  exact (List.infix_of_mem_flatten h).trans hfront.isInfix

theorem unfinished_pending (data : Bytes) (h : (split data).pending ≠ []) :
    Unfinished (split data).pending :=
  ((splits_split data).pending_eq_nil_or.resolve_left h).1

theorem suffix_pending (data : Bytes) : (split data).pending <:+ data := by
  have hwhole := (splits_split data).flatten_append
  rcases (splits_split data).pending_eq_nil_or with hnone | ⟨-, hstuffing, -⟩
  · rw [hnone]
    exact List.nil_suffix
  · rw [hstuffing, List.append_nil] at hwhole
    exact ⟨_, hwhole⟩

end Extraction

end TransportStream
