import Mathlib.Data.List.TakeDrop
import TransportStream.Proofs.Packing.Shares

namespace TransportStream

def joined (sections : List Section) : Bytes := sections.flatMap (·.bytes)

@[simp] theorem joined_nil : joined [] = [] := rfl

@[simp] theorem joined_cons (s : Section) (rest : List Section) :
    joined (s :: rest) = s.bytes ++ joined rest := List.flatMap_cons

@[simp] theorem joined_append (a b : List Section) : joined (a ++ b) = joined a ++ joined b :=
  List.flatMap_append

def Within (sent : Nat) : List Section → Prop
  | [] => sent = 0
  | s :: _ => sent < s.size

theorem Within.le_length {sent : Nat} {sections : List Section} (h : Within sent sections) :
    sent ≤ (joined sections).length := by
  cases sections with
  | nil => exact Nat.le_of_eq h
  | cons s rest =>
    have hs : sent < s.bytes.length := h
    rw [joined_cons, List.length_append]
    omega

theorem within_zero {sections : List Section} (h : ∀ s ∈ sections, s.bytes ≠ []) :
    Within 0 sections := by
  cases sections with
  | nil => rfl
  | cons s rest => exact List.length_pos_iff.2 (h s (List.mem_cons_self ..))

theorem Within.append {sent : Nat} {sections more : List Section} (h : Within sent sections)
    (hm : ∀ s ∈ more, s.bytes ≠ []) : Within sent (sections ++ more) := by
  cases sections with
  | nil =>
    obtain rfl : sent = 0 := h
    exact within_zero hm
  | cons s rest => exact h

theorem exists_progress (sections : List Section) {n : Nat} (h : n ≤ (joined sections).length) :
    ∃ ended rest ahead, sections = ended ++ rest ∧ n = (joined ended).length + ahead ∧
      Within ahead rest := by
  induction sections generalizing n with
  | nil => exact ⟨[], [], 0, rfl, Nat.eq_zero_of_le_zero h, rfl⟩
  | cons s rest ih =>
    rw [joined_cons, List.length_append] at h
    by_cases hn : n < s.size
    · exact ⟨[], s :: rest, n, rfl, (Nat.zero_add n).symm, hn⟩
    · have hs : s.bytes.length ≤ n := Nat.not_lt.1 hn
      obtain ⟨ended, tail, ahead, he, hn', hw⟩ := ih (n := n - s.bytes.length) (by omega)
      refine ⟨s :: ended, tail, ahead, by rw [he]; rfl, ?_, hw⟩
      rw [joined_cons, List.length_append]
      omega

namespace SectionPacker

theorem startsAfter_zero (starts : List Nat) : startsAfter 0 starts = starts := by
  rw [startsAfter]
  cases starts with
  | nil => rfl
  | cons m rest =>
    rw [List.dropWhile_cons_of_neg (by simp)]
    exact List.map_id _

theorem startsAfter_startsAfter (m : Nat) {n : Nat} (h : 0 < n) (starts : List Nat) :
    startsAfter n (startsAfter m starts) = startsAfter (m + n) starts := by
  simp only [startsAfter]
  induction starts with
  | nil => rfl
  | cons k rest ih =>
    by_cases hm : k < m
    · rw [List.dropWhile_cons_of_pos (by simpa using hm), ih,
        List.dropWhile_cons_of_pos (by simp; omega)]
    · rw [List.dropWhile_cons_of_neg (by simpa using hm), List.dropWhile_map, List.map_map]
      have hp : ((fun i ↦ decide (i < n)) ∘ fun i ↦ i - m) = fun i ↦ decide (i < m + n) := by
        funext i
        simp only [Function.comp, decide_eq_decide]
        omega
      have hs : ((fun i ↦ i - n) ∘ fun i ↦ i - m) = fun i ↦ i - (m + n) := by
        funext i
        simp only [Function.comp]
        omega
      rw [hp, hs]

theorem startsAfter_of_lt {m n : Nat} (h : m < n) (starts : List Nat) :
    startsAfter n (m :: starts) = startsAfter n starts := by
  rw [startsAfter, List.dropWhile_cons_of_pos (by simpa using h), startsAfter]

theorem positions_add (m n : Nat) (sections : List Section) :
    positions (m + n) sections = (positions n sections).map (m + ·) := by
  induction sections generalizing n with
  | nil => rfl
  | cons s rest ih => rw [positions, positions, List.map_cons, Nat.add_assoc, ih]

theorem startsAfter_positions_add (m n : Nat) (sections : List Section) :
    startsAfter (m + n) (positions m sections) = startsAfter n (positions 0 sections) := by
  have hd : ((fun i ↦ decide (i < m + n)) ∘ fun i ↦ m + i) = fun i ↦ decide (i < n) := by
    funext i
    simp only [Function.comp, decide_eq_decide]
    omega
  have hs : ((fun i ↦ i - (m + n)) ∘ fun i ↦ m + i) = fun i ↦ i - n := by
    funext i
    simp only [Function.comp]
    omega
  have hp : positions m sections = (positions 0 sections).map (m + ·) := positions_add m 0 sections
  rw [startsAfter, hp, List.dropWhile_map, List.map_map, hd, hs, startsAfter]

theorem startsAfter_positions {ended : List Section} (he : ∀ s ∈ ended, s.bytes ≠ []) (n : Nat)
    (rest : List Section) :
    startsAfter ((joined ended).length + n) (positions 0 (ended ++ rest)) =
      startsAfter n (positions 0 rest) := by
  induction ended with
  | nil => rw [joined_nil, List.length_nil, Nat.zero_add, List.nil_append]
  | cons s tail ih =>
    have hs : 0 < s.size := List.length_pos_iff.2 (he s (List.mem_cons_self ..))
    have hl : (joined (s :: tail)).length = s.size + (joined tail).length := by
      rw [joined_cons, List.length_append]
      rfl
    rw [hl, List.cons_append, positions, startsAfter_of_lt (by omega), Nat.zero_add, Nat.add_assoc,
      startsAfter_positions_add, ih (fun t ht ↦ he t (List.mem_cons_of_mem _ ht))]

theorem head?_startsAfter_of_pos {n : Nat} {s t : Section} (h₀ : 0 < n) (hn : n ≤ s.size)
    (rest : List Section) :
    (startsAfter n (positions 0 (s :: t :: rest))).head? = some (s.size - n) := by
  rw [positions, startsAfter_of_lt h₀, positions, startsAfter, Nat.zero_add,
    List.dropWhile_cons_of_neg (by simpa using hn)]
  rfl

theorem le_of_mem_positions {base m : Nat} {sections : List Section}
    (h : m ∈ positions base sections) : base ≤ m := by
  induction sections generalizing base with
  | nil => cases h
  | cons s rest ih =>
    rcases List.mem_cons.1 h with rfl | h
    · exact Nat.le_refl _
    · exact Nat.le_trans (Nat.le_add_right _ _) (ih h)

theorem cut_drop {α : Type} (starts : List Nat) {data : List α} {n : Nat} (h : n < data.length) :
    cut (data.drop n) (startsAfter n starts) =
      let next := portion (data.length - n) (startsAfter n starts).head?
      ⟨next.pointer, (data.drop n).take next.size⟩ ::
        cut (data.drop (n + next.size)) (startsAfter (n + next.size) starts) := by
  have hne : data.drop n ≠ [] := fun hd ↦ Nat.not_le.2 h (List.drop_eq_nil_iff.1 hd)
  have hpos := portion_size_pos (Nat.sub_pos_of_lt h) (startsAfter n starts).head?
  rw [cut, dif_neg hne]
  simp only [List.length_drop, List.drop_drop, startsAfter_startsAfter _ hpos]

theorem add_mem_of_head?_startsAfter {starts : List Nat} {n distance : Nat}
    (h : (startsAfter n starts).head? = some distance) : n + distance ∈ starts := by
  induction starts with
  | nil => cases h
  | cons m rest ih =>
    by_cases hm : m < n
    · rw [startsAfter_of_lt hm] at h
      exact List.mem_cons_of_mem _ (ih h)
    · rw [startsAfter, List.dropWhile_cons_of_neg (by simpa using hm)] at h
      obtain rfl : m - n = distance := Option.some.inj h
      rw [Nat.add_sub_cancel' (Nat.not_lt.1 hm)]
      exact List.mem_cons_self ..

theorem tagged_append (n : Nat) (a b : List Section) :
    tagged n (a ++ b) = tagged n a ++ tagged (n + a.length) b := by
  induction a generalizing n with
  | nil => rfl
  | cons s rest ih =>
    rw [List.cons_append, tagged, tagged, ih, List.append_assoc, List.length_cons, Nat.add_assoc,
      Nat.add_comm 1]

@[simp] theorem length_tagged (n : Nat) (sections : List Section) :
    (tagged n sections).length = (joined sections).length := by
  rw [joined, ← map_fst_tagged n, List.length_map]

theorem take_tagged {n sent : Nat} {sections : List Section} (h : Within sent sections) :
    (tagged n sections).take sent = ((joined sections).take sent).map (·, n) := by
  cases sections with
  | nil => simp [tagged]
  | cons s rest =>
    have hs : sent ≤ s.bytes.length := Nat.le_of_lt h
    rw [tagged, joined_cons, List.take_append_of_le_length (by rwa [List.length_map]),
      List.take_append_of_le_length hs, List.map_take]

theorem mem_numbers_tagged {n m : Nat} {sections : List Section}
    (h : ∀ s ∈ sections, s.bytes ≠ []) :
    m ∈ (tagged n sections).map Prod.snd ↔ n ≤ m ∧ m < n + sections.length := by
  induction sections generalizing n with
  | nil =>
    simp only [tagged, List.map_nil, List.not_mem_nil, List.length_nil, false_iff]
    omega
  | cons s rest ih =>
    have hs : m ∈ (s.bytes.map (·, n)).map Prod.snd ↔ m = n := by
      simp only [List.map_map, List.mem_map, Function.comp]
      constructor
      · rintro ⟨b, -, rfl⟩
        rfl
      · rintro rfl
        obtain ⟨b, hb⟩ := List.exists_mem_of_ne_nil _ (h s (List.mem_cons_self ..))
        exact ⟨b, hb, rfl⟩
    rw [tagged, List.map_append, List.mem_append, hs,
      ih (fun t ht ↦ h t (List.mem_cons_of_mem _ ht)), List.length_cons]
    omega

end SectionPacker

end TransportStream
