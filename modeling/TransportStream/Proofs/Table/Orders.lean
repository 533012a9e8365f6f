import TransportStream.Proofs.Table.Additions

namespace TransportStream.Table

variable {t u : Table} {s : Section} {id : Identity} {additions : List Section}

theorem Valid.getElem?_slots_eq_some_iff (h : t.Valid) {i : Nat} :
    t.slots[i]? = some (some s) ↔ s ∈ t.sections ∧ s.number.toNat = i := by
  constructor
  · intro hslot
    exact ⟨List.mem_filterMap.2 ⟨_, List.mem_of_getElem? hslot, rfl⟩, (h.slot i s hslot).2.1⟩
  · rintro ⟨hs, rfl⟩
    obtain ⟨o, ho, hos⟩ := List.mem_filterMap.1 hs
    obtain ⟨j, hj⟩ := List.mem_iff_getElem?.1 ho
    obtain rfl : o = some s := hos
    rwa [(h.slot j s hj).2.1]

theorem Sound.identity_eq_of_mem (h : t.Sound) (hs : s ∈ t.sections) :
    t.identity = some (.ofSection s) :=
  (h.valid.of_mem hs).2

theorem Sound.eq_of_perm (ht : t.Sound) (hu : u.Sound) (perm : t.sections.Perm u.sections) :
    t = u := by
  have hidentity : t.identity = u.identity := by
    cases hsections : u.sections with
    | nil =>
      have hnone {v : Table} (hv : v.Sound) (hnil : v.sections = []) : v.identity = none := by
        rw [hv.identity_eq_none_iff, hv.slots_eq_nil_iff, hv.valid.present, hnil]
        rfl
      rw [hnone hu hsections, hnone ht (hsections ▸ perm).eq_nil]
    | cons s rest =>
      have hs : s ∈ u.sections := by simp [hsections]
      rw [hu.identity_eq_of_mem hs, ht.identity_eq_of_mem (perm.mem_iff.2 hs)]
  have hlength : t.slots.length = u.slots.length := by
    rw [ht.valid.length_slots, hu.valid.length_slots, hidentity]
  -- Which slot a section is in is for its number to say.
  have hslots : t.slots = u.slots := by
    apply List.ext_getElem hlength
    intro i hi hj
    apply Option.ext
    intro s
    have h : t.slots[i]? = some (some s) ↔ u.slots[i]? = some (some s) := by
      rw [ht.valid.getElem?_slots_eq_some_iff, hu.valid.getElem?_slots_eq_some_iff, perm.mem_iff]
    rwa [List.getElem?_eq_getElem hi, List.getElem?_eq_getElem hj, Option.some_inj,
      Option.some_inj] at h
  have hpresent : t.present = u.present := by
    rw [ht.valid.present, hu.valid.present, perm.length_eq]
  obtain ⟨_, _, _⟩ := t
  obtain ⟨_, _, _⟩ := u
  simp only at hidentity hslots hpresent
  rw [hidentity, hslots, hpresent]

theorem Valid.get?_eq_none_of_not_mem (h : t.Valid) (new : s.number ∉ t.sections.map (·.number)) :
    t.get? s.number = none := by
  cases hs : t.get? s.number with
  | none => rfl
  | some known =>
    obtain ⟨hmem, hnumber⟩ := h.getElem?_slots_eq_some_iff.1 (Option.join_eq_some_iff.1 hs)
    exact absurd (List.mem_map.2 ⟨known, hmem, UInt8.toNat_inj.1 hnumber⟩) new

theorem Sound.perform_distinct (h : t.Sound)
    (started : t.identity = none ∨ t.identity = some id)
    (same : ∀ s ∈ additions, s.defect = none ∧ Identity.ofSection s = id)
    (distinct : ((t.sections ++ additions).map (·.number)).Nodup) :
    ∃ u, t.perform (additions.map .add) = .ok (u, (List.range additions.length).map fun i ↦
        .ok (decide (t.present + i = id.last.toNat))) ∧
      u.Sound ∧ u.sections.Perm (t.sections ++ additions) := by
  -- A section that goes from the list to the table leaves the numbers of both together distinct.
  induction additions generalizing t with
  | nil => exact ⟨t, rfl, h, by simp⟩
  | cons s rest ih =>
    obtain ⟨valid, hid⟩ := same s (List.mem_cons_self ..)
    have hnew : s.number ∉ t.sections.map (·.number) := by
      intro hmem
      rw [List.map_append, List.map_cons] at distinct
      exact (List.nodup_append.1 distinct).2.2 _ hmem _ (List.mem_cons_self ..) rfl
    have fit := h.admits started valid hid (h.valid.get?_eq_none_of_not_mem hnew)
    obtain ⟨next, result, hadd, adds⟩ := h.exists_add s
    have hnext := h.of_adds adds
    cases adds with
    | refused unfit => exact absurd fit unfit
    | filled _ =>
      have hgains := h.gains fit
      have hsections : ((t.prepared s).fill s).sections.Perm (s :: t.sections) := by
        rw [← (h.prepared_cases s).1]
        exact perm_sections_fill fit.free
      have hperm : (((t.prepared s).fill s).sections ++ rest).Perm (t.sections ++ s :: rest) :=
        (hsections.append_right rest).trans List.perm_middle.symm
      have hcomplete : ((t.prepared s).fill s).isComplete =
          decide (t.present + 0 = id.last.toNat) := by
        have hslots := hnext.valid.length_slots
        rw [hgains.identity, hid, Option.elim_some] at hslots
        rw [Bool.eq_iff_iff]
        simp [isComplete, hgains.present, hslots]
      obtain ⟨u, hrest, hu, hlast⟩ := ih hnext (.inr (hid ▸ hgains.identity))
        (fun u hu ↦ same u (List.mem_cons_of_mem _ hu)) ((hperm.map _).nodup_iff.2 distinct)
      refine ⟨u, (perform_add hadd hrest).trans ?_, hu, hlast.trans hperm⟩
      rw [List.length_cons, List.range_succ_eq_map, List.map_cons, List.map_map, hcomplete,
        hgains.present]
      simp [Function.comp_def, Nat.add_assoc, Nat.add_comm 1]

theorem Sound.present_le (h : t.Sound) (known : t.identity = some id) :
    t.present ≤ id.last.toNat + 1 := by
  have hlength := h.valid.length_slots
  rw [known, Option.elim_some] at hlength
  rw [h.valid.present, length_sections, ← hlength]
  exact List.countP_le_length

/-- Sections of one identity and of different numbers are all taken, in whatever order they are
added, and make one and the same table. The last addition completes it if there is a section of each
number, and no other addition does. -/
theorem same_in_any_order {sections : List Section} (id : Identity)
    (valid : ∀ s ∈ sections, s.isValid = true) (same : ∀ s ∈ sections, Identity.ofSection s = id)
    (distinct : (sections.map (·.number)).Nodup) :
    ∃ t : Table, t.sections.Perm sections ∧ t.present = sections.length ∧
      ∀ order : List Section, order.Perm sections →
        empty.perform (order.map .add) = .ok (t, (List.range sections.length).map fun i ↦
          .ok (decide (i + 1 = sections.length ∧ sections.length = id.last.toNat + 1))) := by
  have hall : ∀ s ∈ sections, s.defect = none ∧ Identity.ofSection s = id :=
    fun s hs ↦ ⟨Option.isNone_iff_eq_none.1 (valid s hs), same s hs⟩
  obtain ⟨t, -, ht, hsections⟩ := sound_empty.perform_distinct (.inl rfl) hall distinct
  have hpresent : t.present = sections.length := ht.valid.present.trans hsections.length_eq
  refine ⟨t, hsections, hpresent, fun order perm ↦ ?_⟩
  obtain ⟨u, hrun, hu, horder⟩ := sound_empty.perform_distinct (.inl rfl)
    (fun s hs ↦ hall s (perm.mem_iff.1 hs)) ((perm.map _).nodup_iff.2 distinct)
  obtain rfl := hu.eq_of_perm ht (horder.trans (perm.trans hsections.symm))
  rw [hrun, perm.length_eq]
  congr 2
  apply List.map_congr_left
  intro i hi
  rw [List.mem_range] at hi
  have hle : sections.length ≤ id.last.toNat + 1 := by
    obtain ⟨s, hs⟩ := List.exists_mem_of_length_pos (Nat.lt_of_le_of_lt (Nat.zero_le i) hi)
    have hknown := ht.identity_eq_of_mem (hsections.mem_iff.2 hs)
    rw [same s hs] at hknown
    exact hpresent ▸ ht.present_le hknown
  have hempty : empty.present = 0 := rfl
  congr 1
  rw [decide_eq_decide, hempty]
  omega

theorem same_in_any_order_halves : ∃ t : Table,
    empty.perform [.add (half 0), .add (half 1)] = .ok (t, [.ok false, .ok true]) ∧
    empty.perform [.add (half 1), .add (half 0)] = .ok (t, [.ok false, .ok true]) := by
  have hvalid : ∀ s ∈ [half 0, half 1], s.isValid = true := by decide +kernel
  have hsame : ∀ s ∈ [half 0, half 1], Identity.ofSection s = .ofSection (half 0) := by
    decide +kernel
  obtain ⟨t, -, -, hany⟩ := same_in_any_order _ hvalid hsame (by decide +kernel)
  exact ⟨t, hany _ (.refl _), hany [half 1, half 0] (.swap ..)⟩

end TransportStream.Table
