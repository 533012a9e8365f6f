import TransportStream.Proofs.Section.Validity
import TransportStream.Table

namespace TransportStream.Table

def Identity.key (id : Identity) : TableKey := ⟨id.tableId, id.extension⟩

theorem Identity.sameTable_self (id : Identity) : id.sameTable id = true := by
  simp [sameTable]

variable {t : Table} {s : Section}

def fill (t : Table) (s : Section) : Table :=
  { t with slots := t.slots.set s.number.toNat (some s), present := t.present + 1 }

theorem get?_eq_none_iff (h : s.number.toNat < t.slots.length) :
    t.get? s.number = none ↔ t.slots[s.number.toNat]? = some none := by
  rw [get?, List.getElem?_eq_getElem h]
  cases t.slots[s.number.toNat] <;> simp

theorem get?_fill (h : s.number.toNat < t.slots.length) (number : UInt8) :
    (t.fill s).get? number = if s.number = number then some s else t.get? number := by
  rw [get?, fill, List.getElem?_set]
  by_cases hn : s.number = number
  · subst hn
    simp [h]
  · rw [if_neg fun he ↦ hn (UInt8.toNat_inj.1 he), if_neg hn, get?]

theorem get?_reserve (id : Identity) (number : UInt8) : (reserve id).get? number = none := by
  rw [get?, reserve, List.getElem?_replicate]
  split <;> rfl

theorem sections_reserve (id : Identity) : (reserve id).sections = [] := by
  apply List.filterMap_eq_nil_iff.2
  intro o ho
  exact List.eq_of_mem_replicate ho

theorem place_eq (free : t.slots[s.number.toNat]? = some none) :
    t.place s = .ok (t.fill s, .ok (t.fill s).isComplete) := by
  rw [place, free]
  rfl

theorem add_of_identity (valid : s.defect = none) (known : t.identity = some (.ofSection s)) :
    t.add s = t.place s := by
  simp [add, valid, known, Identity.sameTable_self]

theorem add_empty (valid : s.defect = none) : empty.add s = (reserve (.ofSection s)).place s := by
  simp [add, valid, empty]

structure Valid (t : Table) : Prop where
  present : t.present = t.sections.length
  length_slots : t.slots.length = t.identity.elim 0 (·.last.toNat + 1)
  slot : ∀ i s, t.slots[i]? = some (some s) →
    s.defect = none ∧ s.number.toNat = i ∧ t.identity = some (.ofSection s)

theorem valid_reserve (id : Identity) : (reserve id).Valid where
  present := by
    rw [sections_reserve]
    rfl
  length_slots := by simp [reserve]
  slot := by
    intro i s h
    simp [reserve, List.getElem?_replicate] at h

theorem number_lt_length (h : t.Valid) (valid : s.defect = none)
    (known : t.identity = some (.ofSection s)) : s.number.toNat < t.slots.length := by
  have hn : s.number.toNat ≤ s.last.toNat := UInt8.le_iff_toNat_le.1 (s.number_le_last valid)
  have hl := h.length_slots
  rw [known] at hl
  have hid : (Identity.ofSection s).last = s.last := rfl
  simp only [Option.elim_some, hid] at hl
  omega

theorem length_sections (t : Table) : t.sections.length = t.slots.countP Option.isSome := by
  rw [sections, List.length_filterMap_eq_countP]
  rfl

theorem perm_sections_fill (free : t.slots[s.number.toNat]? = some none) :
    (t.fill s).sections.Perm (s :: t.sections) := by
  obtain ⟨hlt, hnone⟩ := List.getElem?_eq_some_iff.1 free
  have hslots : t.slots =
      t.slots.take s.number.toNat ++ none :: t.slots.drop (s.number.toNat + 1) := by
    rw [← hnone, List.getElem_cons_drop, List.take_append_drop]
  have hfill : (t.fill s).slots =
      t.slots.take s.number.toNat ++ some s :: t.slots.drop (s.number.toNat + 1) := by
    rw [fill, List.set_eq_take_append_cons_drop, if_pos hlt]
  rw [sections, sections, hfill]
  conv => rhs; rw [hslots]
  simp only [List.filterMap_append, List.filterMap_cons, id_eq]
  exact List.perm_middle

theorem length_sections_fill (free : t.slots[s.number.toNat]? = some none) :
    (t.fill s).sections.length = t.sections.length + 1 :=
  (perm_sections_fill free).length_eq

theorem Valid.fill (h : t.Valid) (valid : s.defect = none)
    (known : t.identity = some (.ofSection s)) (free : t.slots[s.number.toNat]? = some none) :
    (t.fill s).Valid where
  present := by
    rw [length_sections_fill free, ← h.present]
    rfl
  length_slots := by
    rw [Table.fill, List.length_set]
    exact h.length_slots
  slot := by
    intro i u hu
    by_cases hi : s.number.toNat = i
    · subst hi
      obtain ⟨hlt, -⟩ := List.getElem?_eq_some_iff.1 free
      have hus : s = u := by simpa [Table.fill, hlt] using hu
      subst hus
      exact ⟨valid, rfl, known⟩
    · rw [Table.fill, List.getElem?_set_ne hi] at hu
      exact h.slot i u hu

theorem Valid.isComplete_iff (h : t.Valid) :
    t.isComplete = true ↔ t.slots ≠ [] ∧ ∀ o ∈ t.slots, o.isSome = true := by
  have hp : t.present = t.slots.countP Option.isSome := h.present.trans t.length_sections
  rw [← List.countP_eq_length, ← List.length_pos_iff]
  simp only [isComplete, Bool.and_eq_true, bne_iff_ne, beq_iff_eq, hp]
  omega

theorem Valid.isComplete_eq_false (h : t.Valid) {i : Nat} (free : t.slots[i]? = some none) :
    t.isComplete = false := by
  rw [Bool.eq_false_iff]
  intro hc
  have hsome := (h.isComplete_iff.1 hc).2 none (List.mem_of_getElem? free)
  cases hsome

theorem Valid.slots_of_isComplete (h : t.Valid) (complete : t.isComplete = true) :
    t.slots = t.sections.map some := by
  have hsome := (h.isComplete_iff.1 complete).2
  rw [sections]
  generalize t.slots = slots at hsome
  induction slots with
  | nil => rfl
  | cons o rest ih =>
    obtain ⟨s, rfl⟩ := Option.isSome_iff_exists.1 (hsome o (List.mem_cons_self ..))
    have hrest := ih fun o ho ↦ hsome o (List.mem_cons_of_mem _ ho)
    simpa using hrest

theorem Valid.numbers_of_isComplete (h : t.Valid) (complete : t.isComplete = true)
    {id : Identity} (known : t.identity = some id) :
    t.sections.map (·.number.toNat) = List.range (id.last.toNat + 1) := by
  have hslots := h.slots_of_isComplete complete
  have hlength := h.length_slots
  rw [known, Option.elim_some] at hlength
  have hsections : t.sections.length = id.last.toNat + 1 := by
    rw [← hlength, hslots, List.length_map]
  apply List.ext_getElem
  · rw [List.length_map, List.length_range, hsections]
  · intro i hi hr
    rw [List.length_map] at hi
    have hslot : t.slots[i]? = some (some t.sections[i]) := by
      rw [hslots, List.getElem?_map, List.getElem?_eq_getElem hi]
      rfl
    rw [List.getElem_map, List.getElem_range]
    exact (h.slot i _ hslot).2.1

theorem Valid.of_mem (h : t.Valid) (hs : s ∈ t.sections) :
    s.defect = none ∧ t.identity = some (.ofSection s) := by
  obtain ⟨o, ho, hos⟩ := List.mem_filterMap.1 hs
  obtain ⟨i, hi, rfl⟩ := List.getElem_of_mem ho
  have hslot : t.slots[i]? = some (some s) := by
    rw [List.getElem?_eq_getElem hi]
    exact congrArg some hos
  exact ⟨(h.slot i s hslot).1, (h.slot i s hslot).2.2⟩

theorem mem_sections_fill {u : Section} (hu : u ∈ (t.fill s).sections) :
    u = s ∨ u ∈ t.sections := by
  obtain ⟨o, ho, hou⟩ := List.mem_filterMap.1 hu
  rcases List.mem_or_eq_of_mem_set ho with ho | rfl
  · exact .inr (List.mem_filterMap.2 ⟨o, ho, hou⟩)
  · exact .inl (Option.some.inj hou).symm

def single (s : Section) : Table := (reserve (.ofSection s)).fill s

theorem slots_reserve_free (valid : s.defect = none) :
    (reserve (.ofSection s)).slots[s.number.toNat]? = some none := by
  have hlt := number_lt_length (valid_reserve (.ofSection s)) valid rfl
  rw [reserve] at hlt ⊢
  rw [List.getElem?_replicate, if_pos (by simpa using hlt)]

theorem sections_single (valid : s.defect = none) : (single s).sections = [s] := by
  have hperm := perm_sections_fill (slots_reserve_free valid)
  rw [sections_reserve] at hperm
  exact hperm.eq_singleton

theorem ofSection_eq (valid : s.defect = none) : ofSection s = .ok (.ok (single s)) := by
  have hp := place_eq (slots_reserve_free valid)
  rw [ofSection, add_empty valid, hp]
  rfl

theorem isComplete_of_isShort (short : s.isLong = false) : (single s).isComplete = true := by
  have hl : s.last = 0 := by rw [Section.last, Section.tableHeader?_of_isShort short]; rfl
  have hid : (Identity.ofSection s).last = 0 := hl
  simp [isComplete, single, fill, reserve, hid]

end TransportStream.Table
