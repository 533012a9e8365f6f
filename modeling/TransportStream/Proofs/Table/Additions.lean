import TransportStream.Proofs.Table.Contents

namespace TransportStream.Table

variable {t u next : Table} {s : Section} {result : Except Rejection Bool}
  {results : List (Except Rejection Bool)} {operations rest : List Operation}

inductive Operation
  | add (s : Section)
  | clear

def perform (t : Table) : List Operation → Except Fault (Table × List (Except Rejection Bool))
  | [] => .ok (t, [])
  | .add s :: rest => do
    let (next, result) ← t.add s
    let (last, results) ← next.perform rest
    return (last, result :: results)
  | .clear :: rest => empty.perform rest

theorem perform_add (added : t.add s = .ok (next, result))
    (performed : next.perform rest = .ok (u, results)) :
    t.perform (.add s :: rest) = .ok (u, result :: results) := by
  rw [perform]
  exact bind_eq_ok_iff.2 ⟨_, added, bind_eq_ok_iff.2 ⟨_, performed, rfl⟩⟩

def Reachable (t : Table) : Prop :=
  ∃ operations results, empty.perform operations = .ok (t, results)

theorem Identity.eq_of_sameTable {a b : Identity} (same : a.sameTable b = true)
    (last : a.last = b.last) : a = b := by
  obtain ⟨pid, tableId, extension, version, applicability, _⟩ := a
  simp only [sameTable, Bool.and_eq_true, beq_iff_eq] at same
  obtain ⟨⟨⟨⟨rfl, rfl⟩, rfl⟩, rfl⟩, rfl⟩ := same
  exact congrArg _ last

def prepared (t : Table) (s : Section) : Table :=
  if t.identity = none then reserve (.ofSection s) else t

structure Admits (t : Table) (s : Section) : Prop where
  valid : s.defect = none
  known : (t.prepared s).identity = some (.ofSection s)
  free : (t.prepared s).slots[s.number.toNat]? = some none

inductive Adds (t : Table) (s : Section) : Table → Except Rejection Bool → Prop
  | refused {rejection : Rejection} (unfit : ¬ t.Admits s) : Adds t s t (.error rejection)
  | filled (fit : t.Admits s) :
      Adds t s ((t.prepared s).fill s) (.ok ((t.prepared s).fill s).isComplete)

structure Sound (t : Table) : Prop where
  valid : t.Valid
  started : t.identity = none ∨ 0 < t.present

theorem sound_empty : empty.Sound where
  valid := ⟨rfl, rfl, nofun⟩
  started := .inl rfl

theorem Sound.valid_prepared (h : t.Sound) (s : Section) : (t.prepared s).Valid := by
  unfold prepared
  split
  · exact valid_reserve _
  · exact h.valid

theorem prepared_of_known {id : Identity} (known : t.identity = some id) (s : Section) :
    t.prepared s = t :=
  if_neg fun unknown ↦ by cases known.symm.trans unknown

theorem exists_add_of_other {id : Identity} (valid : s.defect = none) (hid : t.identity = some id)
    (other : id ≠ .ofSection s) : ∃ rejection, t.add s = .ok (t, .error rejection) := by
  by_cases htable : id.sameTable (.ofSection s) = true
  · have hlast : id.last ≠ (Identity.ofSection s).last :=
      fun last ↦ other (Identity.eq_of_sameTable htable last)
    exact ⟨.otherLast id.last (Identity.ofSection s).last, by simp [add, valid, hid, htable, hlast]⟩
  · exact ⟨.otherTable, by simp [add, valid, hid, htable]⟩

theorem Sound.exists_add_of_known (h : t.Sound) (valid : s.defect = none)
    (known : t.identity = some (.ofSection s)) :
    ∃ next result, t.add s = .ok (next, result) ∧ t.Adds s next result := by
  have hprepared := prepared_of_known known s
  rw [add_of_identity valid known]
  cases hget : t.get? s.number with
  | some earlier =>
    have htaken : t.slots[s.number.toNat]? = some (some earlier) := Option.join_eq_some_iff.1 hget
    refine ⟨t, .error (.occupied s.number), by rw [place, htaken], .refused fun fit ↦ ?_⟩
    cases htaken.symm.trans (hprepared ▸ fit.free)
  | none =>
    have hfree := (get?_eq_none_iff (number_lt_length h.valid valid known)).1 hget
    have hfilled := Adds.filled (t := t) ⟨valid, hprepared.symm ▸ known, hprepared.symm ▸ hfree⟩
    rw [hprepared] at hfilled
    exact ⟨_, _, place_eq hfree, hfilled⟩

theorem Sound.exists_add (h : t.Sound) (s : Section) :
    ∃ next result, t.add s = .ok (next, result) ∧ t.Adds s next result := by
  cases valid : s.defect with
  | some defect =>
    refine ⟨t, .error (.invalidSection defect), by simp [add, valid], .refused fun fit ↦ ?_⟩
    cases valid.symm.trans fit.valid
  | none =>
    cases hid : t.identity with
    | none =>
      have hprepared : t.prepared s = reserve (.ofSection s) := if_pos hid
      have hadd : t.add s = (t.prepared s).place s := by simp [add, valid, hid, hprepared]
      have fit : t.Admits s :=
        ⟨valid, hprepared ▸ rfl, hprepared ▸ slots_reserve_free valid⟩
      exact ⟨_, _, hadd.trans (place_eq fit.free), .filled fit⟩
    | some id =>
      by_cases same : id = .ofSection s
      · subst same
        exact h.exists_add_of_known valid hid
      · obtain ⟨rejection, hadd⟩ := exists_add_of_other valid hid same
        refine ⟨t, _, hadd, .refused fun fit ↦ same ?_⟩
        exact Option.some.inj (hid.symm.trans (prepared_of_known hid s ▸ fit.known))

theorem Sound.of_adds (h : t.Sound) (adds : t.Adds s next result) : next.Sound := by
  cases adds with
  | refused => exact h
  | filled fit =>
    exact ⟨(h.valid_prepared s).fill fit.valid fit.known fit.free, .inr (Nat.succ_pos _)⟩

theorem Sound.exists_perform (h : t.Sound) (operations : List Operation) :
    ∃ u results, t.perform operations = .ok (u, results) ∧ u.Sound := by
  induction operations generalizing t with
  | nil => exact ⟨t, [], rfl, h⟩
  | cons operation rest ih =>
    cases operation with
    | clear => exact ih sound_empty
    | add s =>
      obtain ⟨next, result, hadd, adds⟩ := h.exists_add s
      obtain ⟨u, results, hrest, hu⟩ := ih (h.of_adds adds)
      exact ⟨u, _, perform_add hadd hrest, hu⟩

theorem Reachable.sound (h : t.Reachable) : t.Sound := by
  obtain ⟨operations, results, hrun⟩ := h
  obtain ⟨u, others, hperform, hu⟩ := sound_empty.exists_perform operations
  obtain ⟨rfl, -⟩ := Prod.mk.inj (Except.ok.inj (hrun.symm.trans hperform))
  exact hu

theorem Sound.identity_eq_none_iff (h : t.Sound) : t.identity = none ↔ t.slots = [] := by
  have hlength := h.valid.length_slots
  rw [← List.length_eq_zero_iff]
  cases hid : t.identity with
  | none =>
    rw [hid] at hlength
    exact ⟨fun _ ↦ hlength, fun _ ↦ rfl⟩
  | some id =>
    rw [hid, Option.elim_some] at hlength
    constructor
    · nofun
    · intro hzero
      omega

theorem Sound.slots_eq_nil_iff (h : t.Sound) : t.slots = [] ↔ t.present = 0 := by
  constructor
  · intro hslots
    rw [h.valid.present, sections, hslots]
    rfl
  · intro hzero
    rcases h.started with hid | hpos
    · exact h.identity_eq_none_iff.1 hid
    · omega

theorem Valid.pairwise_number (h : t.Valid) : (t.sections.map (·.number)).Pairwise (· < ·) := by
  rw [List.pairwise_map, sections, List.pairwise_filterMap, List.pairwise_iff_getElem]
  intro i j hi hj hlt a ha b hb
  have hslot {k : Nat} {s : Section} (hk : k < t.slots.length) (hs : t.slots[k] = some s) :
      s.number.toNat = k :=
    (h.slot k s ((List.getElem?_eq_getElem hk).trans (congrArg some hs))).2.1
  rw [UInt8.lt_iff_toNat_lt, hslot hi ha, hslot hj hb]
  exact hlt

/-- Slots, count and identity of a table agree, whatever is done to it: there is no identity and no
slot exactly while there is no section, and then a slot for each number of the identity, with the
count of those that are filled. -/
theorem slots_agree (operations : List Operation) :
    ∃ t results, empty.perform operations = .ok (t, results) ∧
      (t.identity = none ↔ t.slots = []) ∧ (t.slots = [] ↔ t.sections = []) ∧
      (∀ id, t.identity = some id → t.slots.length = id.last.toNat + 1 ∧
        ∀ i s, t.slots[i]? = some (some s) →
          s.isValid = true ∧ s.number.toNat = i ∧ Identity.ofSection s = id) ∧
      t.present = t.slots.countP Option.isSome ∧
      (t.isComplete = true ↔ t.isEmpty = false ∧ none ∉ t.slots) ∧
      (t.sections.map (·.number)).Pairwise (· < ·) := by
  obtain ⟨t, results, hrun, h⟩ := sound_empty.exists_perform operations
  have hcount : t.present = t.slots.countP Option.isSome := h.valid.present.trans t.length_sections
  refine ⟨t, results, hrun, h.identity_eq_none_iff, ?_, fun id known ↦ ⟨?_, ?_⟩, hcount, ?_,
    h.valid.pairwise_number⟩
  · rw [h.slots_eq_nil_iff, h.valid.present, List.length_eq_zero_iff]
  · rw [h.valid.length_slots, known, Option.elim_some]
  · intro i s hslot
    obtain ⟨valid, hnumber, hid⟩ := h.valid.slot i s hslot
    exact ⟨by rw [Section.isValid, valid]; rfl, hnumber, Option.some.inj (hid.symm.trans known)⟩
  · rw [h.valid.isComplete_iff, isEmpty, beq_eq_false_iff_ne, ne_eq,
      h.slots_eq_nil_iff]
    refine and_congr_right fun _ ↦ ⟨fun hall hnone ↦ ?_, fun hnone o ho ↦ ?_⟩
    · cases hall none hnone
    · exact Option.isSome_iff_ne_none.2 fun he ↦ hnone (he ▸ ho)

/-- Whether a section has gone into the free slot of its number, in the table of its identity, and
nothing else has changed. -/
structure Gains (t : Table) (s : Section) (next : Table) : Prop where
  free : t.get? s.number = none
  get?_eq : ∀ number, next.get? number = if number = s.number then some s else t.get? number
  present : next.present = t.present + 1
  identity : next.identity = some (.ofSection s)
  kept : t.identity = none ∨ t.identity = next.identity

theorem Sound.get?_eq_none_of_identity (h : t.Sound) (hid : t.identity = none) (number : UInt8) :
    t.get? number = none := by
  rw [get?, h.identity_eq_none_iff.1 hid]
  rfl

theorem Sound.prepared_cases (h : t.Sound) (s : Section) :
    (t.prepared s).sections = t.sections ∧ (∀ number, (t.prepared s).get? number = t.get? number) ∧
      (t.identity = none ∨ t.identity = (t.prepared s).identity) := by
  unfold prepared
  split
  · next hid =>
    refine ⟨?_, fun number ↦ ?_, .inl hid⟩
    · rw [sections_reserve, sections, h.identity_eq_none_iff.1 hid]
      rfl
    · rw [get?_reserve, h.get?_eq_none_of_identity hid]
  · exact ⟨rfl, fun _ ↦ rfl, .inr rfl⟩

theorem Sound.admits {id : Identity} (h : t.Sound)
    (started : t.identity = none ∨ t.identity = some id) (valid : s.defect = none)
    (same : Identity.ofSection s = id) (free : t.get? s.number = none) : t.Admits s := by
  have hknown : (t.prepared s).identity = some (.ofSection s) := by
    unfold prepared
    rcases started with hid | hid
    · rw [if_pos hid]
      rfl
    · rw [if_neg (by simp [hid]), hid, same]
  refine ⟨valid, hknown, ?_⟩
  rw [← get?_eq_none_iff (number_lt_length (h.valid_prepared s) valid hknown),
    (h.prepared_cases s).2.1]
  exact free

theorem Sound.gains (h : t.Sound) (fit : t.Admits s) : t.Gains s ((t.prepared s).fill s) := by
  obtain ⟨hsections, hget, hkept⟩ := h.prepared_cases s
  obtain ⟨hlt, -⟩ := List.getElem?_eq_some_iff.1 fit.free
  refine ⟨?_, fun number ↦ ?_, ?_, fit.known, hkept⟩
  · rw [← hget]
    exact (get?_eq_none_iff hlt).2 fit.free
  · rw [get?_fill hlt, hget]
    simp only [eq_comm]
  · rw [fill, (h.valid_prepared s).present, hsections, ← h.valid.present]

theorem Sound.not_admits (h : t.Sound) (complete : t.isComplete = true) (s : Section) :
    ¬ t.Admits s := by
  intro fit
  have hfree := fit.free
  have hne : t.slots ≠ [] := (h.valid.isComplete_iff.1 complete).1
  have hknown : t.identity ≠ none := fun hid ↦ hne (h.identity_eq_none_iff.1 hid)
  rw [prepared, if_neg hknown] at hfree
  cases complete.symm.trans (h.valid.isComplete_eq_false hfree)

theorem Sound.perform_of_isComplete (h : t.Sound) (complete : t.isComplete = true)
    (additions : List Section) :
    ∃ results, t.perform (additions.map .add) = .ok (t, results) ∧
      ∀ result ∈ results, ∃ rejection, result = .error rejection := by
  induction additions with
  | nil => exact ⟨[], rfl, nofun⟩
  | cons s rest ih =>
    obtain ⟨results, hrest, hrefused⟩ := ih
    obtain ⟨next, result, hadd, adds⟩ := h.exists_add s
    cases adds with
    | filled fit => exact absurd fit (h.not_admits complete s)
    | @refused rejection _ =>
      refine ⟨_, perform_add hadd hrest, fun result hresult ↦ ?_⟩
      rcases List.mem_cons.1 hresult with rfl | hresult
      · exact ⟨rejection, rfl⟩
      · exact hrefused result hresult

theorem Sound.perform_additions (h : t.Sound) (additions : List Section) :
    ∃ u results, t.perform (additions.map .add) = .ok (u, results) ∧
      ∀ i j : Nat, results[i]? = some (.ok true) → results[j]? = some (.ok true) → i = j := by
  induction additions generalizing t with
  | nil => exact ⟨t, [], rfl, fun i j hi ↦ by simp at hi⟩
  | cons s rest ih =>
    obtain ⟨next, result, hadd, adds⟩ := h.exists_add s
    have hnext := h.of_adds adds
    by_cases completed : result = .ok true
    · -- All that come after the completing one are refused, so it is the only one.
      have complete : next.isComplete = true := by
        subst completed
        generalize hresult : Except.ok true = result at adds
        cases adds with
        | refused => cases hresult
        | filled => exact (Except.ok.inj hresult).symm
      obtain ⟨results, hrest, hrefused⟩ := hnext.perform_of_isComplete complete rest
      refine ⟨next, _, perform_add hadd hrest, ?_⟩
      have hfirst : ∀ i, (result :: results)[i]? = some (.ok true) → i = 0 := by
        intro i hi
        cases i with
        | zero => rfl
        | succ i =>
          obtain ⟨rejection, hr⟩ := hrefused _ (List.mem_of_getElem? hi)
          cases hr
      intro i j hi hj
      rw [hfirst i hi, hfirst j hj]
    · obtain ⟨u, results, hrest, honce⟩ := ih hnext
      refine ⟨u, _, perform_add hadd hrest, fun i j hi hj ↦ ?_⟩
      cases i with
      | zero => exact absurd (Option.some.inj hi) completed
      | succ i =>
        cases j with
        | zero => exact absurd (Option.some.inj hj) completed
        | succ j => exact congrArg (· + 1) (honce i j hi hj)

/-- An addition is refused and leaves the table as it was, or fills the slot of its section and no
other. Of the additions until the table is emptied one at most completes it, and a complete table
refuses all that come after. -/
theorem Reachable.refuses_or_fills (h : t.Reachable) :
    (∀ s, ∃ next result, t.add s = .ok (next, result) ∧
      (∀ rejection, result = .error rejection → next = t) ∧
      ∀ complete, result = .ok complete → t.Gains s next ∧ complete = next.isComplete) ∧
    (∀ additions : List Section, ∃ next results,
      t.perform (additions.map .add) = .ok (next, results) ∧
      (∀ i j : Nat, results[i]? = some (.ok true) → results[j]? = some (.ok true) → i = j)) ∧
    (t.isComplete = true → ∀ additions : List Section, ∃ results,
      t.perform (additions.map .add) = .ok (t, results) ∧
      ∀ result ∈ results, ∃ rejection, result = .error rejection) := by
  refine ⟨fun s ↦ ?_, h.sound.perform_additions, h.sound.perform_of_isComplete⟩
  obtain ⟨next, result, hadd, adds⟩ := h.sound.exists_add s
  refine ⟨next, result, hadd, ?_⟩
  cases adds with
  | refused => exact ⟨fun _ _ ↦ rfl, nofun⟩
  | filled fit =>
    refine ⟨nofun, fun complete hc ↦ ⟨h.sound.gains fit, ?_⟩⟩
    exact (Except.ok.inj hc).symm

def half (number : UInt8) : Section :=
  .ofBytes .ignore [0x42, 0xb0, 9, 0, 1, 0xc1, number, 1, 0, 0, 0, 0] .pat

def halves : Table := (single (half 1)).fill (half 0)

theorem Reachable.refuses_or_fills_halves :
    halves.Reachable ∧ halves.isComplete = true ∧ ∀ s, ∃ rejection,
      halves.perform [.add s] = .ok (halves, [.error rejection]) := by
  have hperform : empty.perform [.add (half 1), .add (half 0)] =
      .ok (halves, [.ok false, .ok true]) := rfl
  have reachable : halves.Reachable := ⟨_, _, hperform⟩
  obtain ⟨hadd, -, hcomplete⟩ := reachable.refuses_or_fills
  refine ⟨reachable, rfl, fun s ↦ ?_⟩
  obtain ⟨results, hrun, hrefused⟩ := hcomplete rfl [s]
  obtain ⟨next, result, hs, -⟩ := hadd s
  obtain ⟨rfl, rfl⟩ := Prod.mk.inj (Except.ok.inj (hrun.symm.trans (perform_add hs rfl)))
  obtain ⟨rejection, rfl⟩ := hrefused result (List.mem_singleton_self _)
  exact ⟨rejection, hrun⟩

end TransportStream.Table
