import TransportStream.Demux.TableAssembly
import TransportStream.Proofs.Table.Contents

namespace TransportStream.TableAssembly

variable {a : TableAssembly} {s : Section} {pid : Pid} {key : TableKey}

def base (a : TableAssembly) (s : Section) : Table :=
  if a.table.identity = some (.ofSection s) then a.table else .reserve (.ofSection s)

def outcome (t : Table) : TableAssembly × Option Table :=
  ({ table := t, delivered := t.isComplete }, if t.isComplete then some t else none)

theorem outcome_of_complete {t : Table} (h : t.isComplete = true) :
    outcome t = (⟨t, true⟩, some t) := by
  rw [outcome, h, if_pos rfl]

theorem outcome_of_incomplete {t : Table} (h : t.isComplete = false) :
    outcome t = (⟨t, false⟩, none) := by
  rw [outcome, h, if_neg Bool.false_ne_true]

def received (a : TableAssembly) (s : Section) : TableAssembly × Option Table :=
  if a.delivered && a.sameVersion s then (a, none)
  else if ((a.base s).get? s.number).isSome then (a, none)
  else outcome ((a.base s).fill s)

structure Holds (a : TableAssembly) (pid : Pid) (key : TableKey) : Prop where
  valid : a.table.Valid
  present : 0 < a.table.present
  identity : ∃ id, a.table.identity = some id ∧ id.pid = pid ∧ id.key = key
  delivered : a.delivered = a.table.isComplete

theorem Holds.isEmpty (h : a.Holds pid key) : a.table.isEmpty = false := by
  have hp := h.present
  simp only [Table.isEmpty, beq_eq_false_iff_ne]
  omega

theorem Holds.identity_eq_iff (h : a.Holds s.pid s.key) :
    a.table.identity = some (.ofSection s) ↔ a.sameVersion s = true ∧ a.sameShape s = true := by
  obtain ⟨id, hid, hpid, hkey⟩ := h.identity
  have hslots := h.valid.length_slots
  rw [hid, Option.elim_some] at hslots
  obtain ⟨hid₁, hid₂⟩ := TableKey.mk.inj hkey
  obtain ⟨pid, tableId, extension, version, applicability, last⟩ := id
  subst hpid hid₁ hid₂
  simp [hid, sameVersion, sameShape, Table.version, Table.applicability, Table.expectedCount,
    hslots, Table.Identity.ofSection, and_assoc, UInt8.toNat_inj]

theorem value_checkShape (watch : Bool) :
    (a.checkShape pid watch s).value =
      .ok (if a.isReshapedBy s && watch then [.invalidVersion] else []) := by
  unfold checkShape
  cases a.isReshapedBy s with
  | true => cases watch <;> rfl
  | false => rfl

theorem value_renew : (a.renew pid s).value = .ok (if a.isReplacedBy s then {} else a) := by
  unfold renew
  cases a.isReplacedBy s <;> rfl

theorem value_checkRepetition (watch : Bool) (known : Section) :
    (checkRepetition pid watch known s).value =
      .ok (if watch && !known.sameContent s then [.invalidVersion] else []) := by
  unfold checkRepetition
  cases watch && !known.sameContent s <;> rfl

theorem value_collect (pid : Pid) {t : Table} (added : a.table.add s = t.place s)
    (free : t.slots[s.number.toNat]? = some none) (pending : a.delivered = false) :
    (a.collect pid s).value = .ok (outcome (t.fill s)) := by
  have hadd := added.trans (Table.place_eq free)
  unfold collect
  rw [Traced.value_liftM_bind_of_ok hadd]
  dsimp only
  rw [pending]
  cases hc : (t.fill s).isComplete with
  | true =>
    rw [outcome_of_complete hc]
    rfl
  | false =>
    rw [outcome_of_incomplete hc]
    rfl

theorem value_receive_of_not_replaced (pid : Pid) (watch : Bool) (h : a.isReplacedBy s = false)
    (hs : a.isReshapedBy s = false) :
    (a.receive pid watch s).value =
      match a.table.get? s.number with
      | some known =>
        .ok (a, if watch && !known.sameContent s then [.invalidVersion] else [], none)
      | none => (a.collect pid s).value.map fun r ↦ (r.1, [], r.2) := by
  unfold receive
  rw [Traced.value_bind_of_ok (value_checkShape watch), hs, Bool.false_and, Bool.false_and,
    if_neg Bool.false_ne_true, Traced.value_bind_of_ok value_renew, h,
    if_neg Bool.false_ne_true]
  cases a.table.get? s.number with
  | some known => exact Traced.value_bind_of_ok (value_checkRepetition watch known)
  | none =>
    dsimp only
    rw [Traced.value_bind]
    cases (a.collect pid s).value <;> rfl

theorem value_receive_of_replaced (pid : Pid) (watch : Bool) (h : a.isReplacedBy s = true)
    (hd : (a.isReshapedBy s && a.delivered) = false) :
    (a.receive pid watch s).value =
      (collect {} pid s).value.map fun r ↦
        (r.1, if a.isReshapedBy s && watch then [.invalidVersion] else [], r.2) := by
  unfold receive
  rw [Traced.value_bind_of_ok (value_checkShape watch), hd, if_neg Bool.false_ne_true,
    Traced.value_bind_of_ok value_renew, h, if_pos rfl]
  have hnone : Table.get? ({} : TableAssembly).table s.number = none := rfl
  dsimp only
  rw [hnone]
  dsimp only
  rw [Traced.value_bind]
  cases (collect {} pid s).value <;> rfl

theorem value_receive_of_delivered (pid : Pid) (watch : Bool) (h : a.isReshapedBy s = true)
    (hd : a.delivered = true) :
    (a.receive pid watch s).value =
      .ok (a, if watch then [.invalidVersion] else [], none) := by
  unfold receive
  rw [Traced.value_bind_of_ok (value_checkShape watch), h, hd]
  rfl

def AtMostOneChange (problems : List Problem) : Prop :=
  problems = [] ∨ problems = [.invalidVersion]

theorem atMostOneChange_ite (p : Prop) [Decidable p] :
    AtMostOneChange (if p then [.invalidVersion] else []) := by
  split
  · exact .inr rfl
  · exact .inl rfl

/-- An assembly that a section finds: a new one, or one that earlier sections left. -/
def Ready (a : TableAssembly) (pid : Pid) (key : TableKey) : Prop :=
  a = {} ∨ a.Holds pid key

theorem exists_receive_of_same (h : a.Holds s.pid s.key) (valid : s.defect = none)
    (same : a.table.identity = some (.ofSection s)) (watch : Bool) :
    ∃ problems, AtMostOneChange problems ∧ (a.receive s.pid watch s).value =
      .ok ((a.received s).1, problems, (a.received s).2) := by
  obtain ⟨hv, hs⟩ := h.identity_eq_iff.1 same
  have hbase : a.base s = a.table := if_pos same
  have hreplaced : a.isReplacedBy s = false := by simp [isReplacedBy, hv, hs]
  have hreshaped : a.isReshapedBy s = false := by simp [isReshapedBy, hs]
  have hvalue := value_receive_of_not_replaced s.pid watch hreplaced hreshaped
  cases hg : a.table.get? s.number with
  | some known =>
    have hr : a.received s = (a, none) := by
      unfold received
      rw [hbase, hg]
      simp
    rw [hg] at hvalue
    rw [hr]
    exact ⟨_, atMostOneChange_ite _, hvalue⟩
  | none =>
    have hlt := Table.number_lt_length h.valid valid same
    have hfree := (Table.get?_eq_none_iff hlt).1 hg
    have hpending : a.delivered = false := h.delivered.trans (h.valid.isComplete_eq_false hfree)
    have hcollect := value_collect s.pid (Table.add_of_identity valid same) hfree hpending
    have hr : a.received s = outcome (a.table.fill s) := by
      unfold received
      rw [hbase, hg, hpending]
      rfl
    rw [hg, hcollect] at hvalue
    rw [hr]
    exact ⟨[], .inl rfl, hvalue⟩

theorem received_of_other (other : a.table.identity ≠ some (.ofSection s))
    (pending : (a.delivered && a.sameVersion s) = false) :
    a.received s = outcome (.single s) := by
  have hbase : a.base s = .reserve (.ofSection s) := if_neg other
  have hget : (Table.reserve (.ofSection s)).get? s.number = none := Table.get?_reserve _ _
  unfold received
  rw [hbase, hget, pending]
  rfl

theorem exists_receive_of_other (h : a.Ready s.pid s.key) (valid : s.defect = none)
    (other : a.table.identity ≠ some (.ofSection s))
    (pending : (a.delivered && a.sameVersion s) = false) (watch : Bool) :
    ∃ problems, AtMostOneChange problems ∧ (a.receive s.pid watch s).value =
      .ok ((a.received s).1, problems, (a.received s).2) := by
  have hfree := Table.slots_reserve_free valid
  have hcollect := value_collect (a := {}) s.pid (Table.add_empty valid) hfree rfl
  rw [received_of_other other pending]
  rcases h with rfl | h
  · have hvalue := value_receive_of_not_replaced (a := {}) (s := s) s.pid watch rfl rfl
    exact ⟨[], .inl rfl, hvalue.trans (congrArg (Except.map _) hcollect)⟩
  · have hnot : (a.sameVersion s && a.sameShape s) = false := by
      rw [Bool.eq_false_iff]
      intro hs
      exact other (h.identity_eq_iff.2 (Bool.and_eq_true_iff.1 hs))
    have hreplaced : a.isReplacedBy s = true := by simp [isReplacedBy, h.isEmpty, hnot]
    have hreshaped : (a.isReshapedBy s && a.delivered) = false := by
      revert pending
      unfold isReshapedBy
      cases a.delivered <;> cases a.sameVersion s <;> simp
    have hvalue := value_receive_of_replaced s.pid watch hreplaced hreshaped
    exact ⟨_, atMostOneChange_ite _, hvalue.trans (congrArg (Except.map _) hcollect)⟩

/-- A valid section of an assembly's substream and key is always received. -/
theorem Ready.exists_receive (h : a.Ready s.pid s.key) (valid : s.defect = none) (watch : Bool) :
    ∃ problems, AtMostOneChange problems ∧ (a.receive s.pid watch s).value =
      .ok ((a.received s).1, problems, (a.received s).2) := by
  by_cases same : a.table.identity = some (.ofSection s)
  · rcases h with rfl | h
    · cases same
    · exact exists_receive_of_same h valid same watch
  · cases pending : a.delivered && a.sameVersion s with
    | false => exact exists_receive_of_other h valid same pending watch
    | true =>
      -- The version has been delivered, and the section changes the number of its sections.
      rcases h with rfl | h
      · cases pending
      · obtain ⟨hd, hv⟩ := Bool.and_eq_true_iff.1 pending
        have hs : a.sameShape s = false := by
          rw [Bool.eq_false_iff]
          intro hs
          exact same (h.identity_eq_iff.2 ⟨hv, hs⟩)
        have hreshaped : a.isReshapedBy s = true := by simp [isReshapedBy, h.isEmpty, hv, hs]
        have hr : a.received s = (a, none) := if_pos pending
        rw [hr]
        exact ⟨_, atMostOneChange_ite (watch = true),
          value_receive_of_delivered s.pid watch hreshaped hd⟩

theorem Ready.base (h : a.Ready pid key) (s : Section) :
    (a.base s).Valid ∧ (a.base s).identity = some (.ofSection s) := by
  unfold TableAssembly.base
  split
  · next same =>
    rcases h with rfl | h
    · cases same
    · exact ⟨h.valid, same⟩
  · exact ⟨Table.valid_reserve _, rfl⟩

theorem Ready.received_cases (h : a.Ready s.pid s.key) (valid : s.defect = none) :
    a.received s = (a, none) ∧ a.Holds s.pid s.key ∨
      (a.base s).slots[s.number.toNat]? = some none ∧
      a.received s = outcome ((a.base s).fill s) := by
  unfold TableAssembly.received
  split
  · next hd =>
    rcases h with rfl | h
    · cases hd
    · exact .inl ⟨rfl, h⟩
  · cases hg : (a.base s).get? s.number with
    | some known =>
      left
      refine ⟨rfl, ?_⟩
      rcases h with rfl | h
      · cases (Table.get?_reserve (.ofSection s) s.number).symm.trans hg
      · exact h
    | none =>
      right
      obtain ⟨hv, hid⟩ := h.base s
      have hlt := Table.number_lt_length hv valid hid
      exact ⟨(Table.get?_eq_none_iff hlt).1 hg, rfl⟩

theorem Ready.received (h : a.Ready s.pid s.key) (valid : s.defect = none) :
    (a.received s).1.Holds s.pid s.key := by
  rcases h.received_cases valid with ⟨hr, hold⟩ | ⟨hfree, hr⟩
  · rw [hr]
    exact hold
  · obtain ⟨hv, hid⟩ := h.base s
    rw [hr]
    exact ⟨hv.fill valid hid hfree, Nat.succ_pos _, ⟨_, hid, rfl, rfl⟩, rfl⟩

theorem Ready.mem_sections_received (h : a.Ready s.pid s.key) (valid : s.defect = none)
    {u : Section} (hu : u ∈ (a.received s).1.table.sections) : u = s ∨ u ∈ a.table.sections := by
  rcases h.received_cases valid with ⟨hr, -⟩ | ⟨-, hr⟩
  · rw [hr] at hu
    exact .inr hu
  · rw [hr] at hu
    rcases Table.mem_sections_fill hu with rfl | hu
    · exact .inl rfl
    · unfold TableAssembly.base at hu
      split at hu
      · exact .inr hu
      · simp [Table.reserve, Table.sections] at hu

theorem Ready.eq_of_received (h : a.Ready s.pid s.key) (valid : s.defect = none) {t : Table}
    (ht : (a.received s).2 = some t) :
    (a.received s).1 = { table := t, delivered := true } ∧ t.isComplete = true ∧
      t.identity = some (.ofSection s) := by
  rcases h.received_cases valid with ⟨hr, -⟩ | ⟨-, hr⟩
  · rw [hr] at ht
    cases ht
  · rw [hr] at ht ⊢
    cases hc : ((a.base s).fill s).isComplete with
    | true =>
      rw [outcome_of_complete hc] at ht ⊢
      obtain rfl := Option.some.inj ht
      exact ⟨rfl, hc, (h.base s).2⟩
    | false =>
      rw [outcome_of_incomplete hc] at ht
      cases ht

end TransportStream.TableAssembly
