import TransportStream.Packet.Build
import TransportStream.Proofs.Bitrate.Accepted

namespace TransportStream.BitrateEstimator

variable {e e' : BitrateEstimator} {p : Packet} {pid : Pid} {mark : ClockMark}
  {before packets : List Packet} {window needed : Nat}

theorem feedAll_append (e : BitrateEstimator) (xs ys : List Packet) :
    e.feedAll (xs ++ ys) = e.feedAll xs >>= (·.feedAll ys) := by
  induction xs generalizing e with
  | nil => exact (pure_bind e fun e' ↦ e'.feedAll ys).symm
  | cons p xs ih =>
    rw [List.cons_append, feedAll, feedAll, bind_assoc]
    exact congrArg _ (funext ih)

theorem feedAll_singleton (e : BitrateEstimator) (p : Packet) : e.feedAll [p] = e.feed p := by
  show e.feed p >>= pure = e.feed p
  exact bind_pure _

theorem value_feedAll_append_singleton (e : BitrateEstimator) (packets : List Packet)
    (p : Packet) : (e.feedAll (packets ++ [p])).value =
      (e.feedAll packets).value >>= fun e' ↦ (e'.feed p).value := by
  rw [feedAll_append, Traced.value_bind]
  exact congrArg _ (funext fun e' ↦ congrArg Traced.value (feedAll_singleton e' p))

theorem neverBehind_append_singleton :
    NeverBehind (packets ++ [p]) ↔ NeverBehind packets ∧ ¬ FallsBehind packets p := by
  constructor
  · intro h
    constructor
    · intro i q hq
      have hi : i < packets.length := (List.getElem?_eq_some_iff.1 hq).1
      have hnot := h i q (by rw [List.getElem?_append_left hi, hq])
      rwa [List.take_append_of_le_length (Nat.le_of_lt hi)] at hnot
    · have hnot := h packets.length p List.getElem?_concat_length
      rwa [List.take_left] at hnot
  · rintro ⟨h, hp⟩ i q hq
    rcases getElem?_append_singleton_eq_some hq with hq | ⟨rfl, rfl⟩
    · have hi := (List.getElem?_eq_some_iff.1 hq).1
      rw [List.take_append_of_le_length (Nat.le_of_lt hi)]
      exact h i q hq
    · rwa [List.take_left]

theorem window_parted (e : BitrateEstimator) (p : Packet) :
    (e.parted p).window = e.window ∧ (e.parted p).needed = e.needed ∧
      (e.parted p).packetCount = e.packetCount := by
  unfold parted
  split <;> exact ⟨rfl, rfl, rfl⟩

theorem Tallied.eq_of_addInterval (h : e.Tallied) {i : ClockInterval}
    (added : (e.addInterval i).value = .ok e') : e' = e.extended i := by
  obtain ⟨kept, hevict, hkept⟩ := evict_eq h
  unfold addInterval at added
  rw [Traced.value_liftM_bind_of_ok hevict, Traced.value_bind_of_ok (Traced.value_note _)] at added
  obtain ⟨packets, hpackets, added⟩ := Traced.value_bind_eq_ok_iff.1 added
  obtain ⟨ticks, hticks, added⟩ := Traced.value_bind_eq_ok_iff.1 added
  rw [Traced.value_liftM] at hpackets hticks
  obtain ⟨-, rfl⟩ := fit_eq_ok_iff.1 hpackets
  obtain ⟨-, rfl⟩ := fit_eq_ok_iff.1 hticks
  obtain rfl := Except.ok.inj added
  rw [BitrateEstimator.extended, ← hkept, tally_append, tally_append]
  rfl

theorem Tallied.eq_of_observe (h : e.Tallied) (hm : mark.index < e.packetCount)
    (observed : (e.observe pid mark).value = .ok e') : e' = e.noted pid mark := by
  unfold observe at observed
  unfold BitrateEstimator.noted
  cases hmark : e.marks.get? pid with
  | none =>
    rw [hmark] at observed
    exact (Except.ok.inj observed).symm
  | some previous =>
    rw [hmark] at observed
    obtain ⟨ticks, hticks, observed⟩ := Traced.value_bind_eq_ok_iff.1 observed
    rw [Traced.value_liftM, elapsed_eq] at hticks
    split at hticks
    · obtain rfl := Except.ok.inj hticks
      dsimp only
      split at observed
      · next ignored =>
        rw [if_pos ignored]
        exact (Except.ok.inj observed).symm
      · next kept =>
        obtain ⟨packets, hpackets, observed⟩ := Traced.value_bind_eq_ok_iff.1 observed
        rw [Traced.value_liftM] at hpackets
        obtain ⟨-, rfl⟩ := minus_eq_ok_iff.1 hpackets
        rw [if_neg kept]
        exact (h.marked hm).eq_of_addInterval observed
    · cases hticks

theorem Tallied.eq_of_feed (h : e.Tallied) (fed : (e.feed p).value = .ok e') : e' = e.next p := by
  rw [value_feed] at fed
  obtain ⟨n, hn, fed⟩ := bind_eq_ok_iff.1 fed
  obtain ⟨-, rfl⟩ := fit_eq_ok_iff.1 hn
  unfold BitrateEstimator.next
  cases hreading : p.reading? with
  | none =>
    rw [hreading] at fed
    exact (Except.ok.inj fed).symm
  | some c =>
    rw [hreading] at fed
    refine h.counted.parted.eq_of_observe ?_ fed
    rw [(window_parted _ p).2.2]
    exact Nat.lt_succ_self _

theorem window_noted (e : BitrateEstimator) (pid : Pid) (mark : ClockMark) :
    (e.noted pid mark).window = e.window ∧ (e.noted pid mark).needed = e.needed ∧
      (e.noted pid mark).packetCount = e.packetCount := by
  unfold noted
  dsimp only
  split
  · exact ⟨rfl, rfl, rfl⟩
  · split <;> exact ⟨rfl, rfl, rfl⟩

theorem window_next (e : BitrateEstimator) (p : Packet) :
    (e.next p).window = e.window ∧ (e.next p).needed = e.needed ∧
      (e.next p).packetCount = e.packetCount + 1 := by
  have hparted := window_parted { e with packetCount := e.packetCount + 1 } p
  unfold next
  dsimp only
  split
  · exact hparted
  · rw [(window_noted _ _ _).1, (window_noted _ _ _).2.1, (window_noted _ _ _).2.2]
    exact hparted

theorem marks_noted (e : BitrateEstimator) (pid : Pid) (mark : ClockMark) :
    (e.noted pid mark).marks = e.marks.insert pid mark := by
  unfold noted
  dsimp only
  split
  · rfl
  · split <;> rfl

theorem get?_marks_next (e : BitrateEstimator) (p : Packet) (q : Pid) :
    (e.next p).marks.get? q =
      if p.pid = q then
        match p.reading? with
        | some c => some ⟨c.ticks, e.packetCount⟩
        | none => if p.breakSignalled then none else e.marks.get? q
      else e.marks.get? q := by
  have hparted := get?_marks_parted { e with packetCount := e.packetCount + 1 } p q
  unfold next
  cases p.reading? with
  | none =>
    dsimp only
    rw [hparted]
    by_cases hq : p.pid = q
    · simp [hq]
    · simp [hq, Ne.symm hq]
  | some c =>
    dsimp only
    rw [marks_noted, FiniteMap.get?_insert, hparted]
    by_cases hq : p.pid = q
    · simp [hq]
    · simp [hq, Ne.symm hq]

theorem intervals_parted (e : BitrateEstimator) (p : Packet) :
    (e.parted p).intervals = e.intervals := by
  unfold parted
  split <;> rfl

theorem intervals_noted (e : BitrateEstimator) (pid : Pid) (mark : ClockMark) :
    (e.noted pid mark).intervals =
      ((e.marks.get? pid).bind (intervalBetween? · mark)).elim e.intervals e.latest := by
  unfold noted
  cases e.marks.get? pid with
  | none => rfl
  | some previous =>
    dsimp only [Option.bind_some]
    unfold intervalBetween?
    split <;> rfl

theorem latest_eq_rtake (e : BitrateEstimator) (i : ClockInterval) :
    e.latest i = (e.intervals ++ [i]).rtake e.window := by
  rw [latest, List.rtake, List.length_append, List.length_singleton]

theorem intervals_next (e : BitrateEstimator) (p : Packet) : (e.next p).intervals =
    (intervalTo? (e.marks.get? p.pid) e.packetCount p).elim e.intervals e.latest := by
  have hsame := intervals_parted { e with packetCount := e.packetCount + 1 } p
  have hmarks := get?_marks_parted { e with packetCount := e.packetCount + 1 } p p.pid
  have hlatest (i : ClockInterval) :
      ({ e with packetCount := e.packetCount + 1 }.parted p).latest i = e.latest i := by
    rw [latest_eq_rtake, latest_eq_rtake, hsame, (window_parted _ p).1]
  unfold BitrateEstimator.next intervalTo?
  cases p.reading? with
  | none => cases p.breakSignalled <;> exact hsame
  | some c =>
    dsimp only [Option.bind_some]
    rw [intervals_noted, hmarks]
    -- After a break the estimator has no reading to compare with.
    cases p.breakSignalled with
    | true =>
      rw [if_pos ⟨rfl, rfl⟩]
      exact hsame
    | false =>
      rw [if_neg (by simp), if_neg (by simp), hsame]
      exact congrArg _ (funext hlatest)

theorem rtake_rtake_append {α : Type} (xs : List α) (x : α) (n : Nat) :
    (xs.rtake n ++ [x]).rtake n = (xs ++ [x]).rtake n := by
  cases n with
  | zero => rw [List.rtake_zero, List.rtake_zero]
  | succ n =>
    rw [List.rtake_concat_succ, List.rtake_concat_succ]
    congr 1
    rw [List.rtake, List.rtake, List.rtake, List.drop_drop, List.length_drop]
    congr 1
    omega

structure Follows (window needed : Nat) (e : BitrateEstimator) (before : List Packet) : Prop where
  tallied : e.Tallied
  window_eq : e.window = window
  needed_eq : e.needed = max needed 1
  packetCount : e.packetCount = before.length
  marks : ∀ pid, e.marks.get? pid = lastMark? pid before
  intervals : e.intervals = (accepted before).rtake window

theorem follows_empty (hwindow : 0 < window) :
    Follows window needed { window, needed := max needed 1 } [] where
  tallied := tallied_empty hwindow
  window_eq := rfl
  needed_eq := rfl
  packetCount := rfl
  marks _ := rfl
  intervals := (List.rtake_nil window).symm

theorem follows_standard : Follows 256 16 standard [] := follows_empty (by decide)

theorem Follows.next (h : Follows window needed e before) (p : Packet) :
    Follows window needed (e.next p) (before ++ [p]) where
  tallied := h.tallied.next
  window_eq := (window_next e p).1.trans h.window_eq
  needed_eq := (window_next e p).2.1.trans h.needed_eq
  packetCount := by
    rw [(window_next e p).2.2, h.packetCount, List.length_append, List.length_singleton]
  marks pid := by
    rw [get?_marks_next, h.packetCount, h.marks]
    exact (lastMark?_append_singleton pid before p).symm
  intervals := by
    rw [intervals_next, accepted_append_singleton, h.marks, h.packetCount]
    cases intervalTo? (lastMark? p.pid before) before.length p with
    | none => exact h.intervals.trans (by rw [Option.toList_none, List.append_nil])
    | some i =>
      show e.latest i = _
      rw [latest_eq_rtake, h.window_eq, h.intervals, rtake_rtake_append, Option.toList_some]

theorem Follows.fallsBehind_iff (h : Follows window needed e before) {c : ClockReference}
    (hr : p.reading? = some c) : FallsBehind before p ↔ ∃ previous,
      ({ e with packetCount := e.packetCount + 1 }.parted p).marks.get? p.pid = some previous ∧
      c.ticks + ClockReference.wrap < previous.ticks := by
  rw [get?_marks_parted]
  constructor
  · rintro ⟨hb, earlier, later, hearlier, hlater, hlt⟩
    rw [lastTicks?_eq] at hearlier
    obtain ⟨previous, hprevious, rfl⟩ := Option.map_eq_some_iff.1 hearlier
    obtain rfl : c = later := Option.some.inj (hr.symm.trans hlater)
    refine ⟨previous, ?_, hlt⟩
    rw [if_neg (by simp [hb])]
    exact (h.marks _).trans hprevious
  · rintro ⟨previous, hprevious, hlt⟩
    split at hprevious
    · cases hprevious
    · next hb =>
      refine ⟨Bool.eq_false_iff.2 fun hb' ↦ hb ⟨hb', rfl⟩, previous.ticks, c, ?_, hr, hlt⟩
      rw [lastTicks?_eq, ← h.marks, hprevious]
      rfl

theorem Follows.totals_lt (h : Follows window needed e before) (fits : Fits window before) :
    e.totalPackets < wordLimit ∧ e.totalTicks < wordLimit := by
  have htotals := fits.2 before.length
  rw [List.take_length, ← h.intervals] at htotals
  rwa [h.tallied.packets, h.tallied.ticks]

theorem Follows.value_feed (h : Follows window needed e before)
    (fits : Fits window (before ++ [p])) :
    (FallsBehind before p → (e.feed p).value = .error .overflow) ∧
    (¬ FallsBehind before p → (e.feed p).value = .ok (e.next p)) := by
  let ready := { e with packetCount := e.packetCount + 1 }.parted p
  have htallied : ready.Tallied := h.tallied.counted.parted
  have hcount : ready.packetCount = e.packetCount + 1 := (window_parted _ p).2.2
  have hfit : fit wordLimit (e.packetCount + 1) = .ok (e.packetCount + 1) := by
    have hlength := fits.1
    rw [List.length_append, List.length_singleton, ← h.packetCount] at hlength
    exact fit_eq_ok_iff.2 ⟨hlength, rfl⟩
  cases hr : p.reading? with
  | none =>
    have hvalue : (e.feed p).value = .ok ready := by
      rw [BitrateEstimator.value_feed, hfit, hr]
      rfl
    refine ⟨?_, fun _ ↦ ?_⟩
    · rintro ⟨-, _, later, -, hlater, -⟩
      rw [hr] at hlater
      cases hlater
    · rw [hvalue, BitrateEstimator.next, hr]
  | some c =>
    have hvalue : (e.feed p).value =
        (ready.observe p.pid ⟨c.ticks, e.packetCount⟩).value := by
      rw [BitrateEstimator.value_feed, hfit, hr]
      rfl
    have hnext : e.next p = ready.noted p.pid ⟨c.ticks, e.packetCount⟩ := by
      rw [BitrateEstimator.next, hr]
    obtain ⟨hpackets, hticks⟩ := (h.next p).totals_lt fits
    rw [hnext] at hpackets hticks
    have hobserve := htallied.value_observe hcount.symm hpackets hticks
    rw [hvalue, hnext, hobserve]
    have hbehind := h.fallsBehind_iff hr
    exact ⟨fun hp ↦ if_pos (hbehind.1 hp), fun hp ↦ if_neg fun hb ↦ hp (hbehind.2 hb)⟩

theorem Follows.feedAll (h : Follows window needed e before)
    (fed : (e.feedAll packets).value = .ok e') : Follows window needed e' (before ++ packets) := by
  induction packets generalizing e before with
  | nil =>
    cases fed
    rwa [List.append_nil]
  | cons p packets ih =>
    obtain ⟨next, hnext, fed⟩ := Traced.value_bind_eq_ok_iff.1 fed
    obtain rfl := h.tallied.eq_of_feed hnext
    rw [List.append_cons]
    exact ih (h.next p) fed

theorem Follows.reset_eq (h : Follows window needed e before) :
    e.reset = { window, needed := max needed 1 } := by
  rw [reset, h.window_eq, h.needed_eq]

theorem reset_of_feedAll (fed : (standard.feedAll packets).value = .ok e) :
    e.reset = standard :=
  (follows_standard.feedAll fed).reset_eq

theorem Follows.value_feedAll (h : Follows window needed e []) (fits : Fits window packets) :
    (NeverBehind packets →
      ∃ e', (e.feedAll packets).value = .ok e' ∧ Follows window needed e' packets) ∧
    (¬ NeverBehind packets → (e.feedAll packets).value = .error .overflow) := by
  induction packets using List.reverseRecOn with
  | nil =>
    refine ⟨fun _ ↦ ⟨e, rfl, h⟩, fun hn ↦ ?_⟩
    exact absurd (fun i p hp ↦ by cases hp) hn
  | append_singleton packets p ih =>
    obtain ⟨ihtaken, ihbehind⟩ := ih fits.init
    rw [neverBehind_append_singleton, value_feedAll_append_singleton]
    by_cases hnever : NeverBehind packets
    · obtain ⟨e', he, hfollows⟩ := ihtaken hnever
      obtain ⟨hfalls, htakes⟩ := hfollows.value_feed fits
      rw [he]
      refine ⟨fun hn ↦ ⟨_, htakes hn.2, hfollows.next p⟩, fun hn ↦ ?_⟩
      exact hfalls (Classical.byContradiction fun hp ↦ hn ⟨hnever, hp⟩)
    · rw [ihbehind hnever]
      exact ⟨fun hn ↦ absurd hn.1 hnever, fun _ ↦ rfl⟩

/-- Whether the standard window has room for the totals over so many packets. -/
def FitsStream (n : Nat) : Prop :=
  standard.window * n < wordLimit

theorem value_feedAll_standard (room : FitsStream packets.length) :
    (NeverBehind packets →
      ∃ e, (standard.feedAll packets).value = .ok e ∧ Follows 256 16 e packets) ∧
    (¬ NeverBehind packets → (standard.feedAll packets).value = .error .overflow) :=
  follows_standard.value_feedAll (fits_of_lt (by decide) room (by decide))

theorem value_feedAll_of_standard (room : FitsStream (before ++ packets).length)
    (h : (standard.feedAll before).value = .ok e) :
    (NeverBehind (before ++ packets) → ∃ e', (e.feedAll packets).value = .ok e') ∧
    (¬ NeverBehind (before ++ packets) → (e.feedAll packets).value = .error .overflow) := by
  have heq : (e.feedAll packets).value = (standard.feedAll (before ++ packets)).value := by
    rw [feedAll_append, Traced.value_bind_of_ok h]
  obtain ⟨htaken, hbehind⟩ := value_feedAll_standard room
  rw [heq]
  exact ⟨fun hnever ↦ (htaken hnever).imp fun _ he ↦ he.1, hbehind⟩

end TransportStream.BitrateEstimator
