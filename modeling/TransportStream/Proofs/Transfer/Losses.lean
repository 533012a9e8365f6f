import TransportStream.Proofs.Transfer.Intake

namespace TransportStream

def pick {α : Type} : List Bool → List α → List α
  | true :: keep, a :: rest => a :: pick keep rest
  | false :: keep, _ :: rest => pick keep rest
  | _, _ => []

/-- The lengths of the gaps between packets that are kept, if `gap` packets were lost since the last
one before. -/
def gaps : Option Nat → List Bool → List Nat
  | _, [] => []
  | gap, false :: keep => gaps (gap.map (· + 1)) keep
  | some (n + 1), true :: keep => (n + 1) :: gaps (some 0) keep
  | _, true :: keep => gaps (some 0) keep

theorem mem_of_mem_pick {α : Type} {keep : List Bool} {l : List α} {a : α} (h : a ∈ pick keep l) :
    a ∈ l := by
  fun_induction pick keep l with
  | case1 keep b rest ih =>
    rcases List.mem_cons.1 h with rfl | h
    · exact List.mem_cons_self ..
    · exact List.mem_cons_of_mem _ (ih h)
  | case2 keep b rest ih => exact List.mem_cons_of_mem _ (ih h)
  | case3 => cases h

theorem length_gaps_le {α : Type} (gap : Option Nat) {keep : List Bool} {l : List α}
    (h : keep.length = l.length) : (gaps gap keep).length ≤ (pick keep l).length := by
  fun_induction gaps gap keep generalizing l with
  | case1 => exact Nat.zero_le _
  | case2 gap keep ih =>
    obtain ⟨a, rest, rfl⟩ := List.exists_cons_of_length_eq_add_one h.symm
    exact ih (Nat.succ.inj h)
  | case3 lost keep ih =>
    obtain ⟨a, rest, rfl⟩ := List.exists_cons_of_length_eq_add_one h.symm
    exact Nat.succ_le_succ (ih (Nat.succ.inj h))
  | case4 gap keep hne ih =>
    obtain ⟨a, rest, rfl⟩ := List.exists_cons_of_length_eq_add_one h.symm
    exact Nat.le_succ_of_le (ih (Nat.succ.inj h))

/-- Whether all packets that hold bytes of the section with a number are kept. -/
def intact (holdings : List (List Nat)) (keep : List Bool) (number : Nat) : Bool :=
  (holdings.zip keep).all fun packet ↦ packet.2 || number ∉ packet.1

open SectionPacker

variable {n sent ahead : Nat} {sections ended rest : List Section}
  {share : Share (UInt8 × Nat)} {shares : List (Share (UInt8 × Nat))}

def numbers (shares : List (Share (UInt8 × Nat))) : List (List Nat) :=
  shares.map fun share ↦ share.items.map Prod.snd

/-- Those of the sections, counted from `n`, that come whole, if the first of them is `whole` in the
packets before. -/
def survivors (n : Nat) (whole : Bool) (holdings : List (List Nat)) (keep : List Bool)
    (sections : List Section) : List Section :=
  ((sections.zipIdx n).filter fun s ↦
    (whole || s.2 ≠ n) && intact holdings keep s.2).map (·.1)

theorem intact_cons (held : List Nat) (holdings : List (List Nat)) (kept : Bool) (keep : List Bool)
    (m : Nat) :
    intact (held :: holdings) (kept :: keep) m =
      ((kept || m ∉ held) && intact holdings keep m) := by
  rw [intact, List.zip_cons_cons, List.all_cons, intact]

theorem intact_of_forall {holdings : List (List Nat)} {m : Nat} (h : ∀ held ∈ holdings, m ∉ held)
    (keep : List Bool) : intact holdings keep m = true := by
  rw [intact, List.all_eq_true]
  rintro ⟨held, kept⟩ hp
  simp [h held (List.of_mem_zip hp).1]

theorem SectionPacker.Carries.le_of_mem (h : Carries n sections sent shares)
    (hpos : ∀ s ∈ sections, s.bytes ≠ []) {m : Nat} :
    ∀ held ∈ numbers shares, m ∈ held → n ≤ m := by
  induction h with
  | nil => exact fun held hh ↦ absurd hh List.not_mem_nil
  | cons split before after takes _ ih =>
    subst split
    intro held hh hm
    rcases List.mem_cons.1 hh with rfl | hh
    · have := (takes.mem_numbers_iff hpos before after).1 hm
      omega
    · have := ih (fun s hs ↦ hpos s (List.mem_append_right _ hs)) held hh hm
      omega

theorem filter_ne_zipIdx {α : Type} (n : Nat) (l : List α) :
    ((l.zipIdx n).filter (·.2 ≠ n)).map (·.1) = l.tail := by
  cases l with
  | nil => rfl
  | cons a rest =>
    have hf : (rest.zipIdx (n + 1)).filter (·.2 ≠ n) = rest.zipIdx (n + 1) := by
      refine List.filter_eq_self.2 fun x hx ↦ ?_
      have := List.le_snd_of_mem_zipIdx hx
      exact decide_eq_true (by omega)
    rw [List.zipIdx_cons, List.filter_cons_of_neg (by simp), hf, List.zipIdx_map_fst,
      List.tail_cons]

section Survivors

variable {whole kept : Bool} {keep : List Bool} (hpos : ∀ s ∈ ended ++ rest, s.bytes ≠ [])
  (before : Within sent (ended ++ rest)) (after : Within ahead rest)
  (takes : share.Takes n ended rest sent ahead)
  (more : Carries (n + ended.length) rest ahead shares)

include hpos before after takes more

theorem survivors_ended :
    (((ended.zipIdx n).filter fun s ↦
      (whole || s.2 ≠ n) && intact (numbers (share :: shares)) (kept :: keep) s.2).map (·.1)) =
        if kept then if whole then ended else ended.tail else [] := by
  have hp : ∀ s ∈ ended.zipIdx n,
      ((whole || s.2 ≠ n) && intact (numbers (share :: shares)) (kept :: keep) s.2) =
        ((whole || s.2 ≠ n) && kept) := by
    intro s hs
    have h₁ := List.le_snd_of_mem_zipIdx hs
    have h₂ := List.snd_lt_add_of_mem_zipIdx hs
    have held : s.2 ∈ share.items.map Prod.snd :=
      (takes.mem_numbers_iff hpos before after).2 (.inl ⟨h₁, h₂⟩)
    have later : ∀ held ∈ numbers shares, s.2 ∉ held := by
      intro held hh hm
      have := more.le_of_mem (fun t ht ↦ hpos t (List.mem_append_right _ ht)) held hh hm
      omega
    rw [numbers, List.map_cons, intact_cons, ← numbers, intact_of_forall later]
    simp [held]
  rw [List.filter_congr hp]
  cases kept with
  | false => simp
  | true =>
    cases whole with
    | true =>
      have hf : (ended.zipIdx n).filter (fun s ↦ (true || s.2 ≠ n) && true) = ended.zipIdx n :=
        List.filter_eq_self.2 fun _ _ ↦ rfl
      rw [if_pos rfl, if_pos rfl, hf]
      exact List.zipIdx_map_fst n ended
    | false =>
      simp only [Bool.false_or, Bool.and_true, if_true, Bool.false_eq_true, if_false]
      exact filter_ne_zipIdx n ended

omit more in
theorem survivors_rest :
    ((((rest.zipIdx (n + ended.length))).filter fun s ↦
      (whole || s.2 ≠ n) && intact (numbers (share :: shares)) (kept :: keep) s.2).map (·.1)) =
        survivors (n + ended.length) (if kept then whole || !ended.isEmpty else ahead = 0)
          (numbers shares) keep rest := by
  have hlt := takes.sent_lt
  rw [survivors]
  congr 1
  refine List.filter_congr fun s hs ↦ ?_
  have h₁ := List.le_snd_of_mem_zipIdx hs
  have held : s.2 ∈ share.items.map Prod.snd ↔ s.2 = n + ended.length ∧ 0 < ahead := by
    rw [takes.mem_numbers_iff hpos before after]
    omega
  have hd : decide (s.2 ∉ share.items.map Prod.snd) =
      decide ¬(s.2 = n + ended.length ∧ 0 < ahead) := decide_eq_decide.2 (not_congr held)
  rw [numbers, List.map_cons, intact_cons, ← numbers, ← Bool.and_assoc]
  congr 1
  cases ended with
  | nil =>
    rw [joined_nil, List.length_nil] at hlt
    rw [hd]
    cases kept with
    | true => simp
    | false =>
      have ha : ahead ≠ 0 := by omega
      have hp : 0 < ahead := by omega
      by_cases hs : s.2 = n <;> simp [ha, hp, hs]
  | cons t tail =>
    have hn : s.2 ≠ n := by
      rw [List.length_cons] at h₁
      omega
    rw [hd]
    cases kept with
    | true => simp [hn]
    | false =>
      rcases Nat.eq_zero_or_pos ahead with ha | ha
      · simp [hn, ha]
      · simp [hn, ha, Nat.ne_of_gt ha]

theorem survivors_cons :
    survivors n whole (numbers (share :: shares)) (kept :: keep) (ended ++ rest) =
      (if kept then if whole then ended else ended.tail else []) ++
        survivors (n + ended.length) (if kept then whole || !ended.isEmpty else ahead = 0)
          (numbers shares) keep rest := by
  rw [survivors, List.zipIdx_append, List.filter_append, List.map_append,
    survivors_ended hpos before after takes more,
    survivors_rest hpos before after takes]

end Survivors

/-- How reassembly stands before a packet, when `gap` packets were lost since the last one that was
kept, if any was. -/
structure Tracks (z : SectionPacker) (sections : List Section) (sent : Nat) (whole : Bool)
    (gap : Option Nat) (r : Reassembly) : Prop where
  last_eq_none : gap = none → r.last = none
  last_eq_some : ∀ lost, gap = some lost →
    ∃ last, r.last = some last ∧ (last.val + 1 + lost) % 16 = z.counter.val
  sent_pos : whole = false → 0 < sent
  sent_eq_zero : gap ≠ some 0 → whole = true → sent = 0
  eq_holding : gap = none ∨ gap = some 0 →
    r = .holding r.pid r.last (if whole then (joined sections).take sent else [])

namespace Tracks

variable {z : SectionPacker} {whole : Bool} {gap : Option Nat} {r : Reassembly}

theorem drop (h : Tracks z (ended ++ rest) sent whole gap r) :
    Tracks z.following rest ahead (ahead = 0) (gap.map (· + 1)) r where
  last_eq_none hg := h.last_eq_none (Option.map_eq_none_iff.1 hg)
  last_eq_some lost hg := by
    obtain ⟨m, hm, rfl⟩ := Option.map_eq_some_iff.1 hg
    obtain ⟨last, hl, hc⟩ := h.last_eq_some m hm
    refine ⟨last, hl, ?_⟩
    simp only [following, ContinuityCounter.next]
    omega
  sent_pos hw := Nat.pos_of_ne_zero (of_decide_eq_false hw)
  sent_eq_zero _ hw := of_decide_eq_true hw
  eq_holding hg := by
    have hn : gap = none := by
      cases gap with
      | none => rfl
      | some m => simp at hg
    have hb : (if whole then (joined (ended ++ rest)).take sent else []) = [] := by
      cases whole with
      | true => rw [h.sent_eq_zero (by simp [hn]) rfl]; rfl
      | false => rfl
    have ha : (if decide (ahead = 0) = true then (joined rest).take ahead else []) = [] := by
      split
      · next h₀ => rw [of_decide_eq_true h₀, List.take_zero]
      · rfl
    rw [ha, ← hb]
    exact h.eq_holding (.inl hn)

theorem take (whole : Bool) (takes : share.Takes n ended rest sent ahead)
    (hr : r = .holding r.pid (some z.counter)
      (if whole || !ended.isEmpty then (joined rest).take ahead else [])) :
    Tracks z.following rest ahead (whole || !ended.isEmpty) (some 0) r where
  last_eq_none hg := nomatch hg
  last_eq_some lost hg := by
    obtain rfl : 0 = lost := Option.some.inj hg
    exact ⟨z.counter, congrArg Reassembly.last hr, rfl⟩
  sent_pos hw := by
    have hlt := takes.sent_lt
    cases ended with
    | nil =>
      rw [joined_nil, List.length_nil] at hlt
      omega
    | cons s tail => simp at hw
  sent_eq_zero hg _ := absurd rfl hg
  eq_holding _ := by
    have hl : r.last = some z.counter := congrArg Reassembly.last hr
    rw [hl]
    exact hr

theorem next_packet (h : Tracks z (ended ++ rest) sent whole gap r)
    (hgap : ∀ lost, gap = some (lost + 1) → (lost + 1) % 16 ≠ 0 ∧ (lost + 1) % 16 ≠ 15)
    (before : Within sent (ended ++ rest)) (after : Within ahead rest)
    (takes : share.Takes n ended rest sent ahead)
    (hsec : ∀ s ∈ ended ++ rest, IsSection s.bytes) :
    r.next (z.packet share) =
      (.holding r.pid (some z.counter)
          (if whole || !ended.isEmpty then (joined rest).take ahead else []),
        { problems := if gap = none ∨ gap = some 0 then [] else [.discontinuity]
          pieces := (if whole then ended else ended.tail).map (·.bytes) }) := by
  have hc : (z.packet share).counter = z.counter := z.counter_fill ..
  have hb : (z.packet share).breakSignalled = false := z.breakSignalled_fill ..
  have hl : (z.packet share).layout.hasPayload = true := by
    rw [packet, layout_fill]
    rfl
  have habs := Reassembly.absorbed_share z takes after hsec r.pid (some z.counter) before h.sent_pos
  have hkeep : gap = none ∨ gap = some 0 →
      { r with last := some z.counter, duplicateSeen := false } = Reassembly.holding r.pid
        (some z.counter) (if whole then (joined (ended ++ rest)).take sent else []) := by
    intro hg
    have hr := h.eq_holding hg
    generalize (if whole then (joined (ended ++ rest)).take sent else []) = buffer at hr
    rw [hr]
    rfl
  rcases gap with _ | _ | lost
  · rw [Reassembly.next_of_first r (h.last_eq_none rfl), hc, hkeep (.inl rfl), habs]
    rfl
  · obtain ⟨last, hlast, hv⟩ := h.last_eq_some 0 rfl
    have hn : z.counter = last.next := ContinuityCounter.ext hv.symm
    rw [Reassembly.next_of_inSequence hlast hb hl (hc.trans hn), hc, hkeep (.inr rfl), habs]
    rfl
  · obtain ⟨last, hlast, hv⟩ := h.last_eq_some (lost + 1) rfl
    obtain ⟨h₀, h₁⟩ := hgap lost rfl
    have hlt := last.val_lt
    have hn : z.counter ≠ last.next := by
      intro he
      rw [he] at hv
      simp only [ContinuityCounter.next] at hv
      omega
    have hne : z.counter ≠ last := by
      intro he
      rw [he] at hv
      omega
    have hbuf : (if whole then (joined (ended ++ rest)).take sent else []) = [] := by
      cases whole with
      | true => rw [h.sent_eq_zero (by simp) rfl]; rfl
      | false => rfl
    rw [hbuf, ← hc] at habs
    rw [Reassembly.next_of_outOfSequence hlast hb hl (by rwa [hc]) (.inl (by rwa [hc])) habs, hc]
    rfl

end Tracks

/-- Reassembly brings the sections that come whole, and notices each gap once. -/
theorem Reassembly.run_pick {z : SectionPacker} {whole : Bool} {gap : Option Nat} {r : Reassembly}
    {keep : List Bool} (h : Carries n sections sent shares)
    (hr : Tracks z sections sent whole gap r) (hsec : ∀ s ∈ sections, IsSection s.bytes)
    (hlen : keep.length = shares.length)
    (hgaps : ∀ lost ∈ gaps gap keep, lost % 16 ≠ 0 ∧ lost % 16 ≠ 15) :
    (r.run (pick keep (z.fillTagged shares).1)).2 =
      { problems := List.replicate (gaps gap keep).length .discontinuity
        pieces := (survivors n whole (numbers shares) keep sections).map (·.bytes) } := by
  -- By what the shares carry; `Tracks` holds before each packet, kept or lost.
  induction h generalizing z whole gap r keep with
  | nil n =>
    obtain rfl : keep = [] := List.length_eq_zero_iff.1 hlen
    rfl
  | @cons n sent ahead sections ended rest share shares split before after takes more ih =>
    subst split
    have hpos : ∀ s ∈ ended ++ rest, s.bytes ≠ [] := fun s hs ↦ (hsec s hs).ne_nil
    have hrest : ∀ s ∈ rest, IsSection s.bytes := fun s hs ↦ hsec s (List.mem_append_right _ hs)
    obtain ⟨kept, keep, rfl⟩ := List.exists_cons_of_length_eq_add_one hlen
    rw [survivors_cons hpos before after takes more]
    cases kept with
    | false =>
      exact ih hr.drop hrest (Nat.succ.inj hlen) hgaps
    | true =>
      have hgap : gaps gap (true :: keep) =
          (if gap = none ∨ gap = some 0 then [] else [gap.getD 0]) ++ gaps (some 0) keep := by
        match gap with
        | none | some 0 | some (lost + 1) => rfl
      rw [hgap] at hgaps ⊢
      have hnext := hr.next_packet (fun lost hl ↦ hgaps (lost + 1) (by simp [hl])) before after
        takes hsec
      have htracks := Tracks.take whole takes (r := (r.next (z.packet share)).1)
        (by rw [hnext]; rfl)
      have hmore := ih htracks hrest (Nat.succ.inj hlen)
        fun lost hl ↦ hgaps lost (List.mem_append_right _ hl)
      rw [fillTagged_cons, pick, Reassembly.run_cons, hmore, hnext, List.length_append,
        List.map_append]
      have hproblems : ((if gap = none ∨ gap = some 0 then [] else [.discontinuity]) ++
            List.replicate (gaps (some 0) keep).length .discontinuity : List Problem) =
          List.replicate ((if gap = none ∨ gap = some 0 then [] else [gap.getD 0]).length +
            (gaps (some 0) keep).length) .discontinuity := by
        split
        · rw [List.length_nil, Nat.zero_add, List.nil_append]
        · rw [List.length_singleton, Nat.add_comm 1, List.replicate_succ, List.singleton_append]
      exact congrArg (Findings.mk · _) hproblems

end TransportStream
