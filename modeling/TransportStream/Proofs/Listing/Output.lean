import TransportStream.Packet.Build
import TransportStream.Proofs.Listing.Announcements
import TransportStream.Proofs.Listing.Moves

namespace TransportStream.TableListing

open BitrateEstimator RingHistory

variable {l l' : TableListing} {file : Bytes} {h : RingHistory}

theorem follow_cons (l : TableListing) (turn : Turn) (rest : List Turn) :
    l.follow (turn :: rest) = l.move turn >>= fun l' ↦ l'.follow rest := rfl

theorem follow_append (l : TableListing) (before after : List Turn) :
    l.follow (before ++ after) = l.follow before >>= fun l' ↦ l'.follow after := by
  unfold follow
  exact List.foldlM_append

/-- Along a schedule the work gets less, unless all sides whose turns come idle. -/
theorem Sound.follow (hs : Sound file l h) (schedule : List Turn) :
    Leads file (l.follow schedule) fun l' ↦
      l' = l ∧ (∀ turn ∈ schedule, l.Idles turn) ∨ l'.work < l.work := by
  induction schedule generalizing l h with
  | nil => exact .pure hs (.inl ⟨rfl, fun _ ht ↦ absurd ht List.not_mem_nil⟩)
  | cons turn rest ih =>
    rw [follow_cons]
    refine (hs.advances turn).bind fun l₁ h₁ hs₁ hfirst ↦ ?_
    refine (ih hs₁).mono fun l₂ hrest ↦ ?_
    rcases hfirst with ⟨rfl, hidle⟩ | hless
    · exact hrest.imp_left fun ⟨hsame, hidles⟩ ↦ ⟨hsame, List.forall_mem_cons.2 ⟨hidle, hidles⟩⟩
    · right
      rcases hrest with ⟨rfl, -⟩ | hless'
      · exact hless
      · omega

structure IsRound (turns : List Turn) : Prop where
  feeder : ∃ most, .feeder most ∈ turns
  printer : .printer ∈ turns

theorem Sound.round (hs : Sound file l h) {turns : List Turn} (hr : IsRound turns) :
    Leads file (l.follow turns) fun l' ↦ l'.finished = true ∨ l'.work < l.work := by
  refine (hs.follow turns).mono fun l' hl ↦ hl.imp_left ?_
  rintro ⟨rfl, hidles⟩
  obtain ⟨most, hfeeder⟩ := hr.feeder
  exact hs.finished_of_idles (hidles _ hfeeder) (hidles _ hr.printer)

theorem Sound.follow_of_finished (hs : Sound file l h) (hfin : l.finished = true)
    (schedule : List Turn) : l.follow schedule = pure l := by
  have hmove (turn : Turn) : l.move turn = pure l := by
    cases turn with
    | feeder most => rw [move, moveFeeder, (hs.finished hfin).2]
    | printer => rw [move, movePrinter, if_pos hfin]
  induction schedule with
  | nil => rfl
  | cons turn rest ih => rw [follow_cons, hmove, pure_bind, ih]

theorem Sound.rounds (hs : Sound file l h) {rounds : List (List Turn)}
    (hr : ∀ turns ∈ rounds, IsRound turns) : Leads file (l.follow rounds.flatten) fun l' ↦
      l'.finished = true ∨ l'.work + rounds.length ≤ l.work := by
  induction rounds generalizing l h with
  | nil => exact .pure hs (.inr (Nat.le_refl _))
  | cons turns rest ih =>
    obtain ⟨hturns, hrest⟩ := List.forall_mem_cons.1 hr
    rw [List.flatten_cons, follow_append]
    refine (hs.round hturns).bind fun l₁ h₁ hs₁ hfirst ↦ ?_
    rcases hfirst with hfin | hless
    · rw [hs₁.follow_of_finished hfin]
      exact .pure hs₁ (.inl hfin)
    · refine (ih hs₁ hrest).mono fun l₂ hl ↦ hl.imp_right fun hwork ↦ ?_
      rw [List.length_cons]
      omega

theorem alternate_of_finished (hfin : l.finished = true) (n : Nat) : alternate n l = pure l := by
  cases n with
  | zero => rfl
  | succ n => rw [alternate, if_pos hfin]

theorem Sound.alternate (hs : Sound file l h) {n : Nat} (hn : l.work ≤ n) :
    Leads file (alternate n l) fun l' ↦ l'.finished = true := by
  induction n generalizing l h with
  | zero =>
    refine .pure hs ?_
    by_cases hfin : l.finished = true
    · exact hfin
    · rw [work, if_neg hfin] at hn
      omega
  | succ n ih =>
    rw [TableListing.alternate]
    split
    · next hfin => exact .pure hs hfin
    · have hboth : IsRound [.feeder bufferSize, .printer] :=
        ⟨⟨_, List.mem_cons_self ..⟩, List.mem_cons_of_mem _ (List.mem_cons_self ..)⟩
      have hround := hs.round hboth
      have hmoves : l.moveFeeder bufferSize >>= (fun l₁ ↦ l₁.movePrinter >>= alternate n) =
          l.follow [.feeder bufferSize, .printer] >>= alternate n := by
        rw [follow_cons, bind_assoc]
        refine congrArg _ (funext fun l₁ ↦ ?_)
        show _ = (l₁.movePrinter >>= pure) >>= _
        rw [bind_pure]
      show Leads file (l.moveFeeder bufferSize >>= fun l₁ ↦ l₁.movePrinter >>= alternate n) _
      rw [hmoves]
      refine hround.bind fun l₂ h₂ hs₂ hl ↦ ?_
      rcases hl with hfin | hless
      · rw [alternate_of_finished hfin]
        exact .pure hs₂ hfin
      · exact ih hs₂ (by omega)

structure Reports (file : Bytes) (l : TableListing) : Prop where
  demux : ∃ fed calls, fed <+: packetsOf file ∧
    (demultiplexer.feedAll fed).value = .ok (l.demux, calls)
  finished : l.finished = true → ∃ calls e,
    (demultiplexer.feedAll (packetsOf file)).value = .ok (l.demux, calls) ∧
    (standard.feedAll (packetsOf file)).value = .ok e ∧
    l.demux.packetCount = (packetsOf file).length ∧ l.bitrate = e.bitrate

end TransportStream.TableListing
