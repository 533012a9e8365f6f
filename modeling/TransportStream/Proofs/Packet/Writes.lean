import TransportStream.Proofs.Packet.Fields

namespace TransportStream

theorem bit_eq_testBit (b : UInt8) (k : Nat) : bit b k = b.toNat.testBit k := by
  rw [bit, bits, Nat.testBit_eq_decide_div_mod_eq, Nat.shiftRight_eq_div_pow]
  rfl

theorem bit_withBits (b : UInt8) (low width v : Nat) {k : Nat} (hk : k < 8) :
    bit (withBits b low width v) k =
      if low ≤ k ∧ k < low + width then v.testBit (k - low) else bit b k := by
  rw [bit_eq_testBit, bit_eq_testBit, testBit_withBits b low width v hk]

inductive HeaderField
  | pid
  | counter
  | unitStart
deriving DecidableEq

/-- The field that a bit of a byte belongs to, if it is one of them. Bits count from the least
significant one. -/
def HeaderField.of? (i : Fin Packet.size) (k : Nat) : Option HeaderField :=
  if i.val = 1 ∧ k < 5 ∨ i.val = 2 then some pid
  else if i.val = 3 ∧ k < 4 then some counter
  else if i.val = 1 ∧ k = 6 then some unitStart
  else none

namespace HeaderField

variable {i : Fin Packet.size} {k : Nat}

theorem of?_eq_pid_iff : of? i k = some pid ↔ i = 1 ∧ k < 5 ∨ i = 2 := by
  unfold of?
  grind

theorem of?_eq_counter_iff : of? i k = some counter ↔ i = 3 ∧ k < 4 := by
  unfold of?
  grind

theorem of?_eq_unitStart_iff : of? i k = some unitStart ↔ i = 1 ∧ k = 6 := by
  unfold of?
  grind

end HeaderField

inductive HeaderWrite
  | pid (pid : Pid)
  | counter (c : ContinuityCounter)
  | unitStart (start : Bool)

namespace HeaderWrite

variable {i : Fin Packet.size} {k : Nat} {w w' : HeaderWrite}

def field : HeaderWrite → HeaderField
  | pid _ => .pid
  | counter _ => .counter
  | unitStart _ => .unitStart

def pid? : HeaderWrite → Option Pid
  | pid p => some p
  | counter _ | unitStart _ => none

def counter? : HeaderWrite → Option ContinuityCounter
  | counter c => some c
  | pid _ | unitStart _ => none

def unitStart? : HeaderWrite → Option Bool
  | unitStart start => some start
  | pid _ | counter _ => none

def bitAt (i : Fin Packet.size) (k : Nat) : HeaderWrite → Bool
  | pid p => p.val.testBit (if i.val = 1 then k + 8 else k)
  | counter c => c.val.testBit k
  | unitStart start => start

/-- What becomes of a bit, if it belongs to the field that is written. -/
def bit? (i : Fin Packet.size) (k : Nat) (w : HeaderWrite) : Option Bool :=
  if HeaderField.of? i k = some w.field then some (w.bitAt i k) else none

theorem bit?_eq_none_iff : w.bit? i k = none ↔ HeaderField.of? i k ≠ some w.field := by
  simp [bit?]

theorem bit?_eq_none_or (h : w.field ≠ w'.field) : w.bit? i k = none ∨ w'.bit? i k = none := by
  rw [bit?_eq_none_iff, bit?_eq_none_iff]
  by_cases hw : HeaderField.of? i k = some w.field
  · exact .inr fun hw' ↦ h (Option.some.inj (hw.symm.trans hw'))
  · exact .inl hw

end HeaderWrite

namespace Packet

variable {p q : Packet} {w w' : HeaderWrite} {i : Fin size} {k : Nat}

def write (p : Packet) : HeaderWrite → Packet
  | .pid pid => p.setPid pid
  | .counter c => p.setCounter c
  | .unitStart start => p.setUnitStart start

def writeAll (p : Packet) (writes : List HeaderWrite) : Packet :=
  writes.foldl write p

theorem eq_of_bits (h : ∀ i : Fin size, ∀ k < 8, bit (p.byte i) k = bit (q.byte i) k) :
    p = q := by
  have hbyte (i : Fin size) : p.byte i = q.byte i := by
    apply eq_of_testBit
    intro k hk
    rw [← bit_eq_testBit, ← bit_eq_testBit, h i k hk]
  obtain ⟨xs, hx⟩ := p
  obtain ⟨ys, hy⟩ := q
  congr 1
  apply List.ext_getElem (hx.trans hy.symm)
  intro i hi _
  exact hbyte ⟨i, hx ▸ hi⟩

theorem counter_setPid (p : Packet) (pid : Pid) : (p.setPid pid).counter = p.counter := by
  simp only [counter, setPid, byte_setByte]
  simp

theorem pid_write (p : Packet) (w : HeaderWrite) : (p.write w).pid = w.pid?.getD p.pid := by
  cases w with
  | pid pid => exact pid_setPid p pid
  | counter c => exact pid_setCounter p c
  | unitStart start => exact pid_setUnitStart p start

theorem counter_write (p : Packet) (w : HeaderWrite) :
    (p.write w).counter = w.counter?.getD p.counter := by
  cases w with
  | pid pid => exact counter_setPid p pid
  | counter c => exact counter_setCounter p c
  | unitStart start => exact counter_setUnitStart p start

theorem unitStart_write (p : Packet) (w : HeaderWrite) :
    (p.write w).unitStart = w.unitStart?.getD p.unitStart := by
  cases w with
  | pid pid => exact unitStart_setPid p pid
  | counter c => exact unitStart_setCounter p c
  | unitStart start => exact unitStart_setUnitStart p start

theorem bit_setPid (p : Packet) (pid : Pid) (hk : k < 8) :
    bit ((p.setPid pid).byte i) k = ((HeaderWrite.pid pid).bit? i k).getD (bit (p.byte i) k) := by
  simp only [setPid, byte_setByte, HeaderWrite.bit?, HeaderWrite.bitAt, HeaderWrite.field,
    HeaderField.of?_eq_pid_iff]
  by_cases h₂ : i = 2
  · have hother : i.val ≠ 1 := by
      rw [h₂]
      decide
    rw [if_pos h₂, if_pos (.inr h₂), if_neg hother, Option.getD_some, bit_eq_testBit,
      UInt8.toNat_ofNat', Nat.testBit_mod_two_pow, decide_eq_true hk, Bool.true_and]
  by_cases h₁ : i = 1
  · have hval : i.val = 1 := by
      rw [h₁]
      rfl
    have hhigh : (pid.val / 2 ^ 8).testBit k = pid.val.testBit (k + 8) :=
      Nat.testBit_div_two_pow pid.val k
    rw [if_neg h₂, if_pos h₁, bit_withBits _ _ _ _ hk, if_pos hval]
    by_cases h₅ : k < 5
    · simpa [h₁, h₅] using hhigh
    · simp [h₁, h₅]
  · simp [h₁, h₂]

theorem bit_setCounter (p : Packet) (c : ContinuityCounter) (hk : k < 8) :
    bit ((p.setCounter c).byte i) k =
      ((HeaderWrite.counter c).bit? i k).getD (bit (p.byte i) k) := by
  simp only [setCounter, byte_setByte, HeaderWrite.bit?, HeaderWrite.bitAt, HeaderWrite.field,
    HeaderField.of?_eq_counter_iff]
  by_cases h₃ : i = 3
  · rw [if_pos h₃, bit_withBits _ _ _ _ hk]
    by_cases h₄ : k < 4
    · simp [h₃, h₄]
    · simp [h₃, h₄]
  · simp [h₃]

theorem bit_setUnitStart (p : Packet) (start : Bool) (hk : k < 8) :
    bit ((p.setUnitStart start).byte i) k =
      ((HeaderWrite.unitStart start).bit? i k).getD (bit (p.byte i) k) := by
  simp only [setUnitStart, byte_setByte, HeaderWrite.bit?, HeaderWrite.bitAt, HeaderWrite.field,
    HeaderField.of?_eq_unitStart_iff]
  by_cases h₁ : i = 1
  · rw [if_pos h₁, bit_withBits _ _ _ _ hk]
    by_cases h₆ : k = 6
    · have hstart : start.toNat.testBit 0 = start := by cases start <;> rfl
      simpa [h₁, h₆] using hstart
    · rw [if_neg (show ¬ (6 ≤ k ∧ k < 6 + 1) by omega)]
      simp [h₁, h₆]
  · simp [h₁]

theorem bit_write (p : Packet) (w : HeaderWrite) (i : Fin size) (hk : k < 8) :
    bit ((p.write w).byte i) k = (w.bit? i k).getD (bit (p.byte i) k) := by
  cases w with
  | pid pid => exact bit_setPid p pid hk
  | counter c => exact bit_setCounter p c hk
  | unitStart start => exact bit_setUnitStart p start hk

theorem write_comm (p : Packet) (h : w.field ≠ w'.field) :
    (p.write w).write w' = (p.write w').write w := by
  apply eq_of_bits
  intro i k hk
  rw [bit_write _ _ _ hk, bit_write _ _ _ hk, bit_write _ _ _ hk, bit_write _ _ _ hk]
  rcases HeaderWrite.bit?_eq_none_or h with hnone | hnone
  · rw [hnone, Option.getD_none, Option.getD_none]
  · rw [hnone, Option.getD_none, Option.getD_none]

/-- What one write replaces or leaves alone is after many what the last of them has put there. -/
theorem read_writeAll {α : Type} {read : Packet → α} {value? : HeaderWrite → Option α}
    (one : ∀ p w, read (p.write w) = (value? w).getD (read p)) (p : Packet)
    (writes : List HeaderWrite) :
    read (p.writeAll writes) = (writes.filterMap value?).getLastD (read p) := by
  induction writes generalizing p with
  | nil => rfl
  | cons w rest ih =>
    show read ((p.write w).writeAll rest) = _
    rw [ih, one, List.filterMap_cons]
    cases value? w with
    | none => rfl
    | some a => exact List.getLastD_cons.symm

theorem writeAll_append (p : Packet) (before after : List HeaderWrite) :
    p.writeAll (before ++ after) = (p.writeAll before).writeAll after :=
  List.foldl_append

/-- After any writes in any order each field reads as the last value written to it, bits that belong
to none of the fields written are as before, and neighbouring writes to different fields may trade
places. -/
theorem fields_writeAll (p : Packet) (writes : List HeaderWrite) :
    (p.writeAll writes).pid = (writes.filterMap HeaderWrite.pid?).getLastD p.pid ∧
    (p.writeAll writes).counter = (writes.filterMap HeaderWrite.counter?).getLastD p.counter ∧
    (p.writeAll writes).unitStart =
      (writes.filterMap HeaderWrite.unitStart?).getLastD p.unitStart ∧
    (∀ i : Fin size, ∀ k < 8, (∀ w ∈ writes, HeaderField.of? i k ≠ some w.field) →
      bit ((p.writeAll writes).byte i) k = bit (p.byte i) k) ∧
    (∀ before w w' after, writes = before ++ w :: w' :: after → w.field ≠ w'.field →
      p.writeAll writes = p.writeAll (before ++ w' :: w :: after)) := by
  refine ⟨read_writeAll pid_write p writes, read_writeAll counter_write p writes,
    read_writeAll unitStart_write p writes, ?bits, ?order⟩
  case bits =>
    intro i k hk untouched
    have hread := @read_writeAll Bool (fun p ↦ bit (p.byte i) k) (HeaderWrite.bit? i k)
      (fun p w ↦ bit_write p w i hk) p writes
    have hnone : writes.filterMap (HeaderWrite.bit? i k) = [] :=
      List.filterMap_eq_nil_iff.2 fun w hw ↦ HeaderWrite.bit?_eq_none_iff.2 (untouched w hw)
    rw [hnone] at hread
    exact hread
  case order =>
    rintro before w w' after rfl different
    rw [writeAll_append, writeAll_append]
    show (((p.writeAll before).write w).write w').writeAll after = _
    rw [write_comm _ different]
    rfl

theorem fields_writeAll_ones : ∃ p : Packet, p.bytes = List.replicate size 0xff ∧
    let early : List HeaderWrite := [.pid ⟨0x123, by decide⟩, .unitStart true]
    let late : List HeaderWrite := [.counter ⟨7, by decide⟩, .unitStart false]
    (p.writeAll (early ++ late)).pid.val = 0x123 ∧ (p.writeAll (early ++ late)).counter.val = 7 ∧
      (p.writeAll (early ++ late)).unitStart = false ∧
      bit ((p.writeAll (early ++ late)).byte 1) 7 = true ∧
      p.writeAll (early ++ late) = p.writeAll (early.reverse ++ late) := by
  obtain ⟨hpid, hcounter, hstart, hbits, horder⟩ :=
    fields_writeAll ⟨List.replicate size 0xff, List.length_replicate⟩
      [.pid ⟨0x123, by decide⟩, .unitStart true, .counter ⟨7, by decide⟩, .unitStart false]
  exact ⟨⟨List.replicate size 0xff, List.length_replicate⟩, rfl, congrArg Pid.val hpid,
    congrArg ContinuityCounter.val hcounter, hstart, hbits 1 7 (by decide) (by decide),
    horder [] _ _ _ rfl (by decide)⟩

end Packet

end TransportStream
