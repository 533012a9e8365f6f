import TransportStream.Packing

namespace TransportStream

namespace SectionPacker

structure Share (α : Type) where
  pointer : Option Nat
  items : List α

variable {α β : Type}

def Share.map (f : α → β) (share : Share α) : Share β :=
  ⟨share.pointer, share.items.map f⟩

def cut (data : List α) (starts : List Nat) : List (Share α) :=
  if _h : data = [] then []
  else
    let next := portion data.length starts.head?
    ⟨next.pointer, data.take next.size⟩ ::
      cut (data.drop next.size) (startsAfter next.size starts)
termination_by data.length
decreasing_by
  have := portion_size_pos (List.length_pos_iff.2 _h) starts.head?
  have := List.length_pos_iff.2 _h
  simp only [List.length_drop]
  omega

@[simp] theorem cut_nil (starts : List Nat) : cut ([] : List α) starts = [] := by
  rw [cut, dif_pos rfl]

theorem cut_map (f : α → β) (data : List α) (starts : List Nat) :
    cut (data.map f) starts = (cut data starts).map (Share.map f) := by
  fun_induction cut data starts with
  | case1 starts => rw [List.map_nil, cut_nil, List.map_nil]
  | case2 data starts hd next ih =>
    rw [cut, dif_neg (fun h ↦ hd (List.map_eq_nil_iff.1 h)), List.map_cons, ← ih]
    simp only [List.length_map, List.map_take, List.map_drop, Share.map, next]

def following (z : SectionPacker) : SectionPacker := { z with counter := z.counter.next }

def fillAll (z : SectionPacker) : List (Share UInt8) → List Packet × SectionPacker
  | [] => ([], z)
  | share :: rest =>
    let (packets, done) := fillAll z.following rest
    (z.fill share.pointer share.items :: packets, done)

theorem fillAll_append (z : SectionPacker) (shares more : List (Share UInt8)) :
    z.fillAll (shares ++ more) =
      ((z.fillAll shares).1 ++ ((z.fillAll shares).2.fillAll more).1,
        ((z.fillAll shares).2.fillAll more).2) := by
  induction shares generalizing z with
  | nil => rfl
  | cons share rest ih => simp only [List.cons_append, fillAll, ih]

theorem stuffing_fillAll (z : SectionPacker) (shares : List (Share UInt8)) :
    (z.fillAll shares).2.stuffing = z.stuffing := by
  induction shares generalizing z with
  | nil => rfl
  | cons share rest ih => exact ih _

theorem length_fillAll (z : SectionPacker) (shares : List (Share UInt8)) :
    (z.fillAll shares).1.length = shares.length := by
  induction shares generalizing z with
  | nil => rfl
  | cons share rest ih => exact congrArg (· + 1) (ih _)

theorem packData_eq (z : SectionPacker) (data : Bytes) (starts : List Nat) :
    z.packData data starts = z.fillAll (cut data starts) := by
  fun_induction cut data starts generalizing z with
  | case1 starts =>
    rw [packData, dif_pos rfl]
    rfl
  | case2 data starts hd next ih =>
    rw [packData, dif_neg hd, fillAll, following]
    simp only [ih, next]

def tagged : Nat → List Section → List (UInt8 × Nat)
  | _, [] => []
  | n, s :: rest => s.bytes.map (·, n) ++ tagged (n + 1) rest

def batches : Stuffing → List Section → List (List Section)
  | .never, sections => [sections]
  | .always, sections => sections.map ([·])

def shares : Nat → List (List Section) → List (Share (UInt8 × Nat))
  | _, [] => []
  | n, batch :: rest =>
    cut (tagged n batch) (positions 0 batch) ++ shares (n + batch.length) rest

def packet (z : SectionPacker) (share : Share (UInt8 × Nat)) : Packet :=
  z.fill share.pointer (share.items.map Prod.fst)

def fillTagged (z : SectionPacker) (shares : List (Share (UInt8 × Nat))) :
    List Packet × SectionPacker :=
  z.fillAll (shares.map (Share.map Prod.fst))

theorem fillTagged_cons (z : SectionPacker) (share : Share (UInt8 × Nat))
    (rest : List (Share (UInt8 × Nat))) :
    (z.fillTagged (share :: rest)).1 = z.packet share :: (z.following.fillTagged rest).1 := rfl

theorem map_fst_tagged (n : Nat) (sections : List Section) :
    (tagged n sections).map Prod.fst = sections.flatMap (·.bytes) := by
  induction sections generalizing n with
  | nil => rfl
  | cons s rest ih =>
    rw [tagged, List.map_append, ih, List.flatMap_cons, List.map_map]
    congr 1
    exact List.map_id _

theorem packData_tagged (z : SectionPacker) (n : Nat) (batch : List Section) :
    z.packData (batch.flatMap (·.bytes)) (positions 0 batch) =
      z.fillTagged (cut (tagged n batch) (positions 0 batch)) := by
  rw [packData_eq, fillTagged, ← cut_map, map_fst_tagged]

theorem fillTagged_append (z : SectionPacker) (a b : List (Share (UInt8 × Nat))) :
    z.fillTagged (a ++ b) =
      ((z.fillTagged a).1 ++ ((z.fillTagged a).2.fillTagged b).1,
        ((z.fillTagged a).2.fillTagged b).2) := by
  rw [fillTagged, List.map_append, fillAll_append]
  rfl

theorem shares_append (n : Nat) (a b : List (List Section)) :
    shares n (a ++ b) = shares n a ++ shares (n + a.flatten.length) b := by
  induction a generalizing n with
  | nil => rfl
  | cons batch rest ih =>
    rw [List.cons_append, shares, ih, shares, List.flatten_cons, List.length_append,
      Nat.add_assoc, List.append_assoc]

theorem packApart_eq (z : SectionPacker) (n : Nat) (sections : List Section) :
    z.packApart sections = z.fillTagged (shares n (sections.map ([·]))) := by
  induction sections generalizing z n with
  | nil => rfl
  | cons s rest ih =>
    have h := z.packData_tagged n [s]
    rw [List.flatMap_singleton] at h
    rw [List.map_cons, shares, fillTagged_append, ← h, ← ih]
    rfl

theorem pack_eq (z : SectionPacker) (n : Nat) (sections : List Section) :
    z.pack sections = z.fillTagged (shares n (batches z.stuffing sections)) := by
  cases hs : z.stuffing with
  | never =>
    rw [batches, shares, shares, List.append_nil, ← packData_tagged, pack, hs]
  | always => rw [batches, ← packApart_eq, pack, hs]

def packCalls (z : SectionPacker) : List (List Section) → List Packet × SectionPacker
  | [] => ([], z)
  | sections :: rest =>
    let (packets, z) := z.pack sections
    let (more, z) := z.packCalls rest
    (packets ++ more, z)

theorem flatten_batches (stuffing : Stuffing) (sections : List Section) :
    (batches stuffing sections).flatten = sections := by
  cases stuffing with
  | never => exact List.append_nil _
  | always =>
    induction sections with
    | nil => rfl
    | cons s rest ih => exact congrArg (s :: ·) ih

theorem flatten_flatMap_batches (stuffing : Stuffing) (calls : List (List Section)) :
    (calls.flatMap (batches stuffing)).flatten = calls.flatten := by
  induction calls with
  | nil => rfl
  | cons sections rest ih =>
    rw [List.flatMap_cons, List.flatten_append, flatten_batches, ih, List.flatten_cons]

theorem packCalls_eq (z : SectionPacker) (n : Nat) (calls : List (List Section)) :
    z.packCalls calls = z.fillTagged (shares n (calls.flatMap (batches z.stuffing))) := by
  induction calls generalizing z n with
  | nil => rfl
  | cons sections rest ih =>
    have hs : (z.pack sections).2.stuffing = z.stuffing := by
      rw [z.pack_eq n]
      exact stuffing_fillAll _ _
    have hr := ih (z.pack sections).2 (n + (batches z.stuffing sections).flatten.length)
    rw [hs] at hr
    rw [List.flatMap_cons, shares_append, fillTagged_append, ← z.pack_eq, ← hr]
    rfl

/-- The numbers of the sections of which each packet of successive calls holds bytes. -/
def holdings (z : SectionPacker) (calls : List (List Section)) : List (List Nat) :=
  (shares 0 (calls.flatMap (batches z.stuffing))).map fun share ↦ share.items.map Prod.snd

end SectionPacker

end TransportStream
