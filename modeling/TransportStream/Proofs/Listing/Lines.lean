import Mathlib.Algebra.Group.Nat.Defs
import TransportStream.TableListing

namespace TransportStream

namespace Text

theorem toList_hex_succ (width n : Nat) : (hex (width + 2) n).toList =
    (hex (width + 1) (n / 16)).toList ++ [(n % 16).digitChar] := by
  simp only [hex, String.toList_ofList]
  by_cases hn : n < 16
  · rw [Nat.toDigits_of_lt_base hn, Nat.div_eq_of_lt hn, Nat.mod_eq_of_lt hn, Nat.toDigits_zero]
    exact congrArg (· ++ [n.digitChar]) List.replicate_succ'
  · rw [Nat.toDigits_of_base_le (by decide) (Nat.not_lt.1 hn), List.length_append,
      List.length_singleton, Nat.add_sub_add_right (width + 1) 1, List.append_assoc]

theorem length_hex {width n : Nat} (hn : n < 16 ^ (width + 1)) :
    (hex (width + 1) n).toList.length = width + 1 := by
  have hlength := (Nat.length_toDigits_le_iff (b := 16) (by decide) (Nat.succ_pos width)).2 hn
  rw [hex, String.toList_ofList, List.length_append, List.length_replicate]
  omega

theorem digitChar_injective : ∀ m < 16, ∀ n < 16, Nat.digitChar m = Nat.digitChar n → m = n := by
  decide

theorem hex_injective {width m n : Nat} (hm : m < 16 ^ (width + 1)) (hn : n < 16 ^ (width + 1))
    (h : (hex (width + 1) m).toList = (hex (width + 1) n).toList) : m = n := by
  induction width generalizing m n with
  | zero =>
    rw [Nat.zero_add, Nat.pow_one] at hm hn
    simp only [hex, Nat.toDigits_of_lt_base hm, Nat.toDigits_of_lt_base hn,
      String.toList_ofList] at h
    exact digitChar_injective m hm n hn (List.singleton_inj.1 h)
  | succ width ih =>
    rw [toList_hex_succ, toList_hex_succ] at h
    obtain ⟨hfront, hlast⟩ := List.append_inj' h rfl
    have hdiv := ih (Nat.div_lt_of_lt_mul (by omega)) (Nat.div_lt_of_lt_mul (by omega)) hfront
    have hmod := digitChar_injective _ (Nat.mod_lt m (by decide)) _ (Nat.mod_lt n (by decide))
      (List.singleton_inj.1 hlast)
    omega

end Text

namespace TableListing

def announcement (program : Nat) (pid : Pid) : String :=
  s!"  program {program} has its PMT on {pid.describe}"

def Announces (line : String) (pid : Pid) : Prop := ∃ program, line = announcement program pid

theorem toList_announcement (program : Nat) (pid : Pid) : (announcement program pid).toList =
    ("  program ".toList ++ (toString program).toList ++ " has its PMT on ".toList ++
      "Pid(".toList) ++ ((Text.hex 4 pid.val).toList ++ [')']) := by
  show ("  program " ++ toString program ++ " has its PMT on " ++
    ("Pid(" ++ Text.hex 4 pid.val ++ ")")).toList = _
  simp only [String.toList_append, List.append_assoc]
  rfl

theorem Announces.eq {line : String} {p q : Pid} (hp : Announces line p) (hq : Announces line q) :
    p = q := by
  obtain ⟨a, rfl⟩ := hp
  obtain ⟨b, hb⟩ := hq
  have hbound (r : Pid) : r.val < 16 ^ (3 + 1) := Nat.lt_of_lt_of_le r.val_lt (by decide)
  have hlists := congrArg String.toList hb
  rw [toList_announcement, toList_announcement] at hlists
  -- the digits are as many for every substream, so they stand at the same place from the end
  have hends := List.append_inj_right' hlists (by
    rw [List.length_append, List.length_append, Text.length_hex (hbound p),
      Text.length_hex (hbound q)])
  exact Pid.ext (Text.hex_injective (hbound p) (hbound q) (List.append_inj_left' hends rfl))

theorem not_announces_append {front : String} {c : Char} (h : front.toList.head? = some c)
    (hc : c ≠ ' ') (rest : String) (pid : Pid) : ¬ Announces (front ++ rest) pid := by
  rintro ⟨program, hline⟩
  have hhead := congrArg (fun s : String ↦ s.toList.head?) hline
  simp only [String.toList_append, List.head?_append, h, toList_announcement] at hhead
  exact hc (Option.some.inj hhead)

theorem head?_describe (p : Pid) : p.describe.toList.head? = some 'P' := by
  show ("Pid(" ++ Text.hex 4 p.val ++ ")").toList.head? = _
  simp only [String.toList_append, List.head?_append]
  rfl

theorem not_announces_headline (t : Table) (pid : Pid) : ¬ Announces (headline t) pid := by
  simp only [headline, String.append_assoc]
  cases t.pid? with
  | none => exact not_announces_append (c := 'N') rfl (by decide) _ pid
  | some p =>
    refine not_announces_append (c := 'S') ?_ (by decide) _ pid
    show ("Some(" ++ p.describe ++ ")").toList.head? = _
    simp only [String.toList_append, List.head?_append]
    rfl

theorem not_announces_invalid (d : InvalidData) (pid : Pid) : ¬ Announces
    s!"{d.pid.describe}: invalid section of {d.data.length} bytes: {d.defect.message}" pid := by
  simp only [String.append_assoc]
  exact not_announces_append (head?_describe d.pid) (by decide) _ pid

end TableListing

end TransportStream
