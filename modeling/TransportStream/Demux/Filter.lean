import TransportStream.Demux.Status
import TransportStream.PidSet

namespace TransportStream

inductive FilterChange
  | add (pid : Pid)
  | remove (pid : Pid)
deriving DecidableEq

namespace FilterChange

/-- Whether the change leaves `pid` in the filter, if it is about `pid`. -/
def decides? (pid : Pid) : FilterChange → Option Bool
  | add p => if p = pid then some true else none
  | remove p => if p = pid then some false else none

def apply (filter : PidSet) : FilterChange → PidSet
  | add p => filter.insert p
  | remove p => filter.erase p

def removes (pid : Pid) (c : FilterChange) : Bool :=
  c = remove pid

end FilterChange

structure DemuxView where
  status : Status := {}
  filter : PidSet := {}
  requests : List FilterChange := []
deriving DecidableEq

namespace DemuxView

instance : Inhabited DemuxView := ⟨{}⟩

variable (v : DemuxView)

def requested? (pid : Pid) : Option Bool :=
  v.requests.reverse.findSome? (FilterChange.decides? pid)

/-- Whether `pid` is in the filter once the requests have taken effect. -/
def hasPid (pid : Pid) : Bool :=
  (v.requested? pid).getD (v.filter.contains pid)

def request (change : FilterChange) : DemuxView :=
  { v with requests := v.requests ++ [change] }

def settle : DemuxView :=
  { v with filter := v.requests.foldl FilterChange.apply v.filter, requests := [] }

theorem contains_apply (filter : PidSet) (c : FilterChange) (pid : Pid) :
    (c.apply filter).contains pid = (c.decides? pid).getD (filter.contains pid) := by
  cases c with
  | add p =>
    by_cases h : p = pid
    · simp [FilterChange.apply, FilterChange.decides?, PidSet.contains_insert, h]
    · simp [FilterChange.apply, FilterChange.decides?, PidSet.contains_insert, h, Ne.symm h]
  | remove p =>
    by_cases h : p = pid
    · simp [FilterChange.apply, FilterChange.decides?, PidSet.contains_erase, h]
    · simp [FilterChange.apply, FilterChange.decides?, PidSet.contains_erase, h, Ne.symm h]

theorem contains_settle (pid : Pid) : v.settle.filter.contains pid = v.hasPid pid := by
  obtain ⟨status, filter, requests⟩ := v
  simp only [settle, hasPid, requested?]
  induction requests generalizing filter with
  | nil => rfl
  | cons c rest ih =>
    rw [List.foldl_cons, ih, contains_apply, List.reverse_cons, List.findSome?_append]
    cases List.findSome? (FilterChange.decides? pid) rest.reverse <;> simp

end DemuxView

end TransportStream
