import TransportStream.Demux.Status
import TransportStream.Traced

namespace TransportStream

structure TableAssembly where
  table : Table := .empty
  delivered : Bool := false
deriving DecidableEq

namespace TableAssembly

instance : Inhabited TableAssembly := ⟨{}⟩

variable (a : TableAssembly)

def sameVersion (s : Section) : Bool :=
  a.table.version == s.version && a.table.applicability == s.applicability

def sameShape (s : Section) : Bool :=
  a.table.expectedCount == s.last.toNat + 1

def isReshapedBy (s : Section) : Bool :=
  !a.table.isEmpty && a.sameVersion s && !a.sameShape s

def isReplacedBy (s : Section) : Bool :=
  !a.table.isEmpty && !(a.sameVersion s && a.sameShape s)

def checkShape (pid : Pid) (watch : Bool) (s : Section) : Traced (List Problem) :=
  if a.isReshapedBy s then do
    Traced.note (.tableReshaped pid s.key s.version (s.last.toNat + 1) a.table.expectedCount)
    return if watch then [.invalidVersion] else []
  else return []

def renew (pid : Pid) (s : Section) : Traced TableAssembly :=
  if a.isReplacedBy s then do
    Traced.note (.tableReplaced pid s.key s.version)
    return {}
  else return a

def checkRepetition (pid : Pid) (watch : Bool) (known s : Section) : Traced (List Problem) :=
  if watch && !known.sameContent s then do
    Traced.note (.sectionChanged pid s.number s.key s.version)
    return [.invalidVersion]
  else return []

/-- Adds a section; gives the table if that makes it complete for the first time. -/
def collect (pid : Pid) (s : Section) : Traced (TableAssembly × Option Table) := do
  let (table, result) ← a.table.add s
  match result with
  | .ok complete =>
    if complete && !a.delivered then return ({ table, delivered := true }, some table)
    else return ({ a with table }, none)
  | .error rejection =>
    Traced.note (.sectionRejected pid rejection)
    return ({ a with table }, none)

/-- Takes a valid long section; gives the problems that it shows, and the table if it makes it
complete for the first time. -/
def receive (pid : Pid) (watch : Bool) (s : Section) :
    Traced (TableAssembly × List Problem × Option Table) := do
  let problems ← a.checkShape pid watch s
  if a.isReshapedBy s && a.delivered then return (a, problems, none)
  else
    let fresh ← a.renew pid s
    match fresh.table.get? s.number with
    | some known => return (fresh, problems ++ (← checkRepetition pid watch known s), none)
    | none =>
      let (next, table) ← fresh.collect pid s
      return (next, problems, table)

end TableAssembly

end TransportStream
