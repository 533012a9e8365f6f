import TransportStream.Section.Basic

namespace TransportStream

structure Table.Identity where
  pid : Pid
  tableId : UInt8
  extension : Option UInt16
  version : Nat
  applicability : Applicability
  last : UInt8
deriving DecidableEq

inductive Table.Rejection
  | invalidSection (defect : Section.Defect)
  | otherTable
  | otherLast (expected actual : UInt8)
  | occupied (number : UInt8)
deriving DecidableEq, Repr

structure Table where
  identity : Option Table.Identity := none
  slots : List (Option Section) := []
  present : Nat := 0
deriving DecidableEq

namespace Table

namespace Identity

def ofSection (s : Section) : Identity where
  pid := s.pid
  tableId := s.tableId
  extension := s.extension
  version := s.version
  applicability := s.applicability
  last := s.last

/-- Whether two identities agree but for the number of the last section. -/
def sameTable (a b : Identity) : Bool :=
  a.pid == b.pid && a.tableId == b.tableId && a.extension == b.extension &&
    a.version == b.version && a.applicability == b.applicability

end Identity

def Rejection.message : Rejection → String
  | invalidSection d => s!"invalid section: {d.message}"
  | otherTable => "section does not belong to this table"
  | otherLast expected actual =>
    s!"last section number {actual} differs from the table's {expected}"
  | occupied number => s!"section {number} already present"

def empty : Table := {}

instance : Inhabited Table := ⟨empty⟩

variable (t : Table)

def isComplete : Bool := t.present != 0 && t.present == t.slots.length

def isEmpty : Bool := t.present == 0

def expectedCount : Nat := t.slots.length

def tableId : UInt8 := t.identity.elim 0 (·.tableId)

def extension : Option UInt16 := t.identity.bind (·.extension)

def version : Nat := t.identity.elim 0 (·.version)

def pid? : Option Pid := t.identity.map (·.pid)

def applicability : Applicability := t.identity.elim .current (·.applicability)

def isCurrent : Bool := t.applicability == .current

def isShort : Bool := t.identity.elim false (·.extension.isNone)

def get? (number : UInt8) : Option Section := (t.slots[number.toNat]?).join

def sections : List Section := t.slots.filterMap id

def totalSize : Nat := (t.sections.flatMap (·.bytes)).length

def reserve (id : Identity) : Table where
  identity := some id
  slots := List.replicate (id.last.toNat + 1) none
  present := 0

def place (s : Section) : Except Fault (Table × Except Rejection Bool) :=
  match t.slots[s.number.toNat]? with
  | none => .error .outOfRange
  | some (some _) => .ok (t, .error (.occupied s.number))
  | some none =>
    let filled : Table :=
      { t with slots := t.slots.set s.number.toNat (some s), present := t.present + 1 }
    .ok (filled, .ok filled.isComplete)

/-- Adds a section; says whether that completes the table, or why the section is not taken. -/
def add (s : Section) : Except Fault (Table × Except Rejection Bool) :=
  let id := Identity.ofSection s
  match s.defect, t.identity with
  | some d, _ => .ok (t, .error (.invalidSection d))
  | none, none => (reserve id).place s
  | none, some known =>
    if !known.sameTable id then .ok (t, .error .otherTable)
    else if known.last ≠ id.last then .ok (t, .error (.otherLast known.last id.last))
    else t.place s

def ofSection (s : Section) : Except Fault (Except Rejection Table) := do
  let (t, result) ← empty.add s
  return result.map fun _ ↦ t

end Table

end TransportStream
