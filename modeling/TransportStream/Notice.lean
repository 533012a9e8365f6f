import TransportStream.ContinuityCounter
import TransportStream.Table

namespace TransportStream

inductive StreamRole
  | main
  | sub
deriving DecidableEq, Repr

inductive HandlerKind
  | table
  | sect
  | invalid
deriving DecidableEq, Repr

inductive Notice
  | adaptationAlone (length : Nat)
  | adaptationCrowded (length : Nat)
  | payloadEmpty
  | payloadBeyondPacket (adaptationLength : Nat)
  | discontinuitySignalled (pid : Pid)
  | duplicateIgnored (pid : Pid)
  | outOfSequence (pid : Pid) (counter last : ContinuityCounter)
  | pointerBeyondPayload (pid : Pid)
  | sectionIncomplete (pid : Pid) (size : Nat)
  | sectionTooLong (pid : Pid) (length : Nat)
  | sectionDropped (pid : Pid) (defect : Section.Defect)
  | tableReshaped (pid : Pid) (key : TableKey) (version count expected : Nat)
  | tableReplaced (pid : Pid) (key : TableKey) (version : Nat)
  | sectionChanged (pid : Pid) (number : UInt8) (key : TableKey) (version : Nat)
  | sectionRejected (pid : Pid) (rejection : Table.Rejection)
  | shortSectionRejected (pid : Pid) (rejection : Table.Rejection)
  | handlerPanicked (kind : HandlerKind) (pid : Pid)
  | noSyncByte (found : UInt8)
  | partialPacket (size : Nat)
  | intervalIgnored (pid : Pid) (ticks : Nat)
  | intervalMeasured (packets ticks : Nat)
  | windowDiscarded (count : Nat)
  | blockSkipped (position : Nat)
  | bitrateChanged (stream : StreamRole) (average bitrate : Nat)
  | accelerationEnded (waiting factor : Nat)
  | accelerationStarted (waiting main sub : Nat)
  | accelerationRaised (waiting factor : Nat)
deriving DecidableEq

def StreamRole.describe : StreamRole → String
  | main => "main"
  | sub => "sub"

def HandlerKind.describe : HandlerKind → String
  | table => "table"
  | sect => "section"
  | invalid => "invalid section"

namespace Notice

inductive Level
  | error
  | warn
  | debug
  | trace
deriving DecidableEq, Repr

def level : Notice → Level
  | handlerPanicked .. => .error
  | adaptationAlone _ | adaptationCrowded _ | payloadEmpty | payloadBeyondPacket _
  | pointerBeyondPayload _ | sectionTooLong .. | sectionRejected .. | shortSectionRejected ..
  | noSyncByte _ | partialPacket _ | blockSkipped _ => .warn
  | outOfSequence .. | sectionIncomplete .. | sectionDropped .. | tableReshaped ..
  | sectionChanged .. | intervalIgnored .. | windowDiscarded _ | bitrateChanged ..
  | accelerationEnded .. | accelerationStarted .. | accelerationRaised .. => .debug
  | discontinuitySignalled _ | duplicateIgnored _ | tableReplaced .. | intervalMeasured .. =>
    .trace

def text : Notice → String
  | adaptationAlone n => s!"invalid adaptation_field_length for AdaptationFieldOnly: {n}"
  | adaptationCrowded n =>
    s!"invalid adaptation_field_length for AdaptationFieldAndPayload: {n}"
  | payloadEmpty => "no payload data present"
  | payloadBeyondPacket n => s!"adaptation_field_length {n} too large"
  | discontinuitySignalled pid => s!"{pid}: signalled discontinuity"
  | duplicateIgnored pid => s!"{pid}: ignoring duplicate packet"
  | outOfSequence pid counter last =>
    s!"{pid}: continuity counter {counter.val} does not follow {last.val}"
  | pointerBeyondPayload pid => s!"{pid}: PSI pointer beyond end of packet payload"
  | sectionIncomplete pid size =>
    s!"{pid}: section incomplete with {size} bytes when the next section started"
  | sectionTooLong pid length =>
    s!"{pid}: section_length {length} is too large, " ++
      s!"limit is {Section.maxSize - CommonHeader.size} bytes"
  | sectionDropped pid defect => s!"{pid}: dropping section: {defect.message}"
  | tableReshaped pid key version count expected =>
    s!"{pid}: table {key.describe} version {version} now has {count} sections instead of " ++
      s!"{expected}"
  | tableReplaced pid key version =>
    s!"{pid}: table {key.describe} replaced by version {version}"
  | sectionChanged pid number key version =>
    s!"{pid}: section {number} of table {key.describe} version {version} " ++
      "changed without a version change"
  | sectionRejected pid rejection => s!"{pid}: section not added to table: {rejection.message}"
  | shortSectionRejected pid rejection =>
    s!"{pid}: short section not made into a table: {rejection.message}"
  | handlerPanicked kind pid =>
    s!"{kind.describe} handler panicked while handling pid {pid}"
  | noSyncByte found => s!"invalid sync byte {Text.markedHex 2 found.toNat}, skipping packet"
  | partialPacket size => s!"ignoring {size} bytes after the last whole packet"
  | intervalIgnored pid ticks => s!"{pid}: ignoring PCR interval of {ticks} ticks"
  | intervalMeasured packets ticks => s!"PCR interval of {packets} packets over {ticks} ticks"
  | windowDiscarded count => s!"discarding {count} packets written to a stale or stopped queue"
  | blockSkipped position => s!"skipping packet without sync byte at offset {position}"
  | bitrateChanged stream average bitrate =>
    s!"{stream.describe} bitrate changed from {average} to {bitrate} b/s, " ++
      "resetting insertion counts"
  | accelerationEnded waiting factor =>
    s!"{waiting} packets waiting, end of acceleration (factor was {factor})"
  | accelerationStarted waiting main sub =>
    s!"{waiting} packets waiting, starting acceleration at main: {main}, sub: {sub}"
  | accelerationRaised waiting factor =>
    s!"{waiting} packets waiting, acceleration factor now {factor}"

end Notice

end TransportStream
