import TransportStream.TableListing

namespace TransportStream.CommandLine

def failureCode : UInt32 := 101

def isShown (n : Notice) : Bool :=
  n.level == .error || n.level == .warn

def print : Except Fault (List String × List Notice) → IO UInt32
  | .error fault => do
    IO.eprintln (fault.message.getD "the clock references of the file are damaged")
    return failureCode
  | .ok (lines, notices) => do
    for n in notices do
      if isShown n then IO.eprintln n.text
    for line in lines do
      IO.println line
    return 0

def readFile? (name : String) : IO (Option ByteArray) := do
  try return some (← IO.FS.readBinFile name) catch _ => return none

def listTables (name : String) : IO UInt32 := do
  match ← readFile? name with
  | some data => print (TableListing.lines data.toList).run
  | none =>
    IO.eprintln s!"file not found: {name}"
    return failureCode

end TransportStream.CommandLine

def main (args : List String) : IO UInt32 :=
  match args with
  | [] => do
    IO.eprintln "usage: dump-sections <file.ts>"
    return TransportStream.CommandLine.failureCode
  | name :: _ => TransportStream.CommandLine.listTables name
