
namespace TransportStream.Text

def hex (width n : Nat) : String :=
  let digits := Nat.toDigits 16 n
  String.ofList (List.replicate (width - digits.length) '0' ++ digits)

def markedHex (width n : Nat) : String :=
  "0x" ++ hex width n

def option (describe : α → String) : Option α → String
  | some a => s!"Some({describe a})"
  | none => "None"

end TransportStream.Text
