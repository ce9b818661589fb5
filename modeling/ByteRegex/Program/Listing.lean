import ByteRegex.ByteSet.Ranges
import ByteRegex.Program.Basic

/-!
# Listings

The text of a program: an empty line, then a line for each instruction with its address in base 16,
its name and its operands.
-/

namespace ByteRegex

def addressText (address : Nat) : String :=
  Text.hex 5 address

def Instr.text : Instr → String
  | accept => "MATCH"
  | byte b => "CHAR " ++ Text.hexByte b
  | any => "ANY_BYTE"
  | oneOf s => "CLASS " ++ s.text
  | split id first second =>
    "SPLIT(" ++ toString id ++ ") " ++ addressText first ++ " " ++ addressText second
  | jump target => "JUMP " ++ addressText target
  | save slot => "SAVE " ++ toString slot
  | textStart => "START"
  | textEnd => "END"
  | roundStart loop => "ITER_START(" ++ toString loop ++ ")"
  | roundEnd loop exit => "ITER_END(" ++ toString loop ++ ") " ++ addressText exit

namespace Program

def lineText (address : Nat) (instr : Instr) : String :=
  addressText address ++ ": " ++ instr.text ++ "\n"

def listingOf (instrs : Array Instr) : String :=
  instrs.zipIdx.foldl (fun text (instr, address) => text ++ lineText address instr) "\n"

def listing (p : Program) : String :=
  listingOf p.instrs

end Program

end ByteRegex
