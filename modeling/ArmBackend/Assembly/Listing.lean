import ArmBackend.Assembly.Transfer

/-!
# Listings

Assembly text under construction, with a count of its instructions and directives. Code, lines in
any words and other listings can be added to it.
-/

namespace ArmBackend

structure Listing where
  indent : Nat
  text : String := ""
  /-- Instructions and directives so far. -/
  count : Nat := 0

namespace Listing

/-! ## Lines of a text -/

/-- A carriage return before the newline belongs to the line end. -/
def dropReturn : List Char → List Char
  | '\r' :: line => line
  | line => line

/-- The lines of a text, each from its last character to its first. `line` is the line so far. A line
ends at a newline, and what follows the last newline is a line unless it is empty. -/
def reversedLines (line : List Char) : List Char → List (List Char)
  | [] => if line.isEmpty then [] else [line]
  | '\n' :: rest => dropReturn line :: reversedLines [] rest
  | c :: rest => reversedLines (c :: line) rest

/-- The number of lines that define no label. -/
def countInstructions (text : String) : Nat :=
  (reversedLines [] text.toList).countP (·.head? != some ':')

/-! ## Building -/

/-- An indented line in any words. -/
def instruction (listing : Listing) (line : String) : Listing :=
  { listing with
    text := listing.text ++ Code.pad listing.indent ++ line ++ "\n"
    count := listing.count + 1 }

/-- A label definition in any words. -/
def label (listing : Listing) (name : String) : Listing :=
  { listing with text := listing.text ++ name ++ ":\n" }

/-- A branch on a condition code in any words. -/
def branchIf (listing : Listing) (cond label : String) : Listing :=
  listing.instruction s!"b.{cond} {label}"

def write (listing : Listing) (code : Code) : Listing :=
  { listing with
    text := listing.text ++ code.render listing.indent
    count := listing.count + code.size }

/-- Adds text that is formatted already. -/
def writeText (listing : Listing) (text : String) : Listing :=
  { listing with
    text := listing.text ++ text
    count := listing.count + countInstructions text }

def append (listing other : Listing) : Listing :=
  { listing with
    text := listing.text ++ other.text
    count := listing.count + other.count }

/-- An empty listing with the same indentation. -/
def fork (listing : Listing) : Listing := ⟨listing.indent, "", 0⟩

def isEmpty (listing : Listing) : Bool := listing.text.isEmpty

end Listing

end ArmBackend
