/-!
# Text without terminal controls

A terminal takes some characters of a text for commands: control characters, and
the sequences that an escape character starts. `plain` is what is left of a text
without them, for an output that is no terminal.

Blanks are no commands and are shown. A blank among the first characters of a
sequence suspends it: what follows is shown as text, until another control
character takes the sequence up again where it stood. A new sequence, or a
character beyond the first 128, ends a suspended one for good.
-/

namespace Bisection.Terminal
set_option autoImplicit false

/-- How far a sequence is. -/
inductive Sequence where
  /-- Behind its escape character. -/
  | escape
  /-- Behind signs that lead to its last character. -/
  | signs
  /-- Among parameters, up to a letter or the like. -/
  | parameters
  /-- In a command of any length, up to a bell. -/
  | command
  /-- At the head of a string for a device. -/
  | deviceHead
  /-- Behind parameters at the head of a string for a device. -/
  | deviceParameters
  /-- Behind signs at the head of a string for a device. -/
  | deviceSigns
  /-- In a string, up to a string terminator. -/
  | string
deriving DecidableEq, Repr

/-- Where a reader of a text stands. -/
inductive Reading where
  /-- In text that is shown, where a sequence may be suspended. -/
  | text (suspended : Option Sequence)
  /-- Inside a sequence. -/
  | inside (s : Sequence)
deriving DecidableEq, Repr

/-- The character that starts a sequence. -/
def escapeChar : Char := '\x1b'

/-- Whether a character ends any sequence and is not shown itself. -/
def cancels (c : Char) : Bool := c = '\x18' || c = '\x1a'

/-- Whether a character is a blank among the control characters. -/
def isBlankControl (c : Char) : Bool := c = '\t' || c = '\n' || c = '\x0c' || c = '\r'

/-- Whether a character lies between two others, both included. -/
def isBetween (lo hi c : Char) : Bool := lo ≤ c && c ≤ hi

/-- Whether a character lies beyond the first 128. -/
def isWide (c : Char) : Bool := '\x7f' < c

/-- Whether the string terminator, the byte `9c`, is among the bytes of a character. -/
def endsString (c : Char) : Bool :=
  isWide c && (String.singleton c).toUTF8.toList.contains 0x9c

/-- Whether a blank suspends a sequence. Commands and strings take blanks in. -/
def Sequence.isSuspendable : Sequence → Bool
  | escape | signs | parameters => true
  | command | deviceHead | deviceParameters | deviceSigns | string => false

/-- What a sequence becomes with another character, unless that ends it. -/
def Sequence.next (s : Sequence) (c : Char) : Option Sequence :=
  match s with
  | escape =>
    if isBetween ' ' '/' c then some signs
    else if c = '[' then some parameters
    else if c = ']' then some command
    else if c = 'P' then some deviceHead
    else if c = 'X' ∨ c = '^' ∨ c = '_' then some string
    else if isBetween '0' '~' c then none
    else some escape
  | signs => if isBetween '0' '~' c then none else some signs
  | parameters => if isBetween '@' '~' c then none else some parameters
  | command => if c = '\x07' then none else some command
  | deviceHead =>
    if isBetween ' ' '/' c then some deviceSigns
    else if isBetween '0' '?' c then some deviceParameters
    else if isBetween '@' '~' c then some string
    else some deviceHead
  | deviceParameters =>
    if isBetween ' ' '/' c then some deviceSigns
    else if isBetween '<' '~' c then some string
    else some deviceParameters
  | deviceSigns => if isBetween '0' '~' c then some string else some deviceSigns
  | string => if endsString c then none else some string

/-- The reader behind a sequence that may have come to its end. -/
def Reading.ofSequence? : Option Sequence → Reading
  | some s => .inside s
  | none => .text none

/-- Reads a character. Tells where the reader stands then, and whether the character is shown. -/
def Reading.step (r : Reading) (c : Char) : Reading × Bool :=
  if c = escapeChar then (.inside .escape, false)
  else if cancels c then (.text none, false)
  else match r with
    | .text suspended =>
      if isWide c then (.text none, true)
      else if isBlankControl c || isBetween ' ' '~' c then (.text suspended, true)
      else (.ofSequence? suspended, false)
    | .inside s =>
      if s.isSuspendable && isBlankControl c then (.text (some s), true)
      else (.ofSequence? (s.next c), false)

/-- The characters that are shown. -/
def shown (r : Reading) : List Char → List Char
  | [] => []
  | c :: cs =>
    let (next, keep) := r.step c
    if keep then c :: shown next cs else shown next cs

/-- The text without controls. -/
def plain (s : String) : String := String.ofList (shown (.text none) s.toList)

/-- The text in the colour of what is wrong, if shown on a terminal. -/
def highlighted (s : String) : String := "\x1b[33m" ++ s ++ "\x1b[0m"

end Bisection.Terminal
