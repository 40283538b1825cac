namespace ToolBatching.Text

/-- Characters with the property White_Space. -/
def blanks : List Nat :=
  [0x9, 0xA, 0xB, 0xC, 0xD, 0x20, 0x85, 0xA0, 0x1680,
    0x2000, 0x2001, 0x2002, 0x2003, 0x2004, 0x2005, 0x2006, 0x2007, 0x2008, 0x2009, 0x200A,
    0x2028, 0x2029, 0x202F, 0x205F, 0x3000]

def isBlank (c : Char) : Bool :=
  blanks.contains c.toNat

/-- Space, tab, line feed, form feed and carriage return. -/
def isAsciiBlank (c : Char) : Bool :=
  c == ' ' || c == '\t' || c == '\n' || c == '\x0c' || c == '\r'

/-- Drop the elements at the end that satisfy `p`. -/
def dropEndWhile (p : Char → Bool) (text : List Char) : List Char :=
  (text.reverse.dropWhile p).reverse

def trim (text : List Char) : List Char :=
  dropEndWhile isBlank (text.dropWhile isBlank)

end ToolBatching.Text
