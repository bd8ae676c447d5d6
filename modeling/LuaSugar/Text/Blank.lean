/-!
# Blank text

A text is blank if it has nothing but white space in it. White space is the Unicode property
White_Space, which is wider than the blanks of the dialect.
-/

namespace LuaSugar.Text

/-- The code points with the property White_Space. -/
def whiteSpace : List Nat :=
  [0x9, 0xa, 0xb, 0xc, 0xd, 0x20, 0x85, 0xa0, 0x1680, 0x2000, 0x2001, 0x2002, 0x2003, 0x2004,
    0x2005, 0x2006, 0x2007, 0x2008, 0x2009, 0x200a, 0x2028, 0x2029, 0x202f, 0x205f, 0x3000]

/-- Whether a text is empty or white space throughout. -/
def isBlank (text : String) : Bool := text.toList.all fun c => whiteSpace.contains c.toNat

end LuaSugar.Text
