/-!
# White space

The characters that Unicode calls white space, and the texts left when they are
stripped from the ends.  The class decides where a mnemonic ends and what
surrounds an operand; the separators `001C` to `001F` and the zero-width
characters `200B` and `FEFF` are not in it.
-/

namespace I8085
namespace Text

/-- The code points of the property `White_Space`. -/
def blankCodes : List Nat :=
  [0x09, 0x0A, 0x0B, 0x0C, 0x0D, 0x20, 0x85, 0xA0, 0x1680,
   0x2000, 0x2001, 0x2002, 0x2003, 0x2004, 0x2005, 0x2006, 0x2007, 0x2008, 0x2009, 0x200A,
   0x2028, 0x2029, 0x202F, 0x205F, 0x3000]

def isBlank (c : Char) : Bool := blankCodes.contains c.toNat

def trimStart (s : List Char) : List Char := s.dropWhile isBlank

def trimEnd (s : List Char) : List Char := (s.reverse.dropWhile isBlank).reverse

/-- The text without white space at either end. -/
def trim (s : List Char) : List Char := trimEnd (trimStart s)

/-- The first word of a text: all before its first white space. -/
def firstWord (s : List Char) : List Char := s.takeWhile fun c => !isBlank c

/-- What follows the first word, beginning with the white space that ended it. -/
def afterFirstWord (s : List Char) : List Char := s.dropWhile fun c => !isBlank c

/-- The text filled up with blanks at its end to a width. -/
def padEnd (width : Nat) (s : List Char) : List Char :=
  s ++ List.replicate (width - s.length) ' '

theorem firstWord_append_afterFirstWord (s : List Char) :
    firstWord s ++ afterFirstWord s = s :=
  List.takeWhile_append_dropWhile

end Text
end I8085
