/-!
# Blank characters

The characters with the white space property, and texts without them at their ends.
-/

namespace MarketVerdict.Text

/-- The ranges of characters that are white space. -/
def blankRanges : List (Nat × Nat) :=
  [(0x09, 0x0D), (0x20, 0x20), (0x85, 0x85), (0xA0, 0xA0), (0x1680, 0x1680), (0x2000, 0x200A),
    (0x2028, 0x2029), (0x202F, 0x202F), (0x205F, 0x205F), (0x3000, 0x3000)]

def isBlank (c : Char) : Bool := blankRanges.any fun (lo, hi) => lo ≤ c.toNat && c.toNat ≤ hi

def trimStart (cs : List Char) : List Char := cs.dropWhile isBlank

def trimEnd (cs : List Char) : List Char := (cs.reverse.dropWhile isBlank).reverse

def trim (s : String) : String := String.ofList (trimEnd (trimStart s.toList))

def isBlankText (s : String) : Bool := s.toList.all isBlank

/-- The letters `A` to `Z` in lower case; every other character stays. -/
def lowerLetters (s : String) : String := s.map Char.toLower

end MarketVerdict.Text
