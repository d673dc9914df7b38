/-!
# Blank characters

The blank characters are those with the Unicode property `White_Space`: twenty-five characters,
written here as the ten ranges of code points that hold them.

## Main definitions

* `blankRanges` — the ranges, each given by its first and its last code point.
* `isBlank` — membership in one of them.
-/

namespace Abacus

/-- The code points with the property `White_Space`, as ranges from first to last. -/
def blankRanges : List (Nat × Nat) :=
  [(0x0009, 0x000D), (0x0020, 0x0020), (0x0085, 0x0085), (0x00A0, 0x00A0), (0x1680, 0x1680),
    (0x2000, 0x200A), (0x2028, 0x2029), (0x202F, 0x202F), (0x205F, 0x205F), (0x3000, 0x3000)]

/-- A character that separates tokens and means nothing. -/
def isBlank (c : Char) : Bool :=
  blankRanges.any fun (first, last) => first ≤ c.toNat && c.toNat ≤ last

example : (blankRanges.map fun (first, last) => last + 1 - first).sum = 25 := rfl

end Abacus
