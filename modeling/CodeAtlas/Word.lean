/-!
# Words

Line counters and the whole numbers of the data formats are words of 64 bits.

## Main definitions

* `CodeAtlas.Word.values` — the number of words.
* `CodeAtlas.Word.isSigned` — whether a whole number fits into a word with a sign.
-/

set_option autoImplicit false

namespace CodeAtlas

namespace Word

/-- The number of words. -/
def values : Nat := Nat.pow 2 64

/-- The number of words with a minus sign; as many have none. -/
def half : Nat := Nat.pow 2 63

/-- Whether a whole number fits into a word with a sign. -/
def isSigned (n : Int) : Bool := -(half : Int) ≤ n && n < (half : Int)

end Word

end CodeAtlas
