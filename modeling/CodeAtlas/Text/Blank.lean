/-!
# Blank, control and case-folded characters

Three character classes decide what a file looks like to the indexer: blanks are trimmed and a
text of blanks only is skipped, control characters make a text look binary, and names are
compared without regard to case.

## Main definitions

* `CodeAtlas.Text.isBlank`, `isControl` — the Unicode properties `White_Space` and `Cc`.
* `CodeAtlas.Text.trimStart`, `trimEnd`, `trim` — a text without its outer blanks.
* `CodeAtlas.Text.foldCase` — lower case, as far as it can produce an ASCII name.
-/

set_option autoImplicit false

namespace CodeAtlas

namespace Text

/-- The characters with the Unicode property `White_Space`. -/
def isBlank (c : Char) : Bool :=
  let n := c.toNat
  (0x09 ≤ n && n ≤ 0x0D) || n == 0x20 || n == 0x85 || n == 0xA0 || n == 0x1680 ||
    (0x2000 ≤ n && n ≤ 0x200A) || n == 0x2028 || n == 0x2029 || n == 0x202F || n == 0x205F ||
    n == 0x3000

/-- The control characters (general category `Cc`): the C0 and C1 ranges and delete. -/
def isControl (c : Char) : Bool :=
  let n := c.toNat
  n ≤ 0x1F || (0x7F ≤ n && n ≤ 0x9F)

/-! ## Trimming -/

/-- The text without its leading blanks. -/
def trimStart (text : List Char) : List Char := text.dropWhile isBlank

/-- The text without its trailing blanks. -/
def trimEnd (text : List Char) : List Char := (text.reverse.dropWhile isBlank).reverse

/-- The text without its leading and trailing blanks. -/
def trim (text : List Char) : List Char := trimEnd (trimStart text)

/-- Whether a text holds blanks only. -/
def allBlank (text : String) : Bool := text.toList.all isBlank

/-! ## Case -/

/-- Lower case for comparison with ASCII names. Besides `A` to `Z` the only character whose
lower case is an ASCII letter is the Kelvin sign, so every other character may stay as it is:
a name that holds one equals no ASCII name either way. -/
def foldCase (name : String) : String :=
  name.map fun c => if c == '\u212A' then 'k' else c.toLower

end Text

end CodeAtlas
