import CodeAtlas.Text.Blank

/-!
# Texts that look binary

A text looks binary if the first eight kilobytes hold a NUL, or more than one control character
in ten. Tabs and line ends are ordinary.

## Main definitions

* `CodeAtlas.Text.sample` — the characters that lie wholly within the first bytes.
* `CodeAtlas.Text.looksBinary` — the test.
-/

set_option autoImplicit false

namespace CodeAtlas

namespace Text

/-- The number of bytes that the test looks at. -/
def sampleBytes : Nat := 8 * 1024

/-- The leading characters that fit wholly into `budget` bytes. -/
def sample : Nat → List Char → List Char
  | _, [] => []
  | budget, c :: rest =>
    if c.utf8Size ≤ budget then c :: sample (budget - c.utf8Size) rest else []

/-- Whether a character counts against a text: a control character that is no tab or line end. -/
def isSuspicious (c : Char) : Bool :=
  isControl c && c != '\t' && c != '\n' && c != '\r'

/-- Whether a text looks binary: its sample holds a NUL, or more than a tenth of it is
suspicious. -/
def looksBinary (text : String) : Bool :=
  let chars := sample sampleBytes text.toList
  chars.contains '\x00' || chars.length < chars.countP isSuspicious * 10

end Text

end CodeAtlas
