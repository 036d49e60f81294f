/-!
# Token estimates

Budgets are counted in tokens, and a token is taken to be four characters.

## Main definitions

* `CodeAtlas.Text.tokensOfLength` — the estimate for a number of characters, rounded up.
* `CodeAtlas.Text.tokens` — the estimate for a text.
-/

set_option autoImplicit false

namespace CodeAtlas

namespace Text

/-- The tokens of a text of `length` characters: a quarter of the characters, rounded up. -/
def tokensOfLength (length : Nat) : Nat := (length + 3) / 4

/-- The estimated number of tokens of a text. -/
def tokens (text : String) : Nat := tokensOfLength text.length

/-- Longer texts have no fewer tokens. -/
theorem tokensOfLength_mono {m n : Nat} (h : m ≤ n) : tokensOfLength m ≤ tokensOfLength n := by
  unfold tokensOfLength
  omega

end Text

end CodeAtlas
