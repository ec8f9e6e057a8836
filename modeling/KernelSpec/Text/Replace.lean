/-! # Replacing a token in a text

Occurrences are found from left to right and do not overlap; the inserted text is not searched
again.
-/

namespace KernelSpec.Text

/-- Replaces the token after skipping characters that belong to an occurrence already replaced. -/
def replaceFrom (token new : List Char) : Nat → List Char → List Char
  | _, [] => []
  | skip + 1, _ :: rest => replaceFrom token new skip rest
  | 0, c :: rest =>
    if token.isPrefixOf (c :: rest) then new ++ replaceFrom token new (token.length - 1) rest
    else c :: replaceFrom token new 0 rest

/-- The text with every occurrence of the token replaced. -/
def replaceAll (token new text : List Char) : List Char := replaceFrom token new 0 text

theorem replaceFrom_length (token new skipped text : List Char) :
    replaceFrom token new skipped.length (skipped ++ text) = replaceFrom token new 0 text := by
  induction skipped with
  | nil => rfl
  | cons c rest ih => simpa [replaceFrom] using ih

/-- An occurrence at the head is replaced as a whole. -/
theorem replaceAll_token_append (new text : List Char) (t : Char) (token : List Char) :
    replaceAll (t :: token) new (t :: token ++ text) = new ++ replaceAll (t :: token) new text := by
  have found : (t :: token).isPrefixOf (t :: (token ++ text)) = true := by simp
  simp [replaceAll, replaceFrom, found, replaceFrom_length]

/-- A character at which no occurrence starts stays. -/
theorem replaceAll_cons_of_not_isPrefixOf {token : List Char} (new : List Char) {c : Char}
    {text : List Char} (absent : token.isPrefixOf (c :: text) = false) :
    replaceAll token new (c :: text) = c :: replaceAll token new text := by
  simp [replaceAll, replaceFrom, absent]

end KernelSpec.Text
