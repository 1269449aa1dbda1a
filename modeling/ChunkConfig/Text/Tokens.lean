import ChunkConfig.Text.Blank

namespace ChunkConfig.Text

/-- Cuts value text into tokens. Blanks separate tokens. A token that begins with a quote runs to
the next quote, or to the end of the text, and does not include the quotes. -/
def splitTokens : List Char → List (List Char)
  | [] => []
  | c :: cs =>
    if isBlank c then splitTokens cs
    else if c = '"' then
      cs.takeWhile (· ≠ '"') :: splitTokens ((cs.dropWhile (· ≠ '"')).drop 1)
    else
      (c :: cs.takeWhile (!isBlank ·)) :: splitTokens (cs.dropWhile (!isBlank ·))
termination_by cs => cs.length
decreasing_by
  · exact Nat.lt_succ_self _
  · have h := (List.dropWhile_suffix (l := cs) (· ≠ '"')).length_le
    rw [List.length_drop, List.length_cons]
    omega
  · exact Nat.lt_succ_of_le (List.dropWhile_suffix _).length_le

def tokens (s : String) : List String :=
  (splitTokens s.toList).map .ofList

/-- The written form of one token. A token is quoted when it is empty or holds a blank. One that
holds a quote cannot be quoted: it stands bare, unless it holds a blank or begins with the quote,
and then it has no written form. -/
def quoteToken? (cs : List Char) : Option (List Char) :=
  if cs.contains '"' then
    if cs.any isBlank || cs.head? == some '"' then none else some cs
  else if cs.any isBlank || cs.isEmpty then
    some ('"' :: cs ++ ['"'])
  else
    some cs

def quote? (s : String) : Option String :=
  (quoteToken? s.toList).map .ofList

end ChunkConfig.Text
