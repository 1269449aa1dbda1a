namespace ChunkConfig.Text

/-- How a character stands in the text of an element. -/
def escapeTextChar : Char → List Char
  | '&' => "&amp;".toList
  | '<' => "&lt;".toList
  | '>' => "&gt;".toList
  | c => [c]

/-- How a character of escaped text stands between double quotes on one line. -/
def escapeQuotedChar : Char → List Char
  | '"' => "&quot;".toList
  | '\n' => "&#xA;".toList
  | c => [c]

/-- The form of text in an element. Text that holds nothing to replace is not copied. -/
def escapeText (s : String) : String :=
  if s.toList.any ['&', '<', '>'].contains then .ofList (s.toList.flatMap escapeTextChar) else s

/-- The form of an attribute value between double quotes. The second pass is left out when there is
nothing for it to replace. What it replaces is not in the references that the first one writes. -/
def escapeAttribute (s : String) : String :=
  if s.toList.any ['"', '\n'].contains then
    .ofList ((escapeText s).toList.flatMap escapeQuotedChar)
  else escapeText s

end ChunkConfig.Text
