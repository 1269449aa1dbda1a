import ChunkConfig.Xml.Tag

namespace ChunkConfig.Xml

/-- Cuts the input at the first byte where a machine stops, and drops that byte. There is no first
part when the machine never stops. -/
def cut {σ : Type} (step : σ → UInt8 → Option σ) : σ → Bytes → Option Bytes × Bytes
  | _, [] => (none, [])
  | s, b :: rest =>
    match step s b with
    | none => (some [], rest)
    | some s =>
      let (content, rest) := cut step s rest
      (content.map (b :: ·), rest)

theorem length_cut_le {σ : Type} (step : σ → UInt8 → Option σ) (s : σ) (input : Bytes) :
    (cut step s input).2.length ≤ input.length := by
  induction input generalizing s with
  | nil => exact Nat.le_refl _
  | cons b rest ih =>
    unfold cut
    split
    · exact Nat.le_succ _
    · exact Nat.le_succ_of_le (ih _)

/-- A tag ends at a closing bracket outside of quotes. The state is the open quote. -/
def stepTag : Option UInt8 → UInt8 → Option (Option UInt8)
  | none, b =>
    if b = ascii '>' then none
    else if b = ascii '"' ∨ b = ascii '\'' then some (some b)
    else some none
  | some quote, b => some (if b = quote then none else some quote)

/-- An instruction ends at a closing bracket after a question mark. -/
def stepInstruction (marked : Bool) (b : UInt8) : Option Bool :=
  if marked ∧ b = ascii '>' then none else some (b = ascii '?')

/-- A comment ends at a closing bracket after two dashes that are not among its first three bytes.
The state counts the bytes so far and the dashes at their end. -/
def stepComment : Nat × Nat → UInt8 → Option (Nat × Nat)
  | (size, dashes), b =>
    if 5 ≤ size ∧ 2 ≤ dashes ∧ b = ascii '>' then none
    else some (size + 1, if b = ascii '-' then dashes + 1 else 0)

/-- Character data ends at a closing bracket after two square ones. -/
def stepCdata (brackets : Nat) (b : UInt8) : Option Nat :=
  if 2 ≤ brackets ∧ b = ascii '>' then none
  else some (if b = ascii ']' then brackets + 1 else 0)

/-- A document type declaration ends at a closing bracket that no inner bracket opened. -/
def stepDoctype (depth : Nat) (b : UInt8) : Option Nat :=
  if b = ascii '>' then if depth = 0 then none else some (depth - 1)
  else if b = ascii '<' then some (depth + 1)
  else some depth

/-- Cuts off what stands between the opening bracket before the input and the closing one that
belongs to it. -/
def cutMarkup (input : Bytes) : Except MarkupFault Bytes × Bytes :=
  let finish (fault : MarkupFault) : Option Bytes × Bytes → Except MarkupFault Bytes × Bytes
    | (some raw, rest) => (.ok raw, rest)
    | (none, rest) => (.error fault, rest)
  if input.head? = some (ascii '!') then
    match input[1]? with
    | none => (.error .unknown, [])
    | some b =>
      if b = ascii '[' then finish .unclosedCdata (cut stepCdata 0 input)
      else if b = ascii '-' then finish .unclosedComment (cut stepComment (0, 0) input)
      else if b = ascii 'D' ∨ b = ascii 'd' then finish .unclosedDoctype (cut stepDoctype 0 input)
      else (.error .unknown, [])
  else if input.head? = some (ascii '?') then
    finish .unclosedInstruction (cut stepInstruction false input)
  else finish .unclosedTag (cut stepTag none input)

theorem length_cutMarkup_le (input : Bytes) : (cutMarkup input).2.length ≤ input.length := by
  have hcut {σ : Type} (step : σ → UInt8 → Option σ) (s : σ) := length_cut_le step s input
  unfold cutMarkup
  grind

/-- What follows the opening of a construct in bytes that begin with it. -/
def after? (opening : List Char) (raw : Bytes) : Option Bytes :=
  if (opening.map ascii).isPrefixOf raw then some (raw.drop opening.length) else none

def decodeContent (raw : Bytes) : Except Fault String :=
  (decodeRaw raw).mapError .content

/-- Reads what stands between `<!` and `>`. It was cut at its end, so that only its opening is
left to check. -/
def declared (position : Nat) (raw : Bytes) : Except Fault Event :=
  if raw.head? = some (ascii '[') then
    match after? "[CDATA[".toList raw with
    | none => .error (.markup position .unclosedCdata)
    | some content => .cdata <$> decodeContent (content.take (content.length - 2))
  else if raw.head? = some (ascii '-') then
    match after? "--".toList raw with
    | none => .error (.markup position .unclosedComment)
    | some content => .comment <$> decodeContent (content.take (content.length - 2))
  else
    let name := (raw.drop 7).dropWhile isSpace
    if ((raw.take 7).map fun b => (Char.ofNat b.toNat).toLower) ≠ "doctype".toList then
      .error (.markup position .unclosedDoctype)
    else if name.isEmpty then .error (.markup (position + 2 + raw.length) .unnamedDoctype)
    else .doctype <$> decodeContent name

/-- Reads what stands between `<?` and `>`. -/
def instruction (position : Nat) (raw : Bytes) : Except Fault Event :=
  if raw.isEmpty then .error (.markup position .unclosedInstruction)
  else
    let content := raw.dropLast
    let target := content.takeWhile (!isSpace ·)
    if target = "xml".toList.map ascii then .ok .declaration
    else do
      let target ← decodeContent target
      let data ← decodeContent (content.dropWhile (!isSpace ·))
      return .instruction target data

/-- Reads what stands between `</` and `>`: the name of the innermost open element. -/
def endTag (position : Nat) (opened : List String) (raw : Bytes) : Except Fault Event :=
  let name := (raw.reverse.dropWhile isSpace).reverse
  let found := (decodeRaw (if name.isEmpty then raw else name)).toOption
  match opened with
  | [] => .error (.markup position (.strayEnd (found.getD "")))
  | expected :: _ =>
    if found = some expected then .ok (.finish expected)
    else .error (.markup position (.mismatchedEnd expected (found.getD "")))

/-- Reads what stands between two brackets, the opening one being at `position`. -/
def markup (position : Nat) (opened : List String) (raw : Bytes) : Except Fault Event :=
  if raw.head? = some (ascii '!') then declared position raw.tail
  else if raw.head? = some (ascii '?') then instruction position raw.tail
  else if raw.head? = some (ascii '/') then endTag position opened raw.tail
  else tag raw

/-- Reads the events of the input from `position` on, where the elements `opened` are open, the
innermost first. -/
def scanFrom (position : Nat) (opened : List String) : Bytes → Except Fault (List Event)
  | [] => .ok []
  | b :: rest =>
    if b = ascii '<' then do
      let piece := cutMarkup rest
      let raw ← piece.1.mapError (.markup position)
      let event ← markup position opened raw
      return event :: (← scanFrom (position + raw.length + 2) (event.nest opened) piece.2)
    else do
      let raw := b :: rest.takeWhile (· ≠ ascii '<')
      let position := position + raw.length
      let content ← (decodeText raw).mapError (.text position)
      return .text content :: (← scanFrom position opened (rest.dropWhile (· ≠ ascii '<')))
termination_by input => input.length
decreasing_by
  · exact Nat.lt_succ_of_le (length_cutMarkup_le rest)
  · exact Nat.lt_succ_of_le (List.dropWhile_suffix _).length_le

/-- The events of a document. One byte order mark at its start does not count. -/
def scan (input : Bytes) : Except Fault (List Event) :=
  scanFrom 0 [] (if [0xEF, 0xBB, 0xBF].isPrefixOf input then input.drop 3 else input)

end ChunkConfig.Xml
