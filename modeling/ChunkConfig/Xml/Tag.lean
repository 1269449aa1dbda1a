import ChunkConfig.Xml.Event
import ChunkConfig.Xml.Fault

namespace ChunkConfig.Xml

/-- The blanks of markup. -/
def isSpace (b : UInt8) : Bool :=
  b = 0x20 || b = 0x09 || b = 0x0D || b = 0x0A

def ascii (c : Char) : UInt8 :=
  c.toUInt8

/-- The string that bytes write, without a look at references. -/
def decodeRaw (raw : Bytes) : Except Text.Utf8Fault String :=
  (Text.decode raw).map .ofList

/-- The string that bytes write, with references replaced. -/
def decodeText (raw : Bytes) : Except TextFault String :=
  match Text.decode raw with
  | .error e => .error (.encoding e)
  | .ok cs =>
    match Text.expand cs with
    | .error e => .error (.reference e)
    | .ok cs => .ok (.ofList cs)

def decodeAttribute (key value : Bytes) : Except AttributeFault Attribute :=
  match decodeRaw key with
  | .error e => .error (.key e)
  | .ok name =>
    match decodeText value with
    | .error e => .error (.value e)
    | .ok value => .ok ⟨name, value⟩

/-- A key ends before the first equals sign or blank after its first byte. -/
def inKey (b : UInt8) : Bool :=
  b ≠ ascii '=' && !isSpace b

/-- The key has to be followed by an equals sign. What follows it are the last bytes of a tag of
`size` bytes. -/
def checkEquals (size : Nat) (afterKey : Bytes) : Except AttributeFault Unit :=
  if afterKey.head? = some (ascii '=') then .ok ()
  else .error (.noEquals (size - afterKey.length))

/-- A tag has no key twice. The keys that came before stand with their positions. -/
def checkNew (earlier : List (Bytes × Nat)) (key : Bytes) (position : Nat) :
    Except AttributeFault Unit :=
  match earlier.lookup key with
  | some previous => .error (.repeated position previous)
  | none => .ok ()

/-- Cuts a quoted value off the front of the last bytes of a tag of `size` bytes. -/
def cutValue (size : Nat) : Bytes → Except AttributeFault Bytes × Bytes
  | [] => (.error (.noValue size), [])
  | quote :: rest =>
    if quote = ascii '"' ∨ quote = ascii '\'' then
      let after := rest.dropWhile (· ≠ quote)
      (if after.isEmpty then .error (.unclosed size (.ofNat quote.toNat))
        else .ok (rest.takeWhile (· ≠ quote)), after.tail)
    else (.error (.unquoted (size - (rest.length + 1))), rest)

theorem length_cutValue_le (size : Nat) (input : Bytes) :
    (cutValue size input).2.length ≤ input.length := by
  cases input with
  | nil => exact Nat.le_refl _
  | cons quote rest =>
    have h := (List.dropWhile_suffix (l := rest) (· ≠ quote)).length_le
    simp only [cutValue, List.length_cons]
    split
    · exact Nat.le_succ_of_le (Nat.le_trans (Nat.le_of_eq List.length_tail) (by omega))
    · exact Nat.le_succ _

/-- Reads the attributes in the last bytes of a tag of `size` bytes. -/
def attributes (size : Nat) (earlier : List (Bytes × Nat)) :
    Bytes → Except AttributeFault (List Attribute)
  | [] => .ok []
  | b :: rest =>
    if isSpace b then attributes size earlier rest
    else do
      let key := b :: rest.takeWhile inKey
      let position := size - (rest.length + 1)
      let afterKey := (rest.dropWhile inKey).dropWhile isSpace
      let value := cutValue size (afterKey.tail.dropWhile isSpace)
      checkEquals size afterKey
      checkNew earlier key position
      let a ← decodeAttribute key (← value.1)
      return a :: (← attributes size ((key, position) :: earlier) value.2)
termination_by input => input.length
decreasing_by
  · exact Nat.lt_succ_self _
  · have hk := (List.dropWhile_suffix (l := rest) inKey).length_le
    have he := (List.dropWhile_suffix (l := rest.dropWhile inKey) isSpace).length_le
    have hv := (List.dropWhile_suffix
      (l := ((rest.dropWhile inKey).dropWhile isSpace).tail) isSpace).length_le
    have hc := length_cutValue_le size
      (((rest.dropWhile inKey).dropWhile isSpace).tail.dropWhile isSpace)
    simp only [List.length_tail, List.length_cons] at *
    omega

/-- Reads a tag from what stands between its angle brackets. -/
def tag (raw : Bytes) : Except Fault Event :=
  let isEmpty := raw.getLast? = some (ascii '/')
  let raw := if isEmpty then raw.dropLast else raw
  match decodeRaw (raw.takeWhile (!isSpace ·)) with
  | .error e => .error (.tagName e)
  | .ok name =>
    match attributes raw.length [] (raw.dropWhile (!isSpace ·)) with
    | .error e => .error (.attributes e)
    | .ok as => .ok (if isEmpty then .empty name as else .start name as)

end ChunkConfig.Xml
