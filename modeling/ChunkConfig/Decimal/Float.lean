import ChunkConfig.Decimal.Integer
import ChunkConfig.Decimal.Shortest
import ChunkConfig.Text.Folding

namespace ChunkConfig.Decimal

def infinity : Float := .ofBits 0x7FF0000000000000

def notANumber : Float := .ofBits 0x7FF8000000000000

/-- The text of a float: the fewest digits that read back, never with an exponent. -/
def floatText (x : Float) : String :=
  let bits := x.toBits
  let exponent := (bits >>> 52 &&& 0x7FF).toNat
  let fraction := (bits &&& 0xFFFFFFFFFFFFF).toNat
  let sign := if bits < 0x8000000000000000 then "" else "-"
  if exponent = 0x7FF then
    if fraction = 0 then sign ++ "inf" else "NaN"
  else if exponent = 0 then
    if fraction = 0 then sign ++ "0"
    else sign ++ (Rounding.ofBinary fraction (-1074) false).shortest.positional
  else
    let significand := 0x10000000000000 + fraction
    let narrow := fraction = 0 ∧ 1 < exponent
    sign ++ (Rounding.ofBinary significand (exponent - 1075) narrow).shortest.positional

/-- The float nearest to a decimal number. What is far out of range is settled by its size alone,
so that no power of ten larger than needed is ever computed. -/
def Scientific.toFloat (d : Scientific) : Float :=
  let magnitude := (toString d.digits).length + d.exponent
  if d.digits = 0 ∨ magnitude < -330 then 0
  else if 310 < magnitude then infinity
  else .ofScientific d.digits (d.exponent < 0) d.exponent.natAbs

/-- The exponent part of a literal: nothing, or a mark and a signed number. -/
def exponent? : List Char → Option Int
  | [] => some 0
  | c :: cs => if c = 'e' ∨ c = 'E' then integer? cs else none

/-- Digits with at most one point among them or at an end, then an exponent part. -/
def scientific? (cs : List Char) : Option Scientific :=
  let front := cs.takeWhile Char.isDigit
  let rest := cs.dropWhile Char.isDigit
  let (fraction, rest) :=
    match rest with
    | '.' :: after => (after.takeWhile Char.isDigit, after.dropWhile Char.isDigit)
    | _ => ([], rest)
  match natural? (front ++ fraction), exponent? rest with
  | some n, some e => some ⟨n, e - fraction.length⟩
  | _, _ => none

def float? (s : String) : Option Float :=
  let (negative, rest) := splitSign s.toList
  let magnitude :=
    match Text.fold (.ofList rest) with
    | "inf" | "infinity" => some infinity
    | "nan" => some notANumber
    | _ => (scientific? rest).map Scientific.toFloat
  magnitude.map fun x => if negative then -x else x

end ChunkConfig.Decimal
