import ChunkConfig.Proofs.Decimal.Plain
import ChunkConfig.Value

namespace ChunkConfig.Value

variable {α : Type}

/-- What stands between quotes for a value, or would if there were quotes. A value that has no
written form is written as the empty token. -/
def plainToken : Value α → String
  | int n => Decimal.int64Text n
  | float x => Decimal.floatText x
  | bool b => if b then "true" else "false"
  | string s | chunk s => if (Text.quote? s).isSome then s else ""
  | embedded _ => ""

/-- The token under which a value is written. -/
def writtenToken (v : Value α) : String :=
  v.token?.getD "\"\""

theorem quote?_plainToken {v : Value α} (h : v.kind ≠ .embedded) :
    Text.quote? v.plainToken = some v.writtenToken := by
  cases v with
  | int n => exact Decimal.quote?_int64Text n
  | float x => exact Decimal.quote?_floatText x
  | bool b =>
    have hf : Text.quote? "false" = some "false" := by decide
    have ht : Text.quote? "true" = some "true" := by decide
    cases b
    · exact hf
    · exact ht
  | string s | chunk s =>
    have he : Text.quote? "" = some "\"\"" := by decide
    cases hq : Text.quote? s <;>
      simp only [plainToken, writtenToken, token?, hq, he, Option.isSome_none, Option.isSome_some,
        Bool.false_eq_true, if_false, if_true, Option.getD_none, Option.getD_some]
  | embedded c => exact absurd rfl h

theorem tokens_intercalate_writtenToken {vs : List (Value α)} (h : ∀ v ∈ vs, v.kind ≠ .embedded) :
    Text.tokens (" ".intercalate (vs.map writtenToken)) = vs.map plainToken := by
  apply Text.tokens_intercalate
  rw [List.map_map, List.map_map]
  exact List.map_congr_left fun v hv => quote?_plainToken (h v hv)

/-- Text has a written form exactly if what is written for it stands for it. -/
theorem plainText_beq_iff (s : String) :
    ((if (Text.quote? s).isSome then s else "") == s) = true ↔ (Text.quote? s).isSome = true := by
  by_cases h : (Text.quote? s).isSome = true
  · rw [if_pos h]
    exact iff_of_true (beq_self_eq_true s) h
  · rw [if_neg h]
    apply iff_of_false _ h
    intro he
    rw [← eq_of_beq he] at h
    exact h (by decide)

end ChunkConfig.Value
