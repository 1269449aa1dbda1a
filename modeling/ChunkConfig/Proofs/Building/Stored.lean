import ChunkConfig.Proofs.Building.Restored

namespace ChunkConfig

namespace Property

/-- What a property comes back as when the tokens of its values are stored over the values of a new
chunk. -/
def stored (r : Registry) (owner : ChunkSchema) (p : Property Chunk) : Property Chunk :=
  ((r.start true owner p.schema).restart.storeTokens 0 (p.values.map Value.plainToken)).property

/-- Whether a property comes back as it was in exactly those slots whose values have a written
form. -/
def Disclosed (r : Registry) (owner : ChunkSchema) (p : Property Chunk) : Prop :=
  ∀ (i : Nat) (v : Value Chunk), p.values[i]? = some v →
    ((∃ w, (p.stored r owner).values[i]? = some w ∧ Chunk.beqValue w v = true) ↔
      v.token?.isSome = true)

/-- Whether a token stands for a value that is the same as another one exactly if that has a written
form. -/
def Resolves (p : Property Chunk) (token : String) (v : Value Chunk) : Prop :=
  ∃ w, p.coerce token = .ok w ∧ (Chunk.beqValue w v = true ↔ v.token?.isSome = true)

/-- Whether the values of a property resolve from their tokens. It has to be asked of floats and of
values whose token is a label, and all others do anyway. -/
def Resolving (p : Property Chunk) : Prop :=
  ∀ v ∈ p.values, (v.kind = .float ∨ ∃ a ∈ p.schema.aliases, a.label = v.plainToken) →
    p.Resolves v.plainToken v

/-- Every value but a float is read from its token, up to text without a written form, which is read
as empty text. -/
theorem read_plainToken {v : Value Chunk} (hk : v.kind ≠ .embedded) (hf : v.kind ≠ .float) :
    ∃ w, Value.read v.kind v.plainToken = .ok w ∧
      (Chunk.beqValue w v = true ↔ v.token?.isSome = true) := by
  cases v with
  | int n =>
    refine ⟨.int n, ?_, ?_⟩
    · simp only [Value.read, Value.kind, Value.literal?, Value.plainToken,
        Decimal.int64?_int64Text, Option.map_some]
    · rw [Chunk.beqValue]
      exact iff_of_true (beq_self_eq_true n) rfl
  | float x => exact absurd rfl hf
  | bool b =>
    refine ⟨.bool b, ?_, ?_⟩
    · cases b <;> rfl
    · rw [Chunk.beqValue]
      exact iff_of_true (beq_self_eq_true b) rfl
  | string s =>
    refine ⟨.string (Value.string s : Value Chunk).plainToken, rfl, ?_⟩
    rw [Chunk.beqValue]
    exact Value.plainText_beq_iff s
  | chunk s =>
    refine ⟨.chunk (Value.chunk s : Value Chunk).plainToken, rfl, ?_⟩
    rw [Chunk.beqValue]
    exact Value.plainText_beq_iff s
  | embedded c => exact absurd rfl hk

theorem coerce_of_literal {α : Type} {p : Property α} {token : String} {v : Value α}
    (hk : p.schema.kind ≠ .embedded) (hl : p.schema.literal token = token)
    (hv : Value.read p.schema.kind token = .ok v) : p.coerce token = .ok v := by
  rw [coerce]
  split
  · next hc =>
    rw [hc] at hv
    exact congrArg Except.ok (Except.ok.inj hv)
  · next he => exact absurd he hk
  all_goals
    rw [PropertySchema.resolve, hl, hv]
    rfl

theorem resolves_of_unlabelled {p : Property Chunk} {v : Value Chunk}
    (hv : v.kind = p.schema.kind) (hk : v.kind ≠ .embedded) (hf : v.kind ≠ .float)
    (ha : ∀ a ∈ p.schema.aliases, a.label ≠ v.plainToken) : p.Resolves v.plainToken v := by
  have hliteral : p.schema.literal v.plainToken = v.plainToken := by
    have hnone : p.schema.aliases.find? (fun a => a.label = v.plainToken) = none := by
      rw [List.find?_eq_none]
      intro a hm hlabel
      exact ha a hm (of_decide_eq_true hlabel)
    rw [PropertySchema.literal, hnone]
    rfl
  obtain ⟨w, hw, hiff⟩ := read_plainToken hk hf
  rw [hv] at hw hk
  exact ⟨w, coerce_of_literal hk hliteral hw, hiff⟩

/-- A property whose values resolve from their tokens is stored value by value. -/
theorem Resolving.disclosed {r : Registry} (hr : r.Sound) {owner : ChunkSchema}
    {p : Property Chunk} (hb : r.schema? owner.token = some owner)
    (hs : owner.property? p.schema.token = some p.schema) (hp : p.Proper)
    (hk : p.schema.kind ≠ .embedded) (h : p.Resolving) : p.Disclosed r owner := by
  obtain ⟨hstart, hq⟩ := Registry.start_spec hr hb hs true
  have hall : ∀ v ∈ p.values, p.Resolves v.plainToken v := by
    intro v hv
    by_cases hasked : v.kind = .float ∨ ∃ a ∈ p.schema.aliases, a.label = v.plainToken
    · exact h v hv hasked
    · obtain ⟨hf, ha⟩ := not_or.mp hasked
      apply resolves_of_unlabelled (hp.kind_eq v hv) (hp.not_embedded hk v hv) hf
      intro a hm hlabel
      exact ha ⟨a, hm, hlabel⟩
  have hread : p.Readable := by
    intro v hv _
    obtain ⟨w, hw, -⟩ := hall v hv
    exact ⟨w, hw⟩
  intro i v hv
  have hm := List.mem_of_getElem? hv
  obtain ⟨w, hw, hiff⟩ := hall v hm
  have hvalue : (p.stored r owner).values[i]? = some w := by
    obtain rfl := Except.ok.inj (hw.symm.trans (hread.coerce_eq hm (hp.not_embedded hk v hm)))
    have hi : i < (p.values.map p.schema.restored).length := by
      rw [List.length_map]
      exact (List.getElem?_eq_some_iff.mp hv).1
    rw [stored, storeTokens_plainTokens hstart hp hq hk hread, overlay_zero]
    simp only [List.getElem?_append_left hi, List.getElem?_map, hv, Option.map_some]
  rw [hvalue, ← hiff]
  constructor
  · rintro ⟨u, hu, hb⟩
    obtain rfl := Option.some.inj hu
    exact hb
  · exact fun hb => ⟨w, rfl, hb⟩

end Property

end ChunkConfig
