import ChunkConfig.Proofs.Building.Content

namespace ChunkConfig

open Xml (Attribute Node)

/-- Whether a node gives a value text for the property of a name: an attribute, other than that for
the name of the chunk, or an element with one text in it. -/
inductive Xml.Node.GivesText : Node → String → String → Prop
  | attr {a : Attribute} (h : Text.same a.name "name" = false) : GivesText (.attr a) a.name a.value
  | element (name : String) (as : List Attribute) (text : String) :
    GivesText (.element name as [.text text]) name text

namespace Property

variable {α : Type} {p : Property α}

theorem fill_of_rejected (hk : p.schema.kind ≠ .embedded) (slot : Nat) {text token : String}
    {rest : List String} (ht : Text.tokens text = token :: rest)
    (hm : p.schema.meaning? (α := α) token = none) : p.fill slot text =
      ⟨p, slot, some (.invalidLiteral p.schema.token
        (.invalidLiteral p.schema.kind (p.schema.literal token)))⟩ := by
  rw [fill, ht, storeTokens, coerce_of_meaningless hk hm]

theorem values_restart (p : Property α) :
    p.restart.values = if p.schema.count = .variable then [] else p.values := by
  cases hc : p.schema.count with
  | fixed n =>
    rw [restart_of_fixed hc, if_neg nofun]
  | «variable» => rw [restart_of_variable hc, if_pos rfl]

theorem restart_eq_self_iff :
    p.restart = p ↔ (p.schema.count = .variable → p.values = []) := by
  constructor
  · intro h hc
    rw [← h, values_restart, if_pos hc]
  · intro h
    cases hc : p.schema.count with
    | fixed n => exact restart_of_fixed hc
    | «variable» => rw [restart_of_variable hc, ← h hc]

theorem restart_ofSchema (s : PropertySchema) :
    (ofSchema s : Property α).restart = ofSchema s := by
  rw [restart_eq_self_iff, schema_ofSchema]
  intro hc
  rw [ofSchema, hc]

end Property

namespace Registry

variable {r : Registry} {nested : Bool} {c : Chunk} {node : Node} {name text : String}
  {s : PropertySchema}

theorem applyNode_of_givesText (hn : node.GivesText name text)
    (hs : c.schema.property? name = some s) (hk : s.kind ≠ .embedded) :
    r.applyNode nested c node =
      c.fill ((c.property? name).getD (.ofSchema s)).restart name text := by
  cases hn with
  | @attr a hname =>
    rw [applyNode, Chunk.applyAttribute, if_neg (Bool.eq_false_iff.mp hname), hs,
      Chunk.open?_eq hs]
    simp only [if_neg hk]
  | element as =>
    rw [applyNode_content hs hk, Chunk.fillContent]
    apply Reported.ext
    · rfl
    · rw [Reported.problems_map, Reported.problems_bind, Chunk.fillContent]
      exact List.append_nil _

/-- Text whose first token stands for no value is one problem, and the chunk holds the property as
it is when it is about to be filled. -/
theorem applyNode_of_rejected {p : Property Chunk} (ho : c.open? name = some p)
    (hn : node.GivesText name text) (hs : c.schema.property? name = some p.schema)
    (hk : p.schema.kind ≠ .embedded) {token : String} {rest : List String}
    (ht : Text.tokens text = token :: rest) (hm : p.schema.meaning? (α := Chunk) token = none) :
    r.applyNode nested c node = ⟨c.hold name p.restart, [.invalidLiteral p.schema.token
      (.invalidLiteral p.schema.kind (p.schema.literal token))]⟩ := by
  have hp : (c.property? name).getD (.ofSchema p.schema) = p :=
    Option.some.inj ((Chunk.open?_eq hs).symm.trans ho)
  have hfill := p.restart.fill_of_rejected (p.schema_restart.symm ▸ hk) 0 ht
    (p.schema_restart.symm ▸ hm)
  rw [applyNode_of_givesText hn hs hk, hp, Chunk.fill, hfill, p.schema_restart]
  rfl

/-- Text whose first token stands for no value leaves a property of fixed count as it is, and one of
variable count empty. -/
theorem values_kept_iff_of_rejected (r : Registry) (nested : Bool) (hc : c.Formed)
    (hn : node.GivesText name text) (hs : c.schema.property? name = some s)
    (hk : s.kind ≠ .embedded) {token : String} {rest : List String}
    (ht : Text.tokens text = token :: rest) (hm : s.meaning? (α := Chunk) token = none) :
    ∃ q, r.applyNode nested c node = ⟨c.hold name q,
        [.invalidLiteral s.token (.invalidLiteral s.kind (s.literal token))]⟩ ∧
      (∀ p, c.property? name = some p →
        q.values = (if s.count = .variable then [] else p.values) ∧
          (q = p ↔ (s.count = .variable → p.values = []))) ∧
      (c.property? name = none → q = .ofSchema s) := by
  obtain ⟨p, ho, rfl⟩ := hc.declares.exists_open? hs
  have hp : (c.property? name).getD (.ofSchema p.schema) = p :=
    Option.some.inj ((Chunk.open?_eq hs).symm.trans ho)
  refine ⟨p.restart, applyNode_of_rejected ho hn hs hk ht hm, ?_, ?_⟩
  · intro held hheld
    rw [hheld, Option.getD_some] at hp
    rw [hp]
    exact ⟨p.values_restart, Property.restart_eq_self_iff⟩
  · intro hnone
    rw [hnone, Option.getD_none] at hp
    rw [← hp, Property.schema_ofSchema, Property.restart_ofSchema]

/-- A gauge with one level. -/
def levelledGauge : Chunk :=
  (Chunk.bare gaugeSchema).hold "levels" gaugeLevels

theorem formed_levelledGauge : levelledGauge.Formed :=
  formed_gauge.hold rfl typed_gaugeLevels

theorem values_kept_iff_of_rejected_gauge :
    ∃ q, empty.applyNode true levelledGauge (.attr ⟨"LEVELS", "wide low"⟩) =
        ⟨levelledGauge.hold "LEVELS" q,
          [.invalidLiteral "levels" (.invalidLiteral .int "wide")]⟩ ∧
      (∀ p, levelledGauge.property? "LEVELS" = some p →
        q.values = (if levelsSchema.count = .variable then [] else p.values) ∧
          (q = p ↔ (levelsSchema.count = .variable → p.values = []))) ∧
      (levelledGauge.property? "LEVELS" = none → q = .ofSchema levelsSchema) := by
  have hn : (Node.attr ⟨"LEVELS", "wide low"⟩).GivesText "LEVELS" "wide low" := .attr (by decide)
  have ht : Text.tokens "wide low" = ["wide", "low"] := by decide +kernel
  exact values_kept_iff_of_rejected empty true formed_levelledGauge hn rfl (by decide) ht rfl

/-- Text that gives no level takes away the level that the gauge had, although the only problem is
that it gives none. -/
theorem not_kept_gauge : ¬ ∀ (r : Registry) (nested : Bool) (c : Chunk), c.Formed →
    ∀ (node : Node) (name text : String), node.GivesText name text → ∀ s : PropertySchema,
      c.schema.property? name = some s → s.kind ∈ [.int, .float, .bool] →
      ∀ (token : String) (rest : List String), Text.tokens text = token :: rest →
        s.meaning? (α := Chunk) token = none →
        ∀ p q, c.property? name = some p →
          (r.applyNode nested c node).value.property? name = some q → q.values = p.values := by
  intro h
  have hn : (Node.attr ⟨"levels", "wide"⟩).GivesText "levels" "wide" := .attr (by decide)
  have ht : Text.tokens "wide" = ["wide"] := by decide +kernel
  have hs : levelledGauge.schema.property? "levels" = some levelsSchema := rfl
  have hafter : empty.applyNode true levelledGauge (.attr ⟨"levels", "wide"⟩) =
      ⟨levelledGauge.hold "levels" ⟨levelsSchema, []⟩, _⟩ :=
    applyNode_of_rejected (p := gaugeLevels) rfl hn hs (by decide) ht rfl
  have hkept := h empty true levelledGauge formed_levelledGauge _ _ _ hn levelsSchema hs
    (by decide) "wide" [] ht rfl gaugeLevels ⟨levelsSchema, []⟩ rfl (by rw [hafter]; rfl)
  exact List.cons_ne_nil _ _ hkept.symm

end Registry

end ChunkConfig
