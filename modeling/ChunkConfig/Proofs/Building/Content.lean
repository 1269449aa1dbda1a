import ChunkConfig.Proofs.Chunk.Formed
import ChunkConfig.Proofs.Property.Effect
import ChunkConfig.Proofs.Text.Closed
import ChunkConfig.Proofs.Xml.Assembly

namespace ChunkConfig

open Xml (Attribute Node)

namespace Chunk

variable {p q : Property Chunk} {slot : Nat} {element : String}

/-- What the children of the element of a property do to it, one after the other and from a slot on.
Each text has its effect where the one before it stopped, and each other node is a problem and no
more. -/
inductive ContentEffect (element : String) :
    Property Chunk → Nat → List Node → Property Chunk → List Problem → Prop
  | nil {p : Property Chunk} {slot : Nat} : ContentEffect element p slot [] p []
  | text {p q : Property Chunk} {slot : Nat} {content : String} {vs : List (Value Chunk)}
    {filled : Property.Filled Chunk} {rest : List Node} {problems : List Problem}
    (first : p.Effect slot (Text.tokens content) vs filled)
    (others : ContentEffect element filled.property filled.next rest q problems) :
    ContentEffect element p slot (.text content :: rest) q (filled.problem.toList ++ problems)
  | other {p q : Property Chunk} {slot : Nat} {node : Node} {rest : List Node}
    {problems : List Problem} (hn : node.isText = false)
    (others : ContentEffect element p slot rest q problems) :
    ContentEffect element p slot (node :: rest) q
      (.unexpectedInValue node.kind node.name element :: problems)

theorem contentEffect_fillContent (hp : p.Typed) (slot : Nat) (element : String)
    (nodes : List Node) : ContentEffect element p slot nodes
      (fillContent p slot element nodes).value (fillContent p slot element nodes).problems := by
  induction nodes generalizing p slot with
  | nil => exact .nil
  | cons node rest ih =>
    cases node with
    | text content =>
      obtain ⟨vs, h⟩ := Property.exists_effect hp slot (Text.tokens content)
      exact .text h (ih h.typed _)
    | _ => exact .other rfl (ih hp slot)

theorem fillContent_comments (p : Property Chunk) (slot : Nat) (element : String)
    (comments : List String) (nodes : List Node) :
    fillContent p slot element (comments.map Node.comment ++ nodes) =
      ⟨(fillContent p slot element nodes).value,
        List.replicate comments.length (.unexpectedInValue .comment "#comment" element) ++
          (fillContent p slot element nodes).problems⟩ := by
  induction comments with
  | nil => rfl
  | cons comment rest ih =>
    rw [List.map_cons, List.cons_append, fillContent, ih]
    · rfl
    · nofun

/-- A text that is stored without a problem may be cut between two tokens, and comments put
there. -/
theorem fillContent_commented {text a b : String}
    (ht : Text.tokens text = Text.tokens a ++ Text.tokens b)
    (h : (fillContent p slot element [.text text]).problems = []) (comments : List String) :
    fillContent p slot element (.text a :: comments.map Node.comment ++ [.text b]) =
      ⟨(fillContent p slot element [.text text]).value,
        List.replicate comments.length (.unexpectedInValue .comment "#comment" element)⟩ := by
  have hwhole : (p.fill slot text).problem = none := by
    have hproblems : (p.fill slot text).problem.toList ++ [] = [] := h
    rw [List.append_nil] at hproblems
    exact Option.toList_eq_nil_iff.mp hproblems
  have hcut : p.fill slot text = if (p.fill slot a).problem = none then
      (p.fill slot a).property.fill (p.fill slot a).next b else p.fill slot a := by
    rw [Property.fill, ht, Property.storeTokens_append]
    rfl
  have hfirst : (p.fill slot a).problem = none := by
    by_contra hn
    rw [if_neg hn] at hcut
    exact hn (hcut ▸ hwhole)
  rw [if_pos hfirst] at hcut
  have hvalue : (fillContent p slot element [.text text]).value =
      ((p.fill slot a).property.fill (p.fill slot a).next b).property :=
    congrArg Property.Filled.property hcut
  have hlast : ((p.fill slot a).property.fill (p.fill slot a).next b).problem = none :=
    hcut ▸ hwhole
  rw [hvalue, List.cons_append, fillContent]
  simp only [fillContent_comments, hfirst, Option.toList_none]
  apply Reported.ext
  · rfl
  · rw [Reported.problems_bind, fillContent]
    simp only [hlast]
    exact List.append_nil _

end Chunk

namespace Registry

variable {r : Registry} {nested : Bool} {c : Chunk} {name : String} {s : PropertySchema}

theorem applyNode_content (hs : c.schema.property? name = some s) (hk : s.kind ≠ .embedded)
    (as : List Attribute) (cs : List Node) : r.applyNode nested c (.element name as cs) =
      c.hold name <$>
        Chunk.fillContent ((c.property? name).getD (.ofSchema s)).restart 0 name cs := by
  rw [applyNode, hs, Chunk.open?_eq hs]
  simp only [if_neg hk]
  exact bind_pure_comp ..

/-- Value text is stored token by token up to the first one that is refused, and the texts of an
element each where the one before stopped. -/
theorem exists_effect_of_text (r : Registry) (nested : Bool) :
    (∀ p : Property Chunk, p.Typed → ∀ (slot : Nat) (text : String),
      ∃ vs, p.Effect slot (Text.tokens text) vs (p.fill slot text)) ∧
    ∀ c : Chunk, c.Formed → ∀ (name : String) (s : PropertySchema),
      c.schema.property? name = some s → s.kind ≠ .embedded →
      ∀ (as : List Attribute) (cs : List Node), ∃ p q problems, c.open? name = some p ∧
        Chunk.ContentEffect name p.restart 0 cs q problems ∧
        r.applyNode nested c (.element name as cs) = ⟨c.hold name q, problems⟩ := by
  constructor
  · intro p hp slot text
    exact Property.exists_effect hp slot (Text.tokens text)
  · intro c hc name s hs hk as cs
    have ho := Chunk.open?_eq hs
    have ht : ((c.property? name).getD (.ofSchema s)).restart.Typed :=
      (Property.evolves_restart (P := fun _ => True) _).typed (hc.typed_of_open? ho)
    refine ⟨_, _, _, ho, Chunk.contentEffect_fillContent ht 0 name cs, ?_⟩
    rw [applyNode_content hs hk]
    exact Reported.ext (Reported.value_map _ _) (Reported.problems_map _ _)

/-- The levels of a gauge, of which one has a name. -/
def levelsSchema : PropertySchema :=
  { token := "levels", kind := .int, count := .variable, aliases := [⟨"low", "1"⟩] }

/-- Gauges have any number of levels and of marks. -/
def gaugeSchema : ChunkSchema :=
  { token := "Gauge", properties := [levelsSchema, { token := "marks", count := .variable }] }

/-- The levels of a gauge that has one. -/
def gaugeLevels : Property Chunk :=
  ⟨levelsSchema, [.int 5]⟩

theorem formed_gauge : (Chunk.bare gaugeSchema).Formed :=
  (Chunk.proper_bare gaugeSchema).formed (by decide)

theorem typed_gaugeLevels : gaugeLevels.Typed := by
  refine ⟨?_, nofun⟩
  intro v hv
  rw [List.mem_singleton.mp hv]
  rfl

theorem exists_effect_of_text_gauge :
    (∃ vs, gaugeLevels.Effect 3 (Text.tokens "low 7 wide 3") vs
      (gaugeLevels.fill 3 "low 7 wide 3")) ∧
    ∃ p q problems, (Chunk.bare gaugeSchema).open? "Levels" = some p ∧
      Chunk.ContentEffect "Levels" p.restart 0
        [.text "low 7 wide 3", .comment "more", .text "4"] q problems ∧
      empty.applyNode true (Chunk.bare gaugeSchema)
        (.element "Levels" [] [.text "low 7 wide 3", .comment "more", .text "4"]) =
          ⟨(Chunk.bare gaugeSchema).hold "Levels" q, problems⟩ := by
  obtain ⟨htext, helement⟩ := exists_effect_of_text empty true
  refine ⟨htext gaugeLevels typed_gaugeLevels 3 "low 7 wide 3", ?_⟩
  exact helement _ formed_gauge "Levels" levelsSchema rfl (by decide) [] _

/-- Value text may be broken at a blank outside of quotes and comments put there: the chunk comes
out the same, and each comment is a problem. -/
theorem applyNode_commented (hs : c.schema.property? name = some s) (hk : s.kind ≠ .embedded)
    (as : List Attribute) {a b : String} {w : Char} (ha : Text.closesQuotes a.toList = true)
    (hw : Text.isBlank w = true) (h : (r.applyNode nested c
      (.element name as [.text (a ++ .singleton w ++ b)])).problems = [])
    (comments : List String) :
    Text.tokens (a ++ .singleton w ++ b) = Text.tokens a ++ Text.tokens b ∧
      r.applyNode nested c (.element name as
        (.text a :: comments.map Node.comment ++ [.text (.singleton w ++ b)])) =
        ⟨(r.applyNode nested c (.element name as [.text (a ++ .singleton w ++ b)])).value,
          List.replicate comments.length (.unexpectedInValue .comment "#comment" name)⟩ := by
  have htokens := Text.tokens_append ha hw b
  constructor
  · exact htokens
  · rw [← Text.tokens_singleton_append hw b] at htokens
    rw [applyNode_content hs hk, Reported.problems_map] at h
    rw [applyNode_content hs hk, applyNode_content hs hk,
      Chunk.fillContent_commented htokens h comments]
    exact Reported.ext rfl (Reported.problems_map _ _)

theorem applyNode_commented_gauge :
    empty.applyNode true (Chunk.bare gaugeSchema) (.element "MARKS" []
        (.text "\"a b\"c d" :: ["old", "new"].map Node.comment ++
          [.text (.singleton '\t' ++ "\"e f")])) =
      ⟨(empty.applyNode true (Chunk.bare gaugeSchema) (.element "MARKS" []
          [.text ("\"a b\"c d" ++ .singleton '\t' ++ "\"e f")])).value,
        List.replicate 2 (.unexpectedInValue .comment "#comment" "MARKS")⟩ := by
  have hclosed : Text.closesQuotes "\"a b\"c d".toList = true := by decide +kernel
  have hproblems : (empty.applyNode true (Chunk.bare gaugeSchema) (.element "MARKS" []
      [.text ("\"a b\"c d" ++ .singleton '\t' ++ "\"e f")])).problems = [] := by
    decide +kernel
  have hkind : ({ token := "marks", count := .variable } : PropertySchema).kind ≠ .embedded := by
    decide
  have h := applyNode_commented (c := Chunk.bare gaugeSchema) rfl hkind [] hclosed (by decide)
    hproblems ["old", "new"]
  exact h.2

end Registry

end ChunkConfig
