import ChunkConfig.Proofs.Chunk.Hold
import ChunkConfig.Proofs.Chunk.Node
import ChunkConfig.Proofs.Xml.Legible

namespace ChunkConfig

open Xml (Attribute Element EnclosedTag Node)

namespace Property

variable {p : Property Chunk}

theorem allBlank_writtenTokens (h : p.writtenTokens ≠ []) :
    Text.allBlank (" ".intercalate p.writtenTokens) = false := by
  rw [Bool.eq_false_iff]
  intro hb
  have ht := Text.tokens_of_allBlank hb
  rw [writtenTokens, Value.tokens_intercalate_writtenToken, List.map_eq_nil_iff] at ht
  · rw [writtenTokens, ht] at h
    exact h rfl
  · intro v hv
    exact of_decide_eq_true (List.mem_filter.mp hv).2

/-- Whether anything is written for the values. Only for empty slots for chunks there is nothing. -/
def IsWritten (p : Property Chunk) : Prop :=
  ∃ v ∈ p.values, v ≠ .embedded none

theorem isWritten_iff : p.IsWritten ↔ ¬ (p.contents = [] ∧ p.writtenTokens = []) := by
  rw [contents, writtenTokens, List.map_eq_nil_iff, List.filterMap_eq_nil_iff,
    List.filter_eq_nil_iff]
  constructor
  · rintro ⟨v, hv, hn⟩ ⟨hc, hk⟩
    refine hn (Value.eq_embedded_none ?_ (by rw [Value.isFilled, hc v hv]; rfl))
    by_contra hne
    exact hk v hv (decide_eq_true hne)
  · intro h
    by_contra hn
    have hv : ∀ v ∈ p.values, v = .embedded none := by
      intro v hv
      by_contra hne
      exact hn ⟨v, hv, hne⟩
    refine h ⟨fun v hm => ?_, fun v hm => ?_⟩
    · rw [hv v hm]
      rfl
    · rw [hv v hm]
      exact Bool.false_ne_true

end Property

namespace Chunk

/-- Whether the tags of a chunk and of its properties are cut off where they end. -/
def Enclosed (c : Chunk) : Prop :=
  Xml.Enclosed c.schema.token ∧ ∀ p ∈ c.properties, Xml.Enclosed p.schema.token

/-- Whether the tags of a chunk and of its properties are read back. A slash at the end of a token
is lost when the tag has no attributes and is not closed at once. -/
structure Legible (c : Chunk) : Prop where
  token : Xml.Legible c.schema.token
  properties : ∀ p ∈ c.properties, Xml.Legible p.schema.token
  slash : ∀ p ∈ c.properties, p.IsWritten → p.schema.token.toList.getLast? ≠ some '/'

theorem enclosed_content {name : String} {as : List Attribute} {nodes : List Node}
    (tag : EnclosedTag name as) (h : ∀ c ∈ nodes, c.Enclosed) (tokens : List String) :
    (Node.element name as (content nodes tokens)).Enclosed := by
  rw [content]
  split
  · exact .elements tag h
  · exact .text tag h _

theorem enclosed_node {c : Chunk} (h : c.Throughout Enclosed) : c.node.value.Enclosed := by
  induction h with
  | @intro c here _ ih =>
    have hname : ∀ a ∈ [Attribute.mk "name" c.name], Xml.isName a.name = true :=
      List.forall_mem_singleton.mpr (by decide : Xml.isName "name" = true)
    rw [value_node]
    refine .elements ⟨here.1, hname, List.pairwise_singleton _ _⟩ fun d hd => ?_
    obtain ⟨p, hp, rfl⟩ := List.mem_map.mp hd
    refine enclosed_content (here.2 p hp).tag (fun e he => ?_) _
    obtain ⟨d, hd, rfl⟩ := List.mem_map.mp he
    exact ih d (embeds_of_mem_properties hp hd)

theorem Proper.embeds_iff {c d : Chunk} (hc : c.Proper) :
    c.Embeds d ↔ ∃ p ∈ c.properties, d ∈ p.contents := by
  constructor
  · rintro ⟨e, he, hd⟩
    exact ⟨e.2, hc.declares.mem_properties (hc.canonical.find?_of_mem he), hd⟩
  · rintro ⟨p, hp, hd⟩
    exact embeds_of_mem_properties hp hd

theorem isBlankText_node (c : Chunk) : c.node.value.isBlankText = false := by
  rw [value_node]
  rfl

theorem all_isBlankText_children (p : Property Chunk) :
    (propertyElement p).children.all Node.isBlankText = false ↔ p.IsWritten := by
  rw [Property.isWritten_iff, ← Bool.not_eq_true, not_iff_not, propertyElement, content]
  split
  · next ht =>
    rw [List.isEmpty_iff.mp ht]
    cases p.contents with
    | nil => exact iff_of_true rfl ⟨rfl, rfl⟩
    | cons c cs =>
      rw [List.map_cons, List.all_cons, isBlankText_node, Bool.false_and]
      exact iff_of_false Bool.false_ne_true fun h => List.cons_ne_nil c cs h.1
  · next ht =>
    rw [List.isEmpty_iff] at ht
    rw [List.all_append, List.all_cons, Node.isBlankText, Property.allBlank_writtenTokens ht,
      Bool.false_and, Bool.and_false]
    exact iff_of_false Bool.false_ne_true fun h => ht h.2

theorem legible_propertyElement (p : Property Chunk) :
    (∀ e ∈ (propertyElement p).node.events, e.Legible) ↔
      Xml.Legible p.schema.token ∧
        (p.IsWritten → p.schema.token.toList.getLast? ≠ some '/') ∧
        ∀ d ∈ p.contents, ∀ e ∈ d.node.value.events, e.Legible := by
  have hcontent : (∀ c ∈ (propertyElement p).children, ∀ e ∈ c.events, e.Legible) ↔
      ∀ d ∈ p.contents, ∀ e ∈ d.node.value.events, e.Legible := by
    rw [propertyElement, content]
    split
    · exact List.forall_mem_map
    · rw [List.forall_mem_append, List.forall_mem_singleton, List.forall_mem_map]
      exact and_iff_left (Xml.legible_events_text _)
  rw [Element.node, Xml.legible_events_element, hcontent, all_isBlankText_children]
  exact and_congr_right' (and_congr_left' (forall_prop_of_true rfl))

/-- The tags of a chunk are read back when those of all chunks below it are. -/
theorem legible_node {c : Chunk} (h : c.Throughout Proper) :
    (∀ e ∈ c.node.value.events, e.Legible) ↔ c.Throughout Legible := by
  induction h with
  | @intro c here _ ih =>
    have hprops : (∀ d ∈ c.properties.map fun p => (propertyElement p).node,
        ∀ e ∈ d.events, e.Legible) ↔ ∀ p ∈ c.properties, Xml.Legible p.schema.token ∧
          (p.IsWritten → p.schema.token.toList.getLast? ≠ some '/') ∧
          ∀ d ∈ p.contents, d.Throughout Legible := by
      rw [List.forall_mem_map]
      refine forall₂_congr fun p hp => ?_
      rw [legible_propertyElement]
      exact and_congr_right' (and_congr_right' (forall₂_congr fun d hd =>
        ih d (embeds_of_mem_properties hp hd)))
    rw [value_node, Xml.legible_events_element, hprops]
    constructor
    · rintro ⟨ht, -, hp⟩
      refine .intro ⟨ht, fun p hm => (hp p hm).1, fun p hm => (hp p hm).2.1⟩ fun d hd => ?_
      obtain ⟨p, hm, hd⟩ := here.embeds_iff.mp hd
      exact (hp p hm).2.2 d hd
    · intro hl
      refine ⟨hl.here.token, nofun, fun p hp => ?_⟩
      exact ⟨hl.here.properties p hp, hl.here.slash p hp,
        fun d hd => hl.embedded (embeds_of_mem_properties hp hd)⟩

end Chunk

end ChunkConfig
