import ChunkConfig.Proofs.Schema.Described
import ChunkConfig.Proofs.Xml.Parsed

namespace ChunkConfig

open Xml (Node Element)

theorem parsed_child {e : Element} (he : e.node.Parsed) {c : Node} (hc : c ∈ e.children) :
    c.Parsed := by
  cases he with
  | element _ hcs _ => exact hcs c hc

namespace ChunkSchema

/-- The template of a chunk type is an element of a document that was read. -/
def TemplateParsed (s : ChunkSchema) : Prop :=
  ∀ e, s.defaults = some e → e.node.Parsed

theorem TemplateParsed.applyElement {s : ChunkSchema} (hs : s.TemplateParsed) {e : Element}
    (he : e.node.Parsed) : (s.applyElement e).value.TemplateParsed := by
  rw [ChunkSchema.applyElement]
  split
  · simp only [Reported.value_bind]
    split
    · exact hs
    · split
      · exact hs
      · exact hs
  · split
    · exact hs
    · split
      · unfold applyTemplates
        split
        · exact hs
        · next template extras ht =>
          intro d hd
          cases hd
          have hm : template ∈ e.children.filterMap Node.element? := ht ▸ .head _
          obtain ⟨c, hc, hce⟩ := List.mem_filterMap.mp hm
          have hp := parsed_child he hc
          cases c with
          | element name as cs =>
            cases hce
            exact hp
          | _ => cases hce
      · exact hs

theorem templateParsed_of_ofElement {e : Element} (he : e.node.Parsed) {s : ChunkSchema}
    (h : (ofElement e).value = some s) : s.TemplateParsed := by
  unfold ofElement at h
  simp only at h
  split at h
  · cases h
  · cases h
    refine value_applyElements e.children (fun s d hd hs => ?_) fun d hd => by cases hd
    exact hs.applyElement (parsed_child he hd)

theorem templateParsed_of_ofNode {node : Node} (hn : node.Parsed) {s : ChunkSchema}
    (h : (ofNode node).value = some s) : s.TemplateParsed := by
  cases hn with
  | element hd hc ha =>
    rw [ofNode] at h
    split at h
    · exact templateParsed_of_ofElement (.element hd hc ha) h
    · cases h
  | text | comment | instruction | other => cases h

end ChunkSchema

namespace Catalog

theorem templateParsed_of_ofChildren {nodes : List Node} (hn : ∀ c ∈ nodes, c.Parsed)
    {s : ChunkSchema} (h : s ∈ (ofChildren nodes).value) : s.TemplateParsed := by
  induction nodes with
  | nil => exact absurd h List.not_mem_nil
  | cons node rest ih =>
    rcases List.mem_append.mp h with h | h
    · exact ChunkSchema.templateParsed_of_ofNode (hn node (.head _)) (Option.mem_toList.mp h)
    · exact ih (fun c hc => hn c (.tail _ hc)) h

theorem templateParsed_of_ofNodes {nodes : List Node} (hn : ∀ c ∈ nodes, c.Parsed)
    {s : ChunkSchema} (h : s ∈ (ofNodes nodes).value) : s.TemplateParsed := by
  induction nodes with
  | nil => exact absurd h List.not_mem_nil
  | cons node rest ih =>
    rcases List.mem_append.mp h with h | h
    · cases hn node (.head _) with
      | element hd hc ha =>
        rw [ofNode] at h
        split at h
        · exact templateParsed_of_ofChildren hc h
        · exact absurd h List.not_mem_nil
      | text | comment | instruction | other => exact absurd h List.not_mem_nil
    · exact ih (fun c hc => hn c (.tail _ hc)) h

end Catalog

end ChunkConfig
