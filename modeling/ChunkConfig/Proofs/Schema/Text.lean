import ChunkConfig.Files
import ChunkConfig.Proofs.Schema.Laid
import ChunkConfig.Proofs.Schema.Templates
import ChunkConfig.Proofs.Xml.RoundTrip

namespace ChunkConfig

open Xml (Attribute Element Node ProperTag)

theorem writable_helpElements (help : String) : ∀ d ∈ helpElements help, d.node.Writable := by
  intro d hd
  rw [helpElements] at hd
  split at hd
  · cases hd
  · rw [List.mem_singleton.mp hd]
    exact ⟨.of_names "help" [] rfl rfl (by decide), trivial,
      fun h => Bool.false_ne_true h.1, trivial⟩

theorem writable_labelElement (label : String) : (labelElement label).node.Writable :=
  Element.writable [] (.of_names "label" ["name"] rfl rfl (by decide)) rfl
    fun _ hd => absurd hd List.not_mem_nil

theorem Alias.writable_element (a : Alias) : a.element.node.Writable := by
  have ht : ProperTag a.element.name a.element.attributes := by
    rcases a.attributes_eq with ⟨-, ha⟩ | ha
    · rw [ha]
      exact .of_names "enumeration" ["name"] rfl rfl (by decide)
    · rw [ha]
      exact .of_names "enumeration" ["name", "value"] rfl rfl (by decide)
  exact Element.writable [] ht rfl fun _ hd => absurd hd List.not_mem_nil

theorem PropertySchema.writable_element (p : PropertySchema) : p.element.node.Writable := by
  have ht : ProperTag p.element.name p.element.attributes := by
    obtain ⟨token, givenName, kind, count, aliases, labels, help, audience⟩ := p
    cases audience
    · exact .of_names "PropertyDesc" ["token", "name", "type", "num"] rfl rfl (by decide)
    · exact .of_names "PropertyDesc" ["token", "name", "type", "num", "userlevel"] rfl rfl
        (by decide)
  apply Element.writable _ ht rfl
  intro d hd
  rw [List.mem_append, List.mem_append] at hd
  rcases hd with (hd | hd) | hd
  · obtain ⟨label, -, rfl⟩ := List.mem_map.mp hd
    exact writable_labelElement label
  · obtain ⟨a, -, rfl⟩ := List.mem_map.mp hd
    exact a.writable_element
  · exact writable_helpElements p.help d hd

theorem ChunkSchema.writable_element {s : ChunkSchema}
    (hs : ∀ e, s.defaults = some e → e.node.Writable) : s.element.node.Writable := by
  have ht : ProperTag s.element.name s.element.attributes :=
    .of_names "ChunkDesc" ["token", "name"] rfl rfl (by decide)
  apply Element.writable _ ht rfl
  intro d hd
  rw [List.mem_append, List.mem_append] at hd
  rcases hd with (hd | hd) | hd
  · exact writable_helpElements s.help d hd
  · obtain ⟨p, -, rfl⟩ := List.mem_map.mp hd
    exact p.writable_element
  · obtain ⟨e, he, rfl⟩ := List.mem_map.mp hd
    have ht : ProperTag "Defaults" [] := .of_names "Defaults" [] rfl rfl (by decide)
    apply Element.writable [e] ht rfl
    intro c hc
    rw [List.mem_singleton.mp hc]
    exact hs e (Option.mem_toList.mp he)

namespace Catalog

theorem topWritable {c : Catalog} (hc : ∀ s ∈ c, ∀ e, s.defaults = some e → e.node.Writable) :
    Xml.TopWritable [c.root.node] := by
  intro d hd
  rw [List.mem_singleton.mp hd]
  have ht : ProperTag "ChunkDescDB" [] := .of_names "ChunkDescDB" [] rfl rfl (by decide)
  refine ⟨Element.writable _ ht rfl ?_, rfl⟩
  intro e he
  obtain ⟨s, hs, rfl⟩ := List.mem_map.mp he
  exact ChunkSchema.writable_element (hc s hs)

theorem read_write {c : Catalog} (hd : ∀ s ∈ c, s.Described)
    (hc : ∀ s ∈ c, ∀ e, s.defaults = some e → e.node.Writable) (options : Xml.WriteOptions) :
    Catalog.read (Text.encode (c.write options)) =
      .ok (pure (c.map (ChunkSchema.reread options.indent 3))) := by
  rw [read, write, document_eq, Xml.readDocument_write options (topWritable hc)]
  exact congrArg Except.ok (ofNode_laid hd options.indent)

/-- A catalog that was read can be written and read again when the names in its templates are names
of XML and no template holds a document type. -/
theorem described_of_read {source : Bytes} {c : Reported Catalog} (h : Catalog.read source = .ok c)
    (hn : ∀ s ∈ c.value, ∀ e, s.defaults = some e → e.node.Named) :
    (∀ s ∈ c.value, s.Described) ∧
      ∀ s ∈ c.value, ∀ e, s.defaults = some e → e.node.Writable := by
  obtain ⟨node, hr, rfl⟩ := exists_of_map_eq_ok h
  obtain ⟨cs, rfl, hs⟩ := Xml.siblings_of_readDocument_eq hr
  refine ⟨fun s hm => described_of_ofNode _ hm, fun s hm e he => ?_⟩
  rw [ofNode] at hm
  exact (templateParsed_of_ofNodes hs.parsed hm e he).writable (hn s hm e he)

end Catalog

end ChunkConfig
