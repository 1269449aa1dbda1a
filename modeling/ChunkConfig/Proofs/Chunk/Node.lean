import ChunkConfig.Proofs.Chunk.Nested
import ChunkConfig.Proofs.Value
import ChunkConfig.Proofs.Xml.Parsed
import ChunkConfig.Writing

namespace ChunkConfig

open Xml (Attribute Element Node ProperTag)

theorem Reported.value_mapM {α β : Type} (f : α → Reported β) (as : List α) :
    (as.mapM f).value = as.map fun a => (f a).value := by
  induction as with
  | nil => rfl
  | cons a as ih => simp only [List.mapM_cons, Reported.value_bind, Reported.value_pure, ih,
      List.map_cons]

/-- The tokens under which the values of a property are written. -/
def Property.writtenTokens {α : Type} (p : Property α) : List String :=
  (p.values.filter (·.kind ≠ .embedded)).map Value.writtenToken

namespace Chunk

theorem value_tokenOf (owner property : String) (index : Nat) (v : Value Chunk) :
    (tokenOf owner property index v).value = v.writtenToken := by
  unfold tokenOf Value.writtenToken
  cases v.token? <;> rfl

theorem value_valueNodes (owner property : String) (index : Nat) (vs : List (Value Chunk)) :
    (valueNodes owner property index vs).value =
      ((vs.filterMap Value.content?).map fun c => c.node.value,
        (vs.filter (·.kind ≠ .embedded)).map Value.writtenToken) := by
  induction vs generalizing index with
  | nil => rw [valueNodes]; rfl
  | cons v vs ih =>
    rcases v with _ | _ | _ | _ | _ | _ | c
    all_goals
      simp only [valueNodes, Reported.value_bind, Reported.value_pure, ih, value_tokenOf]
      rfl

/-- The element of a property. -/
def propertyElement (p : Property Chunk) : Element :=
  ⟨p.schema.token, [], content (p.contents.map fun c => c.node.value) p.writtenTokens⟩

/-- The element of a property, with the problems in it. -/
def propertyNode (owner : String) (p : Property Chunk) : Reported Node := do
  let (chunks, tokens) ← valueNodes owner p.schema.token 0 p.values
  return .element p.schema.token [] (content chunks tokens)

theorem value_propertyNode (owner : String) (p : Property Chunk) :
    (propertyNode owner p).value = (propertyElement p).node := by
  rw [propertyNode]
  simp only [Reported.value_bind, Reported.value_pure, value_valueNodes]
  rfl

theorem lookup_propertyNodes (owner : String) (entries : List (String × Property Chunk))
    (key : String) :
    (propertyNodes owner entries).lookup key = (entries.lookup key).map (propertyNode owner) := by
  induction entries with
  | nil => rw [propertyNodes]; rfl
  | cons e rest ih =>
    obtain ⟨k, schema, vs⟩ := e
    rw [propertyNodes, List.lookup_cons, List.lookup_cons]
    split
    · rfl
    · exact ih

theorem node_eq (c : Chunk) : c.node = do
    let children ← (c.properties.map (propertyNode c.name)).mapM id
    return .element c.schema.token [⟨"name", c.name⟩] children := by
  obtain ⟨schema, name, ⟨entries⟩⟩ := c
  rw [node]
  simp only [properties, property?, TokenMap.find?, List.map_filterMap, lookup_propertyNodes]

theorem value_node (c : Chunk) : c.node.value =
    .element c.schema.token [⟨"name", c.name⟩]
      (c.properties.map fun p => (propertyElement p).node) := by
  rw [node_eq]
  simp only [Reported.value_bind, Reported.value_pure, Reported.value_mapM, List.map_map, id,
    Function.comp_def, value_propertyNode]

/-- Whether the names of the elements of a chunk are names of XML. -/
def Named (c : Chunk) : Prop :=
  Xml.isName c.schema.token = true ∧ ∀ p ∈ c.properties, Xml.isName p.schema.token = true

theorem embeds_of_mem_properties {c d : Chunk} {p : Property Chunk} (hp : p ∈ c.properties)
    (hd : d ∈ p.contents) : c.Embeds d := by
  obtain ⟨s, -, hs⟩ := List.mem_filterMap.mp hp
  exact embeds_of_property? hs hd

theorem allWritable_content {nodes : List Node} (h : ∀ c ∈ nodes, c.Writable ∧ c.isText = false)
    (tokens : List String) : Xml.AllWritable false (content nodes tokens) := by
  rw [content]
  split
  · exact Xml.allWritable_of_elements h false
  · induction nodes with
    | nil => exact ⟨trivial, fun hn => Bool.false_ne_true hn.1, trivial⟩
    | cons c cs ih =>
      obtain ⟨hc, ht⟩ := h c (.head _)
      rw [List.cons_append, Xml.AllWritable, ht]
      exact ⟨hc, fun hn => Bool.false_ne_true hn.1, ih fun d hd => h d (.tail _ hd)⟩

/-- The element of a chunk can be written and read again. -/
theorem writable_node {c : Chunk} (h : c.Throughout Named) :
    c.node.value.Writable ∧ c.node.value.isText = false := by
  induction h with
  | @intro c here _ ih =>
    rw [value_node]
    refine ⟨⟨.of_names _ ["name"] rfl rfl ⟨here.1, by decide⟩,
      Xml.allWritable_of_elements (fun d hd => ?_) false⟩, rfl⟩
    obtain ⟨p, hp, rfl⟩ := List.mem_map.mp hd
    refine ⟨⟨.of_names _ [] rfl rfl ⟨here.2 p hp, by decide⟩,
      allWritable_content (fun d hd => ?_) _⟩, rfl⟩
    obtain ⟨e, he, rfl⟩ := List.mem_map.mp hd
    exact ih e (embeds_of_mem_properties hp he)

end Chunk

end ChunkConfig
