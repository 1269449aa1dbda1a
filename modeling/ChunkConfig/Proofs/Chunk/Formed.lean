import ChunkConfig.Proofs.Chunk.Lasting
import Mathlib.Data.List.Nodup

namespace ChunkConfig

theorem sublist_filterMap_map {α β : Type} {f : α → Option β} {g : β → α} {as : List α}
    (h : ∀ a ∈ as, ∀ b, f a = some b → g b = a) : ((as.filterMap f).map g).Sublist as := by
  induction as with
  | nil => exact .slnil
  | cons a as ih =>
    have hs := ih fun c hc => h c (.tail _ hc)
    cases hf : f a with
    | none =>
      rw [List.filterMap_cons_none hf]
      exact hs.cons a
    | some b =>
      rw [List.filterMap_cons_some hf, List.map_cons, h a (.head _) b hf]
      exact hs.cons_cons a

namespace Chunk

/-- What holds for every chunk, whatever is done to it. -/
structure Formed (c : Chunk) : Prop where
  distinct : c.schema.Distinct
  canonical : c.held.Canonical
  declares : c.Declares
  typed : ∀ token p, c.property? token = some p → p.Typed

variable {c : Chunk} {token : String} {p q : Property Chunk}

theorem Proper.formed (hc : c.Proper) (hs : c.schema.Distinct) : c.Formed :=
  ⟨hs, hc.canonical, hc.declares, fun token p hp => (hc.proper token p hp).typed⟩

theorem Formed.hold (hc : c.Formed) (hs : c.schema.property? token = some p.schema)
    (hp : p.Typed) : (c.hold token p).Formed :=
  ⟨hc.distinct, hc.canonical.insert _ _, hc.declares.hold hs, forall_property?_hold hc.typed hp⟩

theorem Formed.typed_of_open? (hc : c.Formed) (h : c.open? token = some p) : p.Typed := by
  rcases open?_cases h with hp | ⟨s, -, rfl⟩
  · exact hc.typed token p hp
  · exact (Property.proper_ofSchema s).typed

theorem lasting_formed : Lasting Formed where
  renamed _ _ hc := ⟨hc.distinct, hc.canonical, hc.declares, hc.typed⟩
  held c token p q hc ho he := by
    have hs : c.schema.property? token = some q.schema := by
      rw [he.schema_eq]
      exact hc.declares.of_open? ho
    exact hc.hold hs (he.typed (hc.typed_of_open? ho))

theorem Formed.key_eq (hc : c.Formed) {e : String × Property Chunk} (he : e ∈ c.held.entries) :
    e.1 = Text.fold e.2.schema.token := by
  have hs := hc.declares _ _ (hc.canonical.find?_of_mem he)
  rw [← hc.canonical.folded e he]
  exact (Text.same_iff.mp (ChunkSchema.same_of_property? hs)).symm

theorem Formed.map_key (hc : c.Formed) :
    (c.held.values.map fun p => Text.fold p.schema.token) = c.held.entries.map (·.1) := by
  rw [TokenMap.values, List.map_map]
  exact List.map_congr_left fun e he => (hc.key_eq he).symm

theorem Formed.nodup_values (hc : c.Formed) :
    (c.held.values.map fun p => Text.fold p.schema.token).Nodup := by
  rw [hc.map_key, List.nodup_iff_pairwise_ne, List.pairwise_map]
  exact hc.canonical.sorted.imp ne_of_lt

theorem Formed.mem_properties_iff (hc : c.Formed) :
    p ∈ c.properties ↔ p ∈ c.held.values := by
  constructor
  · intro hp
    exact List.mem_map.mpr ⟨_, TokenMap.mem_of_find? (hc.declares.property?_self hp), rfl⟩
  · intro hp
    obtain ⟨e, he, rfl⟩ := List.mem_map.mp hp
    exact hc.declares.mem_properties (hc.canonical.find?_of_mem he)

/-- The properties that are listed are those that are held, each of them once. -/
theorem Formed.perm_properties (hc : c.Formed) : c.properties.Perm c.held.values := by
  have h₁ := List.Nodup.of_map _ (hc.declares.nodup_properties hc.distinct)
  have h₂ := List.Nodup.of_map _ hc.nodup_values
  exact (List.perm_ext_iff_of_nodup h₁ h₂).mpr fun p => hc.mem_properties_iff

theorem Formed.sublist_properties (hc : c.Formed) :
    (c.properties.map Property.schema).Sublist c.schema.properties := by
  apply sublist_filterMap_map
  intro s hs p hp
  have hd := hc.declares _ _ hp
  rw [hc.distinct.property?_of_mem hs] at hd
  exact (Option.some.inj hd).symm

/-- What those who read a chunk can rely on. -/
structure WellFormed (c : Chunk) : Prop where
  stored : ∀ e ∈ c.held.entries, ∃ s ∈ c.schema.properties,
    e.1 = Text.fold s.token ∧ e.2.schema = s
  kinds : ∀ e ∈ c.held.entries, ∀ v ∈ e.2.values, v.kind = e.2.schema.kind
  slots : ∀ e ∈ c.held.entries, ∀ n, e.2.schema.count = .fixed n → e.2.values.length = n
  listed : c.properties.Perm c.held.values
  once : (c.properties.map fun p => Text.fold p.schema.token).Nodup
  ordered : (c.properties.map Property.schema).Sublist c.schema.properties
  found : ∀ token p, c.property? token = some p → c.schema.property? token = some p.schema

theorem Formed.wellFormed (hc : c.Formed) : c.WellFormed where
  stored e he := by
    have hs := hc.declares _ _ (hc.canonical.find?_of_mem he)
    exact ⟨e.2.schema, List.mem_of_find?_eq_some hs, hc.key_eq he, rfl⟩
  kinds e he := (hc.typed _ _ (hc.canonical.find?_of_mem he)).kind_eq
  slots e he := (hc.typed _ _ (hc.canonical.find?_of_mem he)).slots
  listed := hc.perm_properties
  once := hc.declares.nodup_properties hc.distinct
  ordered := hc.sublist_properties
  found := hc.declares

end Chunk

end ChunkConfig
