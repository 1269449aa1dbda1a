import ChunkConfig.Proofs.Registry.Obtained
import ChunkConfig.Proofs.Registry.Registered
import ChunkConfig.Proofs.Schema.RoundTrip

namespace ChunkConfig

open Xml (Node)

namespace Chunk

/-- Whether the type of a chunk is one that a document can describe. -/
def Described (c : Chunk) : Prop :=
  c.schema.Described

/-- Whether the properties of fixed count that a chunk holds have as many slots as they declare, and
no more than a description may ask for. -/
def Limited (c : Chunk) : Prop :=
  ∀ e ∈ c.held.entries, ∀ n, e.2.schema.count = .fixed n →
    e.2.values.length = n ∧ n ≤ SlotCount.limit

theorem Formed.limited {c : Chunk} (hc : c.Formed) (hs : c.Described) : c.Limited := by
  intro e he n hn
  have hw := hc.wellFormed
  obtain ⟨s, hm, -, rfl⟩ := hw.stored e he
  exact ⟨hw.slots e he n hn, (hs.properties _ hm).count_le n hn⟩

end Chunk

namespace Registry

/-- A registry in which nothing was registered but what documents describe. -/
def Documented (r : Registry) : Prop :=
  ∃ batches : List Catalog, r = registerAll batches ∧
    ∀ batch ∈ batches, ∀ s ∈ batch, ∃ node, s ∈ (Catalog.ofNode node).value

/-- Nothing comes of what documents describe but chunks of described types that are formed. -/
theorem Documented.bears {r : Registry} (h : r.Documented) :
    r.Bears Chunk.Formed ∧ r.Bears Chunk.Described := by
  obtain ⟨batches, rfl, hb⟩ := h
  have hdescribed : ∀ batch ∈ batches, ∀ s ∈ batch, s.Described := by
    intro batch hm s hs
    obtain ⟨node, hnode⟩ := hb batch hm s hs
    exact Catalog.described_of_ofNode node hnode
  have hdeclared : ∀ batch ∈ batches, ∀ s ∈ batch, s.Declared :=
    fun batch hm s hs => (hdescribed batch hm s hs).declared
  refine ⟨(reached_registerAll hdeclared).bears_formed, (bears_registered hdeclared).mono ?_⟩
  intro c hc
  obtain ⟨batch, hm, hs⟩ := List.mem_flatten.mp hc
  exact hdescribed batch hm c.schema hs

/-- The types that a document describes have tokens and names to be used by, and no chunk that comes
of such types, at any depth, has more slots of a fixed count than there may be. -/
theorem limited_of_described :
    (∀ node, ∀ s ∈ (Catalog.ofNode node).value, s.Described ∧ Text.allBlank s.name = false ∧
      ∀ p ∈ s.properties, Text.allBlank p.name = false) ∧
    ∀ c : Chunk, c.ComesOf Documented → c.Throughout Chunk.Limited := by
  constructor
  · intro node s hs
    have hd := Catalog.described_of_ofNode node hs
    refine ⟨hd, ?_, ?_⟩
    · rw [ChunkSchema.name_eq hd]
      exact hd.name_visible
    · intro p hp
      have hp := hd.properties p hp
      rw [PropertySchema.name_eq hp]
      exact hp.name_visible
  · intro c hc
    have hformed := Chunk.lasting_formed.of_comesOf (fun _ hr => hr.bears.1) hc
    have htypes := (Chunk.lasting_schema _).of_comesOf (fun _ hr => hr.bears.2) hc
    exact (hformed.and htypes).mono fun _ hd => hd.1.limited hd.2

/-- A type of banks, which hold as many cells as there may be and further banks. The attributes
stand in any order and case, the name is blank, and a property with too many slots is given up. -/
def bankNode : Node :=
  .document [.element "CHUNKDESCDB" [] [.element "ChunkDesc"
    [⟨"name", " "⟩, ⟨"Token", "Old"⟩, ⟨"TOKEN", " Bank "⟩]
    [.element "PropertyDesc" [⟨"NUM", " 4096 "⟩, ⟨"type", "int"⟩, ⟨"token", "cells"⟩]
        [.element "label" [⟨"name", ""⟩] []],
      .element "PropertyDesc" [⟨"token", "spare"⟩, ⟨"num", "4097"⟩] [],
      .element "PropertyDesc" [⟨"token", "inner"⟩, ⟨"type", "chunk"⟩,
        ⟨"type", "embeddedchunk"⟩, ⟨"num", "var"⟩] [],
      .element "Defaults" [] [.element "bank" []
        [.element "INNER" [] [.element "Bank" [⟨"cells", "1 2"⟩] []]]]]]]

def bankRegistry : Registry :=
  registerAll [(Catalog.ofNode bankNode).value]

theorem documented_bankRegistry : bankRegistry.Documented := by
  refine ⟨_, rfl, fun batch hm s hs => ⟨bankNode, ?_⟩⟩
  rwa [List.mem_singleton.mp hm] at hs

/-- A new bank that was given a copy of itself behind the bank that it holds. -/
def bank? : Option Chunk := do
  let c ← (bankRegistry.create "BANK" true).toOption
  let (_, d) ← c.set? "Inner" 2 (.embedded (some c))
  return d

theorem limited_of_described_bank :
    (∃ s ∈ (Catalog.ofNode bankNode).value, s.name = "Bank" ∧ s.Described) ∧
    ∃ c, bank? = some c ∧ ((c.property? "cells").map fun p => p.values.length) = some 4096 ∧
      c.Throughout Chunk.Limited := by
  obtain ⟨hdescribed, hlimited⟩ := limited_of_described
  constructor
  · have hnames : (Catalog.ofNode bankNode).value.map ChunkSchema.name = ["Bank"] := by
      decide +kernel
    obtain ⟨s, hs, hn⟩ := List.exists_of_mem_map (hnames ▸ List.mem_singleton_self "Bank")
    exact ⟨s, hs, hn, (hdescribed bankNode s hs).1⟩
  · have hcells : (bank?.bind fun c => (c.property? "cells").map fun p => p.values.length) =
        some 4096 := by decide +kernel
    obtain ⟨d, hd, hcells⟩ := Option.bind_eq_some_iff.mp hcells
    refine ⟨d, hd, hcells, hlimited d ?_⟩
    rw [bank?] at hd
    obtain ⟨c, hc, hd⟩ := Option.bind_eq_some_iff.mp hd
    obtain ⟨⟨_, e⟩, he, hd⟩ := Option.bind_eq_some_iff.mp hd
    obtain rfl := Option.some.inj hd
    have hbank : c.ComesOf Documented := by
      cases hr : bankRegistry.create "BANK" true with
      | error e =>
        rw [hr] at hc
        cases hc
      | ok b =>
        rw [hr] at hc
        cases hc
        exact .given documented_bankRegistry (.create hr)
    refine hbank.set ?_ he
    rintro a ⟨⟩
    exact hbank

end Registry

end ChunkConfig
