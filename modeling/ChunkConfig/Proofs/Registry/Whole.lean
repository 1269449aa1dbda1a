import ChunkConfig.Proofs.Registry.Reached

namespace ChunkConfig

open Xml (Node)

/-- A chunk of a registered type that holds all that its type declares. -/
def Chunk.Whole (r : Registry) (c : Chunk) : Prop :=
  c.Built r true fun _ => True

namespace Registry

variable {r : Registry}

/-- A registry is whole when its default chunks embed nothing but whole chunks. -/
def Whole (r : Registry) : Prop :=
  r.Keeps (Chunk.Throughout (Chunk.Whole r))

theorem whole_of (hr : r.Sound)
    (hd : ∀ token d, r.default? token = some d → ∀ e, d.Embeds e → e.Throughout (Chunk.Whole r)) :
    r.Whole :=
  ⟨hr, hd, fun _ hc => .intro ⟨hc.bound, hc.proper, hc.complete, fun _ _ => trivial⟩ hc.embeds⟩

/-- The templates of a first batch are built without default chunks, so all that they embed holds
what its type declares and no more. -/
theorem whole_register {batch : Catalog} (hb : ∀ s ∈ batch, s.Distinct) :
    (empty.register batch).value.Whole ∧
      ∀ token s, (empty.register batch).value.schema? token = some s → s ∈ batch := by
  have hs := sound_empty.foldl_enter hb
  have hd : ∀ token d, (batch.foldl enter empty).default? token = some d → ∀ e, d.Embeds e →
      e.Throughout (Chunk.Whole (batch.foldl enter empty)) :=
    fun token d h => absurd (default?_of_foldl_enter h).2 nofun
  have hk := (whole_of hs hd).register
  refine ⟨whole_of hk.sound fun token d h e he => ?_, fun token s h => ?_⟩
  · refine (hk.defaults token d h e he).mono fun _ hc => hc.congr fun token => ?_
    rw [schema?_register, schema?_foldl_enter]
  · rw [schema?_register] at h
    exact Catalog.mem_of_last? (Option.or_none.symm.trans h)

theorem throughout_build (h : r.Whole) (node : Node) :
    ∀ c ∈ (r.build true node).value, c.Throughout (Chunk.Whole r) :=
  h.maintains.build node

theorem Whole.bound_build (h : r.Whole) (populate : Bool) (node : Node) :
    ∀ c ∈ (r.build populate node).value,
      c.Throughout fun c => r.schema? c.schema.token = some c.schema ∧ c.Proper := by
  refine (h.sound.maintains (fun token d hd e he => ?_) fun c hc => ?_).build node
  · exact (h.defaults token d hd e he).mono fun _ hw => ⟨hw.bound, hw.proper⟩
  · exact .intro ⟨hc.bound, hc.proper⟩ hc.embeds

end Registry

end ChunkConfig
