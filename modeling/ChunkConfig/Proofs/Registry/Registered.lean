import ChunkConfig.Proofs.Registry.Fresh
import ChunkConfig.Proofs.Registry.Provenance

namespace ChunkConfig

open Xml (Node)

namespace Registry

variable {batches : List Catalog}

theorem mem_of_schema?_registerAll {token : String} {s : ChunkSchema}
    (h : (registerAll batches).schema? token = some s) : s ∈ batches.flatten := by
  rw [schema?_registerAll] at h
  exact Catalog.mem_of_last? h

/-- Whatever was registered anew since, all chunks below default chunks are of types that were
registered. -/
theorem keeps_registered (hb : ∀ batch ∈ batches, ∀ s ∈ batch, s.Declared) :
    (registerAll batches).Keeps (Chunk.Throughout fun c => c.schema ∈ batches.flatten) := by
  refine ⟨(reached_registerAll hb).sound, ?_,
    fun c hc => .intro (mem_of_schema?_registerAll hc.bound) hc.embeds⟩
  induction batches using List.reverseRecOn with
  | nil => exact nofun
  | append_singleton batches batch ih =>
    have hbatches : ∀ b ∈ batches, ∀ s ∈ b, s.Declared :=
      fun b hm => hb b (List.mem_append_left _ hm)
    have hbatch : ∀ s ∈ batch, s.Distinct := fun s hs =>
      ChunkSchema.declared_iff.mp (hb batch (List.mem_append_right _ (.head _)) s hs)
    have hflat : (batches ++ [batch]).flatten = batches.flatten ++ batch := List.flatten_concat
    have hentered : (batch.foldl enter (registerAll batches)).Keeps
        (Chunk.Throughout fun c => c.schema ∈ (batches ++ [batch]).flatten) := by
      rw [hflat]
      refine ⟨(reached_registerAll hbatches).sound.foldl_enter hbatch, fun token d hd e he => ?_,
        fun c hc => .intro ?_ hc.embeds⟩
      · have hold := ih hbatches token d (default?_of_foldl_enter hd).2 e he
        exact hold.mono fun _ hm => List.mem_append_left _ hm
      · have hbound := hc.bound
        rw [schema?_foldl_enter, schema?_registerAll, ← Catalog.last?_append] at hbound
        exact Catalog.mem_of_last? hbound
    rw [registerAll_concat]
    exact hentered.register.defaults

theorem bears_registered (hb : ∀ batch ∈ batches, ∀ s ∈ batch, s.Declared) :
    (registerAll batches).Bears fun c => c.schema ∈ batches.flatten := by
  have hk := keeps_registered hb
  exact hk.sound.bears hk.defaults fun _ _ _ hs => mem_of_schema?_registerAll hs

theorem registered_build (hb : ∀ batch ∈ batches, ∀ s ∈ batch, s.Declared) (populate : Bool)
    (node : Node) : ∀ c ∈ ((registerAll batches).build populate node).value,
      c.Throughout fun d => d.schema ∈ batches.flatten :=
  fun _ hc => (bears_registered hb).of_gives (Chunk.lasting_schema _) (.database hc)

end Registry

end ChunkConfig
