import ChunkConfig.Proofs.Building.Built
import ChunkConfig.Proofs.Registry.Register

namespace ChunkConfig.Registry

variable {r : Registry} {batch : Catalog} {P : Chunk → Prop}

theorem sound_empty : empty.Sound :=
  ⟨nofun, nofun⟩

theorem Sound.foldl_enter (hr : r.Sound) (hb : ∀ s ∈ batch, s.Distinct) :
    (batch.foldl enter r).Sound := by
  refine ⟨fun token s hs => ?_, fun token d hd => ?_⟩
  · rw [schema?_foldl_enter] at hs
    rcases Option.or_eq_some_iff.mp hs with hs | ⟨-, hs⟩
    · exact ⟨Catalog.same_of_last? hs, hb s (Catalog.mem_of_last? hs)⟩
    · exact hr.schema token s hs
  · obtain ⟨hn, hd⟩ := default?_of_foldl_enter hd
    rw [schema?_foldl_enter, hn]
    exact hr.default token d hd

theorem built_ownDefault (h : r.Keeps P) {s : ChunkSchema} {d : Chunk}
    (hd : r.ownDefault? s = some d) :
    d.Built r false P ∧ Text.same d.schema.token s.token = true := by
  obtain ⟨hd, hs⟩ := Option.filter_eq_some_iff.mp hd
  obtain ⟨template, -, hd⟩ := Option.bind_eq_some_iff.mp hd
  exact ⟨built_buildChunk h template.node false d hd, hs⟩

/-- What building keeps once all types of a batch are entered holds when the batch is registered. -/
theorem Keeps.register (h : (batch.foldl enter r).Keeps P) : (r.register batch).value.Keeps P := by
  have hschema : ∀ token, (r.register batch).value.schema? token =
      (batch.foldl enter r).schema? token :=
    fun token => (schema?_register r batch token).trans (schema?_foldl_enter r batch token).symm
  refine ⟨⟨fun token s hs => ?_, fun token d hd => ?_⟩, fun token d hd => ?_, fun c hc => ?_⟩
  · rw [hschema] at hs
    exact h.sound.schema token s hs
  · rw [hschema]
    rcases default?_of_register hd with hd | ⟨s, hs, hd⟩
    · exact h.sound.default token d hd
    · obtain ⟨hb, hsame⟩ := built_ownDefault h hd
      have ht : Text.same token d.schema.token = true := by
        rw [Text.same_comm, Text.same_congr hsame]
        exact Catalog.same_of_last? hs
      exact ⟨(schema?_congr _ ht).trans hb.bound, hb.proper⟩
  · rcases default?_of_register hd with hd | ⟨s, -, hd⟩
    · exact h.defaults token d hd
    · exact (built_ownDefault h hd).1.embeds
  · exact h.closed c (hc.congr hschema)

/-- The registries that there can be: types are registered batch by batch. No type declares a
property twice, which is all that declaring properties one by one comes to. -/
inductive Reached : Registry → Prop
  | empty : Reached .empty
  | register {r : Registry} {batch : Catalog} (h : Reached r) (hb : ∀ s ∈ batch, s.Distinct) :
    Reached (r.register batch).value

/-- What building keeps whatever types there are holds below all default chunks that there can
be. -/
theorem Reached.keeps (hclosed : ∀ r : Registry, r.Sound → ∀ c : Chunk, c.Built r true P → P c)
    (h : r.Reached) : r.Keeps P := by
  induction h with
  | empty => exact ⟨sound_empty, nofun, hclosed _ sound_empty⟩
  | @register r batch _ hb ih =>
    have hs := ih.sound.foldl_enter hb
    apply Keeps.register
    refine ⟨hs, fun token d hd => ?_, hclosed _ hs⟩
    exact ih.defaults token d (default?_of_foldl_enter hd).2

theorem Reached.keeps_proper (h : r.Reached) : r.Keeps (Chunk.Throughout Chunk.Proper) :=
  h.keeps fun _ _ _ hc => .intro hc.proper hc.embeds

theorem Reached.sound (h : r.Reached) : r.Sound :=
  h.keeps_proper.sound

end ChunkConfig.Registry
