import ChunkConfig.Proofs.Building.Plain
import ChunkConfig.Proofs.Schema.Text

namespace ChunkConfig.Catalog

/-- Chunk types that differ only in what layout can change register alike. -/
theorem register_reread (indent depth : Nat) (c : Catalog) :
    Registry.plain <$> Registry.empty.register (c.map (ChunkSchema.reread indent depth)) =
      Registry.plain <$> Registry.empty.register c := by
  have hp : (c.map (ChunkSchema.reread indent depth)).map ChunkSchema.plain =
      c.map ChunkSchema.plain := by
    rw [List.map_map]
    exact List.map_congr_left fun s _ => s.plain_reread indent depth
  rw [← Registry.register_plain, ← Registry.register_plain, hp]

/-- A catalog that was read from a text is written as a text that reads back without problems as
the same types in the same order, up to blank help and blank text in templates, and both register
with the same problems and the same default chunks. -/
theorem exists_read_write_of_read {source : Bytes} {c : Reported Catalog}
    (h : Catalog.read source = .ok c)
    (hn : ∀ s ∈ c.value, ∀ e, s.defaults = some e → e.node.Named) (options : Xml.WriteOptions) :
    ∃ back, Catalog.read (Text.encode (c.value.write options)) = .ok (pure back) ∧
      back.map ChunkSchema.tidied = c.value.map ChunkSchema.plain ∧
      (Registry.empty.register back).problems = (Registry.empty.register c.value).problems ∧
      ∀ token, ((Registry.empty.register back).value.default? token).map Chunk.plain =
        ((Registry.empty.register c.value).value.default? token).map Chunk.plain := by
  obtain ⟨hd, hw⟩ := described_of_read h hn
  have hr := register_reread options.indent 3 c.value
  refine ⟨c.value.map (ChunkSchema.reread options.indent 3), read_write hd hw options, ?_, ?_,
    fun token => ?_⟩
  · rw [List.map_map]
    exact List.map_congr_left fun s _ => s.tidied_reread options.indent 3
  · have hp := congrArg Reported.problems hr
    rwa [Reported.problems_map, Reported.problems_map] at hp
  · have hv := congrArg Reported.value hr
    rw [Reported.value_map, Reported.value_map] at hv
    rw [← Registry.default?_plain, ← Registry.default?_plain, hv]

/-- A chunk type with a template that holds blank text. -/
def blankTemplate : ChunkSchema :=
  { token := "A", givenName := "A", properties := [{ token := "p", givenName := "p", help := " " }]
    defaults := some ⟨"A", [⟨"p", "x"⟩], [.text " "]⟩ }

def blankTemplateText : String :=
  "<ChunkDescDB><ChunkDesc token='A'><PropertyDesc token='p'><help> </help></PropertyDesc>" ++
    "<Defaults><A p='x'> </A></Defaults></ChunkDesc></ChunkDescDB>"

theorem exists_read_write_of_read_blankTemplate :
    Catalog.read (Text.encode blankTemplateText) = .ok ⟨[blankTemplate], []⟩ ∧
    ∃ back, Catalog.read (Text.encode (Catalog.write {} [blankTemplate])) = .ok (pure back) ∧
      back.map ChunkSchema.tidied = [blankTemplate].map ChunkSchema.plain ∧
      (Registry.empty.register back).problems =
        (Registry.empty.register [blankTemplate]).problems ∧
      ∀ token, ((Registry.empty.register back).value.default? token).map Chunk.plain =
        ((Registry.empty.register [blankTemplate]).value.default? token).map Chunk.plain := by
  have hr : Catalog.read (Text.encode blankTemplateText) = .ok ⟨[blankTemplate], []⟩ := by
    decide +kernel
  refine ⟨hr, exists_read_write_of_read hr (fun s hs e he => ?_) {}⟩
  cases List.mem_singleton.mp hs
  cases he
  refine .element (by decide) (fun a ha => ?_) fun c hc => ?_
  · rw [List.mem_singleton.mp ha]
    decide
  · rw [List.mem_singleton.mp hc]
    exact .text " "

end ChunkConfig.Catalog
