import ChunkConfig.Building

namespace ChunkConfig.Registry

/-- Enters a chunk type without its default chunk. -/
def enter (r : Registry) (s : ChunkSchema) : Registry :=
  ⟨r.schemas.insert s.token s, r.defaults.erase s.token⟩

/-- Builds the templates of chunk types. The chunk of a type that a later one replaces is built as
well, for the problems in it, and dropped. -/
def buildTemplates (r : Registry) : Catalog → Reported (List (ChunkSchema × Chunk))
  | [] => pure []
  | s :: rest =>
    match s.defaults with
    | none => r.buildTemplates rest
    | some template => do
      let c ← r.buildChunk true false template.node
      let others ← r.buildTemplates rest
      let replaced := rest.any fun t => Text.same t.token s.token
      return (if replaced then [] else c.toList.map (s, ·)) ++ others

/-- Enters default chunks, except those of another type than the one they were given for. -/
def enterDefaults (r : Registry) : List (ChunkSchema × Chunk) → Reported Registry
  | [] => pure r
  | (s, c) :: rest =>
    if Text.same c.schema.token s.token then
      { r with defaults := r.defaults.insert s.token c }.enterDefaults rest
    else do
      report (.defaultOfOtherType s.token c.schema.token)
      r.enterDefaults rest

/-- Registers chunk types. All of them are entered before any template is built, so that templates
may use the types in any order, but none of the default chunks that are built with them. -/
def register (r : Registry) (batch : Catalog) : Reported Registry := do
  let r := batch.foldl enter r
  r.enterDefaults (← r.buildTemplates batch)

end ChunkConfig.Registry
