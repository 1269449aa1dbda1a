import ChunkConfig.Proofs.Building.Tidied
import ChunkConfig.Proofs.Schema.Plain

namespace ChunkConfig

open Xml (Attribute Element Node)

theorem Reported.foldlM_map {α β γ : Type} {φ : β → γ} {f : β → α → Reported β}
    {g : γ → α → Reported γ} (hg : ∀ b a, g (φ b) a = φ <$> f b a) (b : β) (as : List α) :
    as.foldlM g (φ b) = φ <$> as.foldlM f b := by
  induction as generalizing b with
  | nil => rfl
  | cons a as ih =>
    rw [List.foldlM_cons, List.foldlM_cons, hg, bind_map_left, map_bind]
    exact bind_congr fun c => ih c

namespace Chunk

theorem applyAttribute_plain (c : Chunk) (a : Attribute) :
    c.plain.applyAttribute a = plain <$> c.applyAttribute a := by
  unfold applyAttribute
  rw [schema_plain, ChunkSchema.property?_plain, open?_plain]
  split
  · rw [map_pure, plain_eq, plain_eq]
  · cases c.schema.property? a.name with
    | none => 
      simp only [Option.map_none, map_bind, map_pure, reportNoProperty, name_plain, schema_plain]
      rfl
    | some s =>
      cases c.open? a.name with
      | none =>
        simp only [Option.map_none, Option.map_some, map_bind, map_pure, reportNoProperty,
          name_plain, schema_plain]
        rfl
      | some p =>
        have hp : (if s.reread.kind = .embedded then p.plain else p.plain.restart) =
            (if s.kind = .embedded then p else p.restart).plain := by
          rw [Property.restart_plain]
          exact (apply_ite _ _ _ _).symm
        simp only [Option.map_some]
        rw [hp, fill, fill, Property.fill, Property.fill, Property.storeTokens_plain]
        apply Reported.ext (hold_plain _ _ _)
        rw [Reported.problems_map]

theorem fillContent_plain (p : Property Chunk) (slot : Nat) (element : String)
    (nodes : List Node) :
    fillContent p.plain slot element nodes =
      Property.plain <$> fillContent p slot element nodes := by
  induction nodes generalizing p slot with
  | nil => rfl
  | cons node rest ih =>
    cases node with
    | text content =>
      have h := ih (p.storeTokens slot (Text.tokens content)).property
        (p.storeTokens slot (Text.tokens content)).next
      rw [fillContent, fillContent, Property.fill, Property.fill, Property.storeTokens_plain,
        map_bind]
      have hv := congrArg Reported.value h
      have hp := congrArg (fun x : Reported (Property Chunk) =>
        (p.storeTokens slot (Text.tokens content)).problem.toList ++ x.problems) h
      exact Reported.ext hv hp
    | _ =>
      simp only [fillContent, map_bind, ih]

theorem storeChunks_plain (p : Property Chunk) (slot : Nat) (cs : List Chunk) :
    storeChunks p.plain slot (cs.map plain) = Property.plain <$> storeChunks p slot cs := by
  induction cs generalizing p slot with
  | nil => rfl
  | cons c rest ih =>
    have hs : p.plain.set slot (.embedded (some c.plain)) =
        (p.set slot (.embedded (some c))).map Property.plain :=
      p.set_plain slot (.embedded (some c))
    rw [List.map_cons, storeChunks, storeChunks, hs]
    cases p.set slot (.embedded (some c)) with
    | error e => cases e <;> rfl
    | ok q => exact ih q (slot + 1)

end Chunk

namespace Registry

/-- A registry whose types are plain, also those of its default chunks. -/
def plain (r : Registry) : Registry :=
  ⟨r.schemas.map ChunkSchema.plain, r.defaults.map Chunk.plain⟩

theorem schema?_plain (r : Registry) (token : String) :
    r.plain.schema? token = (r.schema? token).map ChunkSchema.plain :=
  TokenMap.find?_map _ _ _

theorem default?_plain (r : Registry) (token : String) :
    r.plain.default? token = (r.default? token).map Chunk.plain :=
  TokenMap.find?_map _ _ _

theorem create_plain (r : Registry) (token : String) (populate : Bool) :
    r.plain.create token populate = (r.create token populate).map Chunk.plain := by
  unfold create
  rw [schema?_plain, default?_plain]
  cases r.schema? token with
  | none => rfl
  | some s =>
    cases populate with
    | false => exact congrArg Except.ok (Chunk.bare_plain s)
    | true =>
      cases r.default? token with
      | none => exact congrArg Except.ok (Chunk.full_plain s)
      | some d =>
        apply congrArg Except.ok
        rw [Chunk.full_plain, Chunk.adopt_plain]

mutual

theorem buildChunk_plain (r : Registry) (nested : Bool) :
    (node : Node) → ∀ populate, r.plain.buildChunk nested populate node =
      Option.map Chunk.plain <$> r.buildChunk nested populate node
  | .document [], _ | .fragment [], _ => by rw [buildChunk, buildChunk, map_pure, Option.map_none]
  | .document (child :: _), populate | .fragment (child :: _), populate => by
    rw [buildChunk, buildChunk, buildChunk_plain r nested child populate]
  | .element name as cs, populate => by
    rw [buildChunk, buildChunk, create_plain]
    cases r.create name populate with
    | error e => rfl
    | ok c =>
      simp only [Except.map, Reported.foldlM_map Chunk.applyAttribute_plain, bind_map_left,
        applyAll_plain r nested cs, map_bind, map_pure, Option.map_some]
  | .text _, _ | .comment _, _ | .instruction .., _ | .notationName _, _ | .attr _, _
  | .other _, _ => rfl

theorem applyAll_plain (r : Registry) (nested : Bool) :
    (nodes : List Node) → ∀ c, r.plain.applyAll nested c.plain nodes =
      Chunk.plain <$> r.applyAll nested c nodes
  | [], c => by rw [applyAll, applyAll, map_pure]
  | node :: rest, c => by
    rw [applyAll, applyAll, applyNode_plain r nested node, bind_map_left, map_bind]
    exact bind_congr fun d => applyAll_plain r nested rest d

theorem applyNode_plain (r : Registry) (nested : Bool) :
    (node : Node) → ∀ c, r.plain.applyNode nested c.plain node =
      Chunk.plain <$> r.applyNode nested c node
  | .element name as cs, c => by
    rw [applyNode, applyNode, Chunk.schema_plain, ChunkSchema.property?_plain, Chunk.open?_plain]
    cases c.schema.property? name with
    | none =>
      simp only [Option.map_none, map_bind, map_pure, Chunk.reportNoProperty, Chunk.name_plain,
        Chunk.schema_plain]
      rfl
    | some s =>
      cases c.open? name with
      | none =>
        simp only [Option.map_none, Option.map_some, map_bind, map_pure, Chunk.reportNoProperty,
          Chunk.name_plain, Chunk.schema_plain]
        rfl
      | some p =>
        have hk : s.reread.kind = s.kind := rfl
        simp only [Option.map_some, hk]
        split
        · simp only [buildAll_plain r nested cs, bind_map_left, map_bind, map_pure,
            Property.restart_plain, Chunk.storeChunks_plain, Chunk.hold_plain]
        · simp only [Property.restart_plain, Chunk.fillContent_plain, bind_map_left, map_bind,
            map_pure, Chunk.hold_plain]
  | .attr a, c => by rw [applyNode, applyNode, Chunk.applyAttribute_plain]
  | .document _, _ | .fragment _, _ | .text _, _ | .comment _, _ | .instruction .., _
  | .notationName _, _ | .other _, _ => rfl

theorem buildAll_plain (r : Registry) (nested : Bool) :
    (nodes : List Node) → r.plain.buildAll nested nodes =
      List.map Chunk.plain <$> r.buildAll nested nodes
  | [] => by rw [buildAll, buildAll, map_pure, List.map_nil]
  | node :: rest => by
    rw [buildAll, buildAll, buildChunk_plain r nested node, buildAll_plain r nested rest]
    simp only [bind_map_left, map_bind, map_pure, List.map_append, Option.toList_map]

end

theorem enter_plain (r : Registry) (s : ChunkSchema) :
    r.plain.enter s.plain = (r.enter s).plain := by
  have ht : s.plain.token = s.token := rfl
  rw [enter, enter, plain, plain, ht, TokenMap.insert_map, TokenMap.erase_map]

theorem foldl_enter_plain (r : Registry) (batch : Catalog) :
    (batch.map ChunkSchema.plain).foldl enter r.plain = (batch.foldl enter r).plain := by
  induction batch generalizing r with
  | nil => rfl
  | cons s rest ih => rw [List.map_cons, List.foldl_cons, List.foldl_cons, enter_plain, ih]

/-- A type with its default chunk, both plain. -/
def plainEntry (e : ChunkSchema × Chunk) : ChunkSchema × Chunk :=
  (e.1.plain, e.2.plain)

theorem buildTemplates_plain (r : Registry) (batch : Catalog) :
    r.plain.buildTemplates (batch.map ChunkSchema.plain) =
      List.map plainEntry <$> r.buildTemplates batch := by
  induction batch with
  | nil => rfl
  | cons s rest ih =>
    have hd : s.plain.defaults = s.defaults.map Element.tidied := rfl
    have hr : ((rest.map ChunkSchema.plain).any fun t => Text.same t.token s.plain.token) =
        rest.any fun t => Text.same t.token s.token := by
      rw [List.any_map]
      rfl
    rw [List.map_cons, buildTemplates, buildTemplates, hd]
    cases s.defaults with
    | none => exact ih
    | some template =>
      simp only [Option.map_some, ← Element.node_tidied, buildChunk_tidied, buildChunk_plain, ih,
        bind_map_left, map_bind, map_pure, hr]
      refine bind_congr fun c => bind_congr fun others => congrArg pure ?_
      rw [List.map_append]
      split
      · rfl
      · cases c <;> rfl

theorem enterDefaults_plain (r : Registry) (entries : List (ChunkSchema × Chunk)) :
    r.plain.enterDefaults (entries.map plainEntry) = plain <$> r.enterDefaults entries := by
  induction entries generalizing r with
  | nil => rfl
  | cons e rest ih =>
    obtain ⟨s, c⟩ := e
    have ht : c.plain.schema.token = c.schema.token := by
      rw [Chunk.schema_plain]
      rfl
    have hs : s.plain.token = s.token := rfl
    rw [List.map_cons, plainEntry, enterDefaults, enterDefaults, ht, hs]
    split
    · have hi : { r.plain with defaults := r.plain.defaults.insert s.token c.plain } =
          plain { r with defaults := r.defaults.insert s.token c } :=
        congrArg (Registry.mk _) (TokenMap.insert_map _ _ _ _)
      rw [hi, ih]
    · rw [map_bind]
      exact bind_congr fun _ => ih r

/-- Registering does not depend on what layout can change, apart from keeping it. -/
theorem register_plain (r : Registry) (batch : Catalog) :
    r.plain.register (batch.map ChunkSchema.plain) = plain <$> r.register batch := by
  rw [register, register, foldl_enter_plain, buildTemplates_plain, bind_map_left, map_bind]
  exact bind_congr fun entries => enterDefaults_plain _ entries

end Registry

end ChunkConfig
