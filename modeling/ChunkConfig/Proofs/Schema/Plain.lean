import ChunkConfig.Proofs.Chunk.Convert
import ChunkConfig.Proofs.Property.Store
import ChunkConfig.Proofs.Schema.Laid
import ChunkConfig.Registration

namespace ChunkConfig

open Xml (Element Node)

/-- An element without the blank text below it. -/
def Xml.Element.tidied (e : Element) : Element :=
  { e with children := Xml.tidiedAll e.children }

theorem Xml.Element.node_tidied (e : Element) : e.node.tidied = e.tidied.node := by
  rw [Element.node, Node.tidied]
  rfl

theorem Xml.Element.tidied_laid (indent depth : Nat) (e : Element) :
    (e.laid indent depth).tidied = e.tidied := by
  have h : (e.laid indent depth).tidied.node = e.tidied.node := by
    rw [← node_tidied, ← node_laid, Node.tidied_laid, node_tidied]
  injection h with hn ha hc
  exact congrArg (Element.mk e.name e.attributes) hc

theorem rereadHelp_rereadHelp (help : String) : rereadHelp (rereadHelp help) = rereadHelp help := by
  unfold rereadHelp
  split <;> rfl

theorem PropertySchema.reread_reread (p : PropertySchema) : p.reread.reread = p.reread := by
  rw [reread, reread, rereadHelp_rereadHelp]

namespace ChunkSchema

/-- A chunk type without the blank text in its template. -/
def tidied (s : ChunkSchema) : ChunkSchema :=
  { s with defaults := s.defaults.map Element.tidied }

/-- A chunk type without all that layout can change: help texts that are blank and the blank text
in its template. -/
def plain (s : ChunkSchema) : ChunkSchema :=
  { s with
    properties := s.properties.map PropertySchema.reread
    help := rereadHelp s.help
    defaults := s.defaults.map Element.tidied }

theorem tidied_reread (indent depth : Nat) (s : ChunkSchema) :
    (s.reread indent depth).tidied = s.plain := by
  rw [reread, tidied, plain, Option.map_map]
  exact congrArg _ (Option.map_congr fun e _ => e.tidied_laid indent depth)

theorem plain_reread (indent depth : Nat) (s : ChunkSchema) :
    (s.reread indent depth).plain = s.plain := by
  have h : PropertySchema.reread ∘ PropertySchema.reread = PropertySchema.reread :=
    funext PropertySchema.reread_reread
  rw [← tidied_reread indent depth s, plain, tidied, reread, List.map_map, h,
    rereadHelp_rereadHelp]

theorem property?_plain (s : ChunkSchema) (token : String) :
    s.plain.property? token = (s.property? token).map PropertySchema.reread := by
  rw [property?, plain, List.find?_map]
  rfl

end ChunkSchema

/-- A chunk whose types are plain at every depth. -/
def Chunk.plain (c : Chunk) : Chunk :=
  c.convert ChunkSchema.plain PropertySchema.reread id

def Value.plain (v : Value Chunk) : Value Chunk :=
  Chunk.convertValue ChunkSchema.plain PropertySchema.reread id v

def Property.plain (p : Property Chunk) : Property Chunk :=
  Chunk.convertProperty ChunkSchema.plain PropertySchema.reread id p

theorem Value.kind_plain (v : Value Chunk) : v.plain.kind = v.kind := by
  rcases v with _ | _ | _ | _ | _ | _ | _ <;> rfl

theorem Value.plain_of_kind {v : Value Chunk} (h : v.kind ≠ .embedded) : v.plain = v := by
  cases v with
  | embedded c => exact absurd rfl h
  | _ => rfl

theorem Value.plain_empty (k : ValueKind) : (empty k).plain = empty k := by
  cases k <;> rfl

namespace Property

theorem ofSchema_plain (s : PropertySchema) : ofSchema s.reread = (ofSchema s).plain := by
  have hc : s.reread.count = s.count := rfl
  rw [ofSchema, ofSchema, hc]
  split
  · rw [plain, Chunk.convertProperty, List.map_replicate, ← Value.plain, Value.plain_empty]
    rfl
  · rfl

theorem set_plain (p : Property Chunk) (index : Nat) (v : Value Chunk) :
    p.plain.set index v.plain = (p.set index v).map plain := by
  have hk : p.plain.schema.kind = p.schema.kind := rfl
  have hc : p.plain.schema.count = p.schema.count := rfl
  have hl : p.plain.values.length = p.values.length := List.length_map _
  have hs : { p.plain with values := p.plain.values.set index v.plain } =
      plain { p with values := p.values.set index v } :=
    congrArg (Property.mk _) (List.map_set).symm
  unfold set
  rw [v.kind_plain, hk, hc, hl, hs]
  split
  · rfl
  · split
    · split <;> rfl
    · split
      · rfl
      · rw [Except.map]
        simp only [plain, Chunk.convertProperty, List.map_append, List.map_replicate,
          List.map_singleton]
        rw [← Value.plain, ← Value.plain, Value.plain_empty]

theorem clear_plain (p : Property Chunk) : p.plain.clear = p.clear.plain := by
  have hc : p.plain.schema.count = p.schema.count := rfl
  unfold clear
  rw [hc]
  split
  · simp only [plain, Chunk.convertProperty, List.map_map]
    refine congrArg _ (List.map_congr_left fun v _ => ?_)
    exact (Value.plain_empty _).symm
  · rfl

theorem restart_plain (p : Property Chunk) : p.plain.restart = p.restart.plain := by
  have hc : p.plain.schema.count = p.schema.count := rfl
  unfold restart
  rw [hc, clear_plain]
  split <;> rfl

theorem coerce_plain (p : Property Chunk) (token : String) :
    p.plain.coerce token = p.coerce token :=
  rfl

theorem storeTokens_plain (p : Property Chunk) (slot : Nat) (tokens : List String) :
    p.plain.storeTokens slot tokens =
      { p.storeTokens slot tokens with
        property := (p.storeTokens slot tokens).property.plain } := by
  induction tokens generalizing p slot with
  | nil => rfl
  | cons token rest ih =>
    rw [storeTokens, storeTokens, coerce_plain]
    cases hv : p.coerce token with
    | error problem => rfl
    | ok v =>
      have hs := p.set_plain slot v
      rw [Value.plain_of_kind (kind_of_coerce hv).2] at hs
      simp only [hs]
      cases p.set slot v with
      | error e => cases e <;> rfl
      | ok q => exact ih q (slot + 1)

end Property

namespace Chunk

theorem plain_eq (c : Chunk) : c.plain = ⟨c.schema.plain, c.name, c.held.map Property.plain⟩ :=
  convert_eq _ _ _ c

theorem schema_plain (c : Chunk) : c.plain.schema = c.schema.plain := by
  rw [plain_eq]

theorem name_plain (c : Chunk) : c.plain.name = c.name := by
  rw [plain_eq]

theorem hold_plain (c : Chunk) (token : String) (p : Property Chunk) :
    c.plain.hold token p.plain = (c.hold token p).plain := by
  rw [plain_eq, plain_eq, hold, hold, TokenMap.insert_map]

theorem property?_plain (c : Chunk) (token : String) :
    c.plain.property? token = (c.property? token).map Property.plain := by
  rw [plain_eq, property?, TokenMap.find?_map]
  rfl

theorem open?_plain (c : Chunk) (token : String) :
    c.plain.open? token = (c.open? token).map Property.plain := by
  unfold open?
  rw [property?_plain, schema_plain, ChunkSchema.property?_plain]
  cases c.property? token with
  | some p => rfl
  | none =>
    cases c.schema.property? token with
    | some s => exact congrArg some (Property.ofSchema_plain s)
    | none => rfl

theorem bare_plain (s : ChunkSchema) : bare s.plain = (bare s).plain := by
  rw [plain_eq]
  rfl

theorem full_plain (s : ChunkSchema) : full s.plain = (full s).plain := by
  have hf : ∀ (ps : List PropertySchema) (c : Chunk),
      (ps.map PropertySchema.reread).foldl (fun c p => c.hold p.token (.ofSchema p)) c.plain =
        (ps.foldl (fun c p => c.hold p.token (.ofSchema p)) c).plain := by
    intro ps
    induction ps with
    | nil => exact fun _ => rfl
    | cons p ps ih =>
      intro c
      rw [List.map_cons, List.foldl_cons, List.foldl_cons, Property.ofSchema_plain, hold_plain]
      exact ih _
  rw [full, bare_plain]
  exact hf s.properties (bare s)

theorem adopt_plain (c other : Chunk) : c.plain.adopt other.plain = (c.adopt other).plain := by
  rw [plain_eq, plain_eq, plain_eq, adopt, adopt, TokenMap.union_map]

end Chunk

end ChunkConfig
