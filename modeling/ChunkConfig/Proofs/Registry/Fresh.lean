import ChunkConfig.Proofs.Registry.Run

namespace ChunkConfig

/-- A chunk is of the type that is registered under the token of its type. -/
def Chunk.Bound (r : Registry) (c : Chunk) : Prop :=
  r.schema? c.schema.token = some c.schema

namespace Registry

/-- No chunk below a default chunk is of a type that was replaced. -/
def Fresh (r : Registry) : Prop :=
  ∀ token d, r.default? token = some d → ∀ e, d.Embeds e → e.Throughout (Chunk.Bound r)

variable {r : Registry} {batch : Catalog} {batches : List Catalog}

theorem keeps_bound (hr : r.Sound) (hf : r.Fresh) : r.Keeps (Chunk.Throughout (Chunk.Bound r)) :=
  ⟨hr, hf, fun _ hc => .intro hc.bound hc.embeds⟩

theorem embeds_of_create {token : String} {c d e : Chunk} (hr : r.Sound)
    (hd : r.default? token = some d) (he : d.Embeds e) (hc : r.create token true = .ok c) :
    c.Embeds e := by
  obtain ⟨hs, hp⟩ := hr.default token d hd
  rw [create] at hc
  simp only [hs, hd, if_true] at hc
  obtain rfl := Except.ok.inj hc
  obtain ⟨f, hf, hef⟩ := he
  have hq : ((Chunk.full d.schema).adopt d).property? f.1 = some f.2 := by
    rw [Chunk.property?_adopt _ hp.canonical, Chunk.property?, hp.canonical.find?_of_mem hf]
    rfl
  exact Chunk.embeds_of_property? hq hef

theorem fresh_iff_create (hr : r.Sound) : r.Fresh ↔
    ∀ token c, r.create token true = .ok c → ∀ e, c.Embeds e → e.Throughout (Chunk.Bound r) := by
  constructor
  · intro hf token c hc
    exact (built_create hr hf hc).embeds
  · intro h token d hd e he
    obtain ⟨c, hc, -⟩ := create_of_schema? (hr.default token d hd).1 true
    exact h token c hc e (embeds_of_create hr hd he hc)

/-- A batch leaves nothing stale behind exactly when the default chunks of the types that it does
not describe embed none of a type that it does replace. -/
theorem fresh_register_iff (hr : r.Reached) (hb : ∀ s ∈ batch, s.Distinct) :
    (r.register batch).value.Fresh ↔
      ∀ token d, r.default? token = some d → batch.last? token = none → ∀ e, d.Embeds e →
        e.Throughout (Chunk.Bound (r.register batch).value) := by
  constructor
  · intro hf token d hd hn
    apply hf token d
    rw [default?_register, hn]
    exact hd
  · intro h
    have hbound : Chunk.Bound (r.register batch).value = Chunk.Bound (batch.foldl enter r) := by
      funext c
      rw [Chunk.Bound, Chunk.Bound, schema?_register, schema?_foldl_enter]
    rw [hbound] at h
    have hf : (batch.foldl enter r).Fresh := by
      intro token d hd
      obtain ⟨hn, hd⟩ := default?_of_foldl_enter hd
      exact h token d hd hn
    have hk := (keeps_bound (hr.sound.foldl_enter hb) hf).register
    rw [Fresh, hbound]
    exact hk.defaults

theorem registerAll_concat (batches : List Catalog) (batch : Catalog) :
    registerAll (batches ++ [batch]) = ((registerAll batches).register batch).value :=
  List.foldl_concat _ _ _ _

theorem bound_registerAll (batches : List Catalog) (c : Chunk) :
    Chunk.Bound (registerAll batches) c ↔
      Catalog.last? batches.flatten c.schema.token = some c.schema := by
  rw [Chunk.Bound, schema?_registerAll]

/-- Nothing is stale after a run exactly when no default chunk that the last batch left alone
embeds, at any depth, a chunk of a type that was registered anew since. -/
theorem fresh_registerAll_iff
    (hb : ∀ b ∈ batches ++ [batch], ∀ s ∈ b, s.Declared) :
    ((registerAll (batches ++ [batch])).Fresh ↔
      ∀ token d, (registerAll batches).default? token = some d → batch.last? token = none →
        ∀ e, d.Embeds e → e.Throughout fun c =>
          Catalog.last? (batches ++ [batch]).flatten c.schema.token = some c.schema) ∧
    ((registerAll (batches ++ [batch])).Fresh ↔
      ∀ token c, (registerAll (batches ++ [batch])).create token true = .ok c →
        ∀ e, c.Embeds e → e.Throughout (Chunk.Bound (registerAll (batches ++ [batch])))) := by
  refine ⟨?_, fresh_iff_create (reached_registerAll hb).sound⟩
  have hr : (registerAll batches).Reached :=
    reached_registerAll fun b hm => hb b (List.mem_append_left _ hm)
  have hbatch : ∀ s ∈ batch, s.Distinct := fun s hs =>
    ChunkSchema.declared_iff.mp (hb batch (List.mem_append_right _ (.head _)) s hs)
  have hbound : (fun c : Chunk => Catalog.last? (batches ++ [batch]).flatten c.schema.token =
      some c.schema) = Chunk.Bound (registerAll (batches ++ [batch])) := by
    funext c
    exact propext (bound_registerAll _ c).symm
  rw [hbound, registerAll_concat]
  exact fresh_register_iff hr hbatch

/-- Books have a title. -/
def bookSchema : ChunkSchema :=
  { token := "Book", properties := [{ token := "title" }] }

/-- Books have an author instead of a title. -/
def newBookSchema : ChunkSchema :=
  { token := "Book", properties := [{ token := "author" }] }

/-- A shelf with a book on it. -/
def shelfSchema : ChunkSchema :=
  { token := "Shelf", properties := [{ token := "book", kind := .embedded }]
    defaults := some ⟨"Shelf", [], [.element "book" [] [.element "Book" [] []]]⟩ }

def shelfBatches : List Catalog :=
  [[bookSchema, shelfSchema]]

theorem declared_shelfBatches :
    ∀ b ∈ shelfBatches ++ [[newBookSchema]], ∀ s ∈ b, s.Declared := by decide

theorem fresh_registerAll_iff_shelf :
    ((registerAll (shelfBatches ++ [[newBookSchema]])).Fresh ↔
      ∀ token d, (registerAll shelfBatches).default? token = some d →
        Catalog.last? [newBookSchema] token = none → ∀ e, d.Embeds e → e.Throughout fun c =>
          Catalog.last? (shelfBatches ++ [[newBookSchema]]).flatten c.schema.token =
            some c.schema) ∧
    ((registerAll (shelfBatches ++ [[newBookSchema]])).Fresh ↔
      ∀ token c, (registerAll (shelfBatches ++ [[newBookSchema]])).create token true = .ok c →
        ∀ e, c.Embeds e →
          e.Throughout (Chunk.Bound (registerAll (shelfBatches ++ [[newBookSchema]])))) :=
  fresh_registerAll_iff declared_shelfBatches

/-- The type of the book on a new shelf, and the type that is registered for books. -/
def shelved? (r : Registry) : Option (ChunkSchema × ChunkSchema) := do
  let d ← r.default? "Shelf"
  let p ← d.property? "book"
  let e ← p.contents.head?
  let s ← r.schema? e.schema.token
  return (e.schema, s)

theorem shelved?_eq :
    shelved? (registerAll (shelfBatches ++ [[newBookSchema]])) =
      some (bookSchema, newBookSchema) := by
  decide +kernel

/-- The default shelf keeps the book that was put on it before books were registered anew. -/
theorem not_fresh_shelf : ¬ (registerAll (shelfBatches ++ [[newBookSchema]])).Fresh := by
  intro hf
  have h := shelved?_eq
  rw [shelved?] at h
  obtain ⟨d, hd, h⟩ := Option.bind_eq_some_iff.mp h
  obtain ⟨p, hp, h⟩ := Option.bind_eq_some_iff.mp h
  obtain ⟨e, he, h⟩ := Option.bind_eq_some_iff.mp h
  obtain ⟨s, hs, h⟩ := Option.bind_eq_some_iff.mp h
  obtain ⟨h₁, rfl⟩ := Prod.mk.inj (Option.some.inj h)
  have hbound := (hf "Shelf" d hd e (Chunk.embeds_of_property? hp (List.mem_of_head? he))).here
  rw [Chunk.Bound, hs, h₁] at hbound
  exact absurd (Option.some.inj hbound) (by decide)

end Registry

end ChunkConfig
