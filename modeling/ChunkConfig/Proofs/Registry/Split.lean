import ChunkConfig.Proofs.Building.TypeNames
import ChunkConfig.Proofs.Registry.Batch
import ChunkConfig.Proofs.Registry.Fresh

namespace ChunkConfig

/-- The types of the chunks below the one that the template of a type describes. -/
def ChunkSchema.nestedNames (s : ChunkSchema) : List String :=
  match s.defaults with
  | none => []
  | some template => Xml.Node.namesBelow template.children

/-- The types that the template of a type names, at any depth. -/
def ChunkSchema.templateNames (s : ChunkSchema) : List String :=
  match s.defaults with
  | none => []
  | some template => template.node.typeNames

namespace Registry

variable {r r' : Registry} {batch first second : Catalog} {s : ChunkSchema} {name token : String}

/-- A registry with the types of another one, but without default chunks. -/
def withoutDefaults (r : Registry) : Registry :=
  ⟨r.schemas, .empty⟩

/-- The maps of a registry do not depend on the order in which they were filled. -/
structure Canonical (r : Registry) : Prop where
  schemas : r.schemas.Canonical
  defaults : r.defaults.Canonical

theorem Canonical.ext (h : r.Canonical) (h' : r'.Canonical)
    (hs : ∀ token, r.schema? token = r'.schema? token)
    (hd : ∀ token, r.default? token = r'.default? token) : r = r' :=
  Registry.ext (h.schemas.ext h'.schemas hs) (h.defaults.ext h'.defaults hd)

theorem Canonical.foldl_enter (h : r.Canonical) (batch : Catalog) :
    (batch.foldl enter r).Canonical := by
  induction batch generalizing r with
  | nil => exact h
  | cons s rest ih => exact ih ⟨h.schemas.insert s.token s, h.defaults.erase s.token⟩

theorem Canonical.enterDefaults (h : r.Canonical) (entries : List (ChunkSchema × Chunk)) :
    (r.enterDefaults entries).value.Canonical := by
  induction entries generalizing r with
  | nil => exact h
  | cons entry rest ih =>
    obtain ⟨s, c⟩ := entry
    rw [Registry.enterDefaults]
    split
    · exact ih ⟨h.schemas, h.defaults.insert s.token c⟩
    · exact ih h

theorem canonical_registerAll (batches : List Catalog) : (registerAll batches).Canonical := by
  have hempty : empty.Canonical := ⟨TokenMap.canonical_empty, TokenMap.canonical_empty⟩
  have hfold : ∀ {r : Registry}, r.Canonical →
      (batches.foldl (fun r batch => (r.register batch).value) r).Canonical := by
    induction batches with
    | nil => exact id
    | cons batch rest ih => exact fun h => ih ((h.foldl_enter batch).enterDefaults _)
  exact hfold hempty

theorem create_congr {populate : Bool} (hs : r.schema? name = r'.schema? name)
    (hd : populate = true → r.default? name = r'.default? name) :
    r.create name populate = r'.create name populate := by
  rw [create, create, hs]
  cases populate with
  | false => rfl
  | true => rw [hd rfl]

/-- The default chunk of a type depends on the types that its template names, and on the default
chunks of those that it nests. -/
theorem ownDefault?_congr (hs : ∀ name ∈ s.templateNames, r.schema? name = r'.schema? name)
    (hd : ∀ name ∈ s.nestedNames, r.default? name = r'.default? name) :
    r.ownDefault? s = r'.ownDefault? s := by
  have htemplate : r.template? s = r'.template? s := by
    unfold ChunkSchema.templateNames at hs
    unfold ChunkSchema.nestedNames at hd
    unfold template?
    cases htemplate : s.defaults with
    | none => rfl
    | some e =>
      simp only [htemplate, Xml.Element.node, Xml.Node.typeNames] at hs hd
      rw [Option.bind_some, Option.bind_some, buildChunk_element_congr e]
      · exact create_congr (hs _ (.head _)) fun h => absurd h Bool.false_ne_true
      · exact fun name hm => create_congr (hs name (.tail _ hm)) fun _ => hd name hm
  rw [ownDefault?, ownDefault?, htemplate]

theorem ownDefault?_enter_append (first : Catalog)
    (hn : ∀ name ∈ s.templateNames, second.last? name = none) :
    ((first ++ second).foldl enter empty).ownDefault? s =
      (first.foldl enter empty).ownDefault? s := by
  apply ownDefault?_congr
  · intro name hm
    rw [schema?_foldl_enter, schema?_foldl_enter, Catalog.last?_append, hn name hm, Option.none_or]
  · intro name _
    have hempty : empty.default? name = none := rfl
    rw [default?_foldl_enter, default?_foldl_enter, hempty, ite_self, ite_self]

theorem ownDefault?_enter_withoutDefaults (first second : Catalog) (s : ChunkSchema) :
    ((first ++ second).foldl enter empty).ownDefault? s =
      (second.foldl enter (registerAll [first])).withoutDefaults.ownDefault? s := by
  apply ownDefault?_congr
  · intro name _
    have hschema : (second.foldl enter (registerAll [first])).withoutDefaults.schema? name =
        (second.foldl enter (registerAll [first])).schema? name := rfl
    rw [hschema, schema?_foldl_enter, schema?_foldl_enter, schema?_registerAll,
      List.flatten_singleton, Catalog.last?_append, Option.or_assoc]
    exact congrArg _ Option.or_none
  · intro name _
    have hempty : empty.default? name = none := rfl
    rw [default?_foldl_enter, hempty, ite_self]
    rfl

theorem default?_registerAll_append (first second : Catalog) (token : String) :
    (registerAll [first ++ second]).default? token =
      match (second.last? token).or (first.last? token) with
      | none => none
      | some s => ((first ++ second).foldl enter empty).ownDefault? s := by
  rw [← Catalog.last?_append]
  exact default?_register empty (first ++ second) token

theorem default?_registerAll_pair (first second : Catalog) (token : String) :
    (registerAll [first, second]).default? token =
      match second.last? token with
      | none =>
        match first.last? token with
        | none => none
        | some s => (first.foldl enter empty).ownDefault? s
      | some s => (second.foldl enter (registerAll [first])).ownDefault? s := by
  have hfirst := default?_register empty first token
  rw [registerAll, List.foldl_cons, List.foldl_cons, List.foldl_nil, default?_register, hfirst]
  rfl

theorem schema?_registerAll_pair (first second : Catalog) (token : String) :
    (registerAll [first, second]).schema? token =
      (registerAll [first ++ second]).schema? token := by
  rw [schema?_registerAll, schema?_registerAll, List.flatten_cons, List.flatten_singleton,
    List.flatten_singleton]

theorem default?_registerAll_pair_of_first
    (hn : ∀ s ∈ first, ∀ name ∈ s.templateNames, second.last? name = none)
    (hnone : second.last? token = none) : (registerAll [first, second]).default? token =
      (registerAll [first ++ second]).default? token := by
  rw [default?_registerAll_pair, default?_registerAll_append, hnone, Option.none_or]
  cases hs : first.last? token with
  | none => rfl
  | some s => exact (ownDefault?_enter_append first (hn s (Catalog.mem_of_last? hs))).symm

/-- Types of the second part keep their default chunks when these do not depend on the default
chunks of the first part. -/
theorem default?_registerAll_pair_iff (hs : second.last? token = some s) :
    (registerAll [first, second]).default? token =
        (registerAll [first ++ second]).default? token ↔
      (second.foldl enter (registerAll [first])).ownDefault? s =
        (second.foldl enter (registerAll [first])).withoutDefaults.ownDefault? s := by
  rw [default?_registerAll_pair, default?_registerAll_append, hs, Option.some_or,
    ← ownDefault?_enter_withoutDefaults]

theorem ownDefault?_withoutDefaults (h : ∀ name ∈ s.nestedNames, r.default? name = none) :
    r.ownDefault? s = r.withoutDefaults.ownDefault? s :=
  ownDefault?_congr (fun _ _ => rfl) h

/-- Types of which the first ones name none of the others register in two parts as at once, apart
from default chunks that come out differently for those of the first part. -/
theorem registerAll_split (hd : Catalog.Distinct (first ++ second))
    (hn : ∀ s ∈ first, ∀ name ∈ s.templateNames, second.last? name = none) :
    (∀ token, (registerAll [first, second]).schema? token =
      (registerAll [first ++ second]).schema? token) ∧
    (∀ token, second.last? token = none → (registerAll [first, second]).default? token =
      (registerAll [first ++ second]).default? token) ∧
    (registerAll [first, second] = registerAll [first ++ second] ↔
      ∀ s ∈ second, (second.foldl enter (registerAll [first])).ownDefault? s =
        (second.foldl enter (registerAll [first])).withoutDefaults.ownDefault? s) ∧
    ((∀ s ∈ second, ∀ name ∈ s.nestedNames, (registerAll [first]).default? name = none) →
      registerAll [first, second] = registerAll [first ++ second]) := by
  have hiff : registerAll [first, second] = registerAll [first ++ second] ↔
      ∀ s ∈ second, (second.foldl enter (registerAll [first])).ownDefault? s =
        (second.foldl enter (registerAll [first])).withoutDefaults.ownDefault? s := by
    constructor
    · intro heq s hs
      have hself : second.last? s.token = some s := hd.append_right.last?_of_mem hs
      exact (default?_registerAll_pair_iff hself).mp (congrArg (default? · s.token) heq)
    · intro h
      apply (canonical_registerAll _).ext (canonical_registerAll _)
        (schema?_registerAll_pair first second)
      intro token
      cases hs : second.last? token with
      | none => exact default?_registerAll_pair_of_first hn hs
      | some s => exact (default?_registerAll_pair_iff hs).mpr (h s (Catalog.mem_of_last? hs))
  refine ⟨schema?_registerAll_pair first second,
    fun _ => default?_registerAll_pair_of_first hn, hiff, ?_⟩
  intro hnested
  apply hiff.mpr
  intro s hs
  apply ownDefault?_withoutDefaults
  intro name hm
  rw [default?_foldl_enter, hnested s hs name hm, ite_self]

/-- Books have a title, and a new one has none yet. -/
def titledSchema : ChunkSchema :=
  { token := "Book", properties := [{ token := "title" }]
    defaults := some ⟨"Book", [⟨"title", "Untitled"⟩], []⟩ }

theorem distinct_titled : Catalog.Distinct ([titledSchema] ++ [shelfSchema]) := by decide

theorem last?_of_titled : ∀ s ∈ [titledSchema], ∀ name ∈ s.templateNames,
    Catalog.last? [shelfSchema] name = none := by decide

theorem registerAll_split_titled :
    (∀ token, (registerAll [[titledSchema], [shelfSchema]]).schema? token =
      (registerAll [[titledSchema] ++ [shelfSchema]]).schema? token) ∧
    (∀ token, Catalog.last? [shelfSchema] token = none →
      (registerAll [[titledSchema], [shelfSchema]]).default? token =
        (registerAll [[titledSchema] ++ [shelfSchema]]).default? token) ∧
    (registerAll [[titledSchema], [shelfSchema]] =
        registerAll [[titledSchema] ++ [shelfSchema]] ↔
      ∀ s ∈ [shelfSchema],
        ([shelfSchema].foldl enter (registerAll [[titledSchema]])).ownDefault? s =
          ([shelfSchema].foldl enter (registerAll [[titledSchema]])).withoutDefaults.ownDefault?
            s) ∧
    ((∀ s ∈ [shelfSchema], ∀ name ∈ s.nestedNames,
        (registerAll [[titledSchema]]).default? name = none) →
      registerAll [[titledSchema], [shelfSchema]] =
        registerAll [[titledSchema] ++ [shelfSchema]]) :=
  registerAll_split distinct_titled last?_of_titled

/-- How the title of the book on a new shelf is written. -/
def shelvedTitle? (r : Registry) : Option String := do
  let d ← r.default? "Shelf"
  let p ← d.property? "book"
  let e ← p.contents.head?
  let v ← e.value? "title" 0
  v.token?

/-- The book on the default shelf has the default title only when books are registered first. -/
theorem registerAll_titled_ne :
    Catalog.Distinct ([titledSchema] ++ [shelfSchema]) ∧
      (∀ s ∈ [titledSchema], ∀ name ∈ s.templateNames,
        Catalog.last? [shelfSchema] name = none) ∧
      registerAll [[titledSchema], [shelfSchema]] ≠
        registerAll [[titledSchema] ++ [shelfSchema]] := by
  have hparts : shelvedTitle? (registerAll [[titledSchema], [shelfSchema]]) = some "Untitled" := by
    decide +kernel
  have honce : shelvedTitle? (registerAll [[titledSchema] ++ [shelfSchema]]) = some "\"\"" := by
    decide +kernel
  refine ⟨distinct_titled, last?_of_titled, ?_⟩
  intro heq
  rw [heq, honce] at hparts
  exact absurd hparts (by decide)

end Registry

end ChunkConfig
