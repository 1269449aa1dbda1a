import ChunkConfig.Proofs.Registry.Sound

namespace ChunkConfig

/-- The last chunk type with the given token. -/
def Catalog.last? (batch : Catalog) (token : String) : Option ChunkSchema :=
  Catalog.schema? batch.reverse token

namespace Catalog

variable {batch : Catalog} {token : String} {s : ChunkSchema}

theorem last?_append (first second : Catalog) (token : String) :
    last? (first ++ second) token = (last? second token).or (last? first token) := by
  rw [last?, List.reverse_append, schema?, List.find?_append]
  rfl

theorem last?_cons (s : ChunkSchema) (rest : Catalog) (token : String) :
    last? (s :: rest) token =
      (last? rest token).or (if Text.same s.token token then some s else none) := by
  rw [← List.singleton_append, last?_append, last?, last?, schema?, schema?,
    List.reverse_singleton, List.find?_singleton]

theorem same_of_last? (h : batch.last? token = some s) : Text.same s.token token = true := by
  have hs := List.find?_some (p := fun t : ChunkSchema => Text.same t.token token) h
  exact hs

theorem mem_of_last? (h : batch.last? token = some s) : s ∈ batch :=
  List.mem_reverse.mp (List.mem_of_find?_eq_some h)

theorem last?_congr (batch : Catalog) {a b : String} (h : Text.same a b = true) :
    batch.last? a = batch.last? b := by
  unfold last? schema?
  simp only [Text.same_comm _ a, Text.same_comm _ b, Text.same_congr h]

theorem any_same_eq_isSome (batch : Catalog) (token : String) :
    (batch.any fun t => Text.same t.token token) = (batch.last? token).isSome := by
  rw [last?, schema?, ← List.any_reverse, Bool.eq_iff_iff, List.find?_isSome, List.any_eq_true]

end Catalog

namespace Registry

/-- The chunk that the template of a type describes. -/
def template? (r : Registry) (s : ChunkSchema) : Option Chunk :=
  s.defaults.bind fun template => (r.buildChunk true false template.node).value

/-- The default chunk of a type, which is what its template describes if that is of the type. -/
def ownDefault? (r : Registry) (s : ChunkSchema) : Option Chunk :=
  (r.template? s).filter fun c => Text.same c.schema.token s.token

variable {r : Registry} {batch : Catalog} {token : String}

theorem schema?_enter (r : Registry) (s : ChunkSchema) (token : String) :
    (r.enter s).schema? token = if Text.same token s.token then some s else r.schema? token :=
  TokenMap.find?_insert _ _ _ _

theorem default?_enter (r : Registry) (s : ChunkSchema) (token : String) :
    (r.enter s).default? token = if Text.same token s.token then none else r.default? token :=
  TokenMap.find?_erase _ _ _

theorem schema?_foldl_enter (r : Registry) (batch : Catalog) (token : String) :
    (batch.foldl enter r).schema? token = (batch.last? token).or (r.schema? token) := by
  induction batch generalizing r with
  | nil => rfl
  | cons s rest ih =>
    rw [List.foldl_cons, ih, schema?_enter, Catalog.last?_cons, Text.same_comm token]
    cases Catalog.last? rest token with
    | some t => rfl
    | none =>
      cases Text.same s.token token with
      | true => rfl
      | false => rfl

theorem default?_foldl_enter (r : Registry) (batch : Catalog) (token : String) :
    (batch.foldl enter r).default? token =
      if (batch.last? token).isSome then none else r.default? token := by
  induction batch generalizing r with
  | nil => rfl
  | cons s rest ih =>
    rw [List.foldl_cons, ih, default?_enter, Catalog.last?_cons, Text.same_comm token]
    cases Catalog.last? rest token with
    | some t => rfl
    | none =>
      cases Text.same s.token token with
      | true => rfl
      | false => rfl

theorem default?_of_foldl_enter {d : Chunk} (h : (batch.foldl enter r).default? token = some d) :
    batch.last? token = none ∧ r.default? token = some d := by
  rw [default?_foldl_enter] at h
  split at h
  · cases h
  · next hn => exact ⟨Option.not_isSome_iff_eq_none.mp hn, h⟩

theorem schemas_enterDefaults (r : Registry) (entries : List (ChunkSchema × Chunk)) :
    (r.enterDefaults entries).value.schemas = r.schemas := by
  induction entries generalizing r with
  | nil => rfl
  | cons entry rest ih =>
    rw [enterDefaults]
    split
    · exact ih _
    · exact ih r

theorem enterDefaults_append (r : Registry) (first second : List (ChunkSchema × Chunk)) :
    (r.enterDefaults (first ++ second)).value =
      ((r.enterDefaults first).value.enterDefaults second).value := by
  induction first generalizing r with
  | nil => rfl
  | cons entry rest ih =>
    rw [List.cons_append, enterDefaults, enterDefaults]
    split
    · exact ih _
    · exact ih r

theorem default?_enterDefaults_map (r r' : Registry) (s : ChunkSchema) (token : String) :
    (r'.enterDefaults ((r.template? s).toList.map (s, ·))).value.default? token =
      if Text.same s.token token then (r.ownDefault? s).or (r'.default? token)
      else r'.default? token := by
  rw [ownDefault?]
  cases r.template? s with
  | none =>
    rw [Option.filter_none, Option.none_or, ite_self]
    rfl
  | some c =>
    rw [Option.toList_some, List.map_singleton, enterDefaults]
    by_cases hown : Text.same c.schema.token s.token = true
    · rw [if_pos hown, Option.filter_some, if_pos hown, Option.some_or, Text.same_comm]
      exact TokenMap.find?_insert _ _ _ _
    · rw [if_neg hown, Option.filter_some, if_neg hown, Option.none_or, ite_self]
      rfl

theorem buildTemplates_cons (r : Registry) (s : ChunkSchema) (rest : Catalog) :
    (r.buildTemplates (s :: rest)).value =
      (if (Catalog.last? rest s.token).isSome then [] else (r.template? s).toList.map (s, ·)) ++
        (r.buildTemplates rest).value := by
  rw [buildTemplates, template?]
  cases s.defaults with
  | none =>
    rw [Option.bind_none, Option.toList_none, List.map_nil, ite_self]
    rfl
  | some template =>
    rw [← Catalog.any_same_eq_isSome]
    rfl

/-- Of the templates of one token, only that of the last type is entered. -/
theorem default?_enterDefaults (r r' : Registry) (batch : Catalog) (token : String) :
    (r'.enterDefaults (r.buildTemplates batch).value).value.default? token =
      ((batch.last? token).bind r.ownDefault?).or (r'.default? token) := by
  -- All templates are built in one registry, and the chunks are entered into one that grows.
  induction batch generalizing r' with
  | nil => rfl
  | cons s rest ih =>
    rw [buildTemplates_cons, enterDefaults_append, ih, Catalog.last?_cons]
    by_cases hs : Text.same s.token token = true
    · -- What is entered for the token of the first type is dropped if the type is replaced later.
      rw [Catalog.last?_congr rest hs, if_pos hs]
      cases Catalog.last? rest token with
      | some t => rfl
      | none =>
        rw [Option.isSome_none, if_neg Bool.false_ne_true, default?_enterDefaults_map, if_pos hs]
        rfl
    · rw [if_neg hs, Option.or_none]
      cases Catalog.last? rest s.token with
      | some t => rfl
      | none =>
        rw [Option.isSome_none, if_neg Bool.false_ne_true, default?_enterDefaults_map, if_neg hs]

theorem schema?_register (r : Registry) (batch : Catalog) (token : String) :
    (r.register batch).value.schema? token = (batch.last? token).or (r.schema? token) := by
  rw [← schema?_foldl_enter]
  exact congrArg (TokenMap.find? · token) (schemas_enterDefaults _ _)

/-- The default chunks of a registry after a batch: those of the types that the batch leaves alone,
and those that the last types of each token describe themselves. -/
theorem default?_register (r : Registry) (batch : Catalog) (token : String) :
    (r.register batch).value.default? token =
      match batch.last? token with
      | none => r.default? token
      | some s => (batch.foldl enter r).ownDefault? s := by
  have h := default?_enterDefaults (batch.foldl enter r) (batch.foldl enter r) batch token
  rw [default?_foldl_enter] at h
  apply Eq.trans h
  cases batch.last? token with
  | none => rfl
  | some s => exact Option.or_none

theorem default?_of_register {d : Chunk} (h : (r.register batch).value.default? token = some d) :
    (batch.foldl enter r).default? token = some d ∨
      ∃ s, batch.last? token = some s ∧ (batch.foldl enter r).ownDefault? s = some d := by
  rw [default?_register] at h
  split at h
  · next hn =>
    rw [default?_foldl_enter, hn]
    exact .inl h
  · next s hs => exact .inr ⟨s, hs, h⟩

end Registry

end ChunkConfig
