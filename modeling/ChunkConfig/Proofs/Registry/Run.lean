import ChunkConfig.Proofs.Chunk.Formed
import ChunkConfig.Proofs.Registry.Reached

namespace ChunkConfig

open Xml (Attribute Element Node)

namespace Chunk

theorem schema_applyAttribute (c : Chunk) (a : Attribute) :
    (c.applyAttribute a).value.schema = c.schema := by
  rw [applyAttribute]
  split
  · rfl
  · split
    · rfl
    · rfl

theorem schema_foldlM_applyAttribute (c : Chunk) (as : List Attribute) :
    (as.foldlM applyAttribute c).value.schema = c.schema := by
  induction as generalizing c with
  | nil => rfl
  | cons a as ih => exact (ih _).trans (c.schema_applyAttribute a)

end Chunk

namespace Registry

variable {r : Registry} {token : String} {s : ChunkSchema} {c : Chunk} {populate : Bool}

theorem schema_applyNode (r : Registry) (nested : Bool) (c : Chunk) (node : Node) :
    (r.applyNode nested c node).value.schema = c.schema := by
  cases node with
  | attr a => exact c.schema_applyAttribute a
  | element name as cs =>
    rw [applyNode]
    split
    · split
      · rfl
      · rfl
    · rfl
  | _ => rfl

theorem schema_applyAll (r : Registry) (nested : Bool) (c : Chunk) (nodes : List Node) :
    (r.applyAll nested c nodes).value.schema = c.schema := by
  induction nodes generalizing c with
  | nil =>
    rw [applyAll]
    rfl
  | cons node rest ih =>
    rw [applyAll]
    exact (ih _).trans (r.schema_applyNode nested c node)

theorem create_of_schema? (hs : r.schema? token = some s) (populate : Bool) :
    ∃ c, r.create token populate = .ok c ∧ c.schema = s ∧ c.name = s.token := by
  have hname : (Chunk.full s).name = s.token := by
    rw [Chunk.full_eq, Chunk.name_holdAll]
    rfl
  rw [create]
  simp only [hs]
  cases populate with
  | false => exact ⟨.bare s, rfl, rfl, rfl⟩
  | true =>
    cases r.default? token with
    | none => exact ⟨.full s, rfl, Chunk.schema_full s, hname⟩
    | some d => exact ⟨(Chunk.full s).adopt d, rfl, Chunk.schema_full s, hname⟩

theorem buildChunk_element (r : Registry) (nested populate : Bool) (e : Element) :
    (r.buildChunk nested populate e.node).value.map Chunk.schema = r.schema? e.name := by
  rw [Element.node, buildChunk]
  cases hs : r.schema? e.name with
  | none =>
    rw [create]
    simp only [hs]
    rfl
  | some s =>
    obtain ⟨c, hc, hcs, -⟩ := create_of_schema? hs populate
    rw [hc]
    refine congrArg some ?_
    exact (r.schema_applyAll nested _ _).trans ((c.schema_foldlM_applyAttribute _).trans hcs)

/-- A type has a default chunk when its template is an element of its own name. -/
theorem isSome_ownDefault_iff (hr : r.Sound) (hs : r.schema? s.token = some s) :
    (r.ownDefault? s).isSome = true ↔
      ∃ e, s.defaults = some e ∧ Text.same e.name s.token = true := by
  rw [ownDefault?, Option.isSome_iff_exists]
  constructor
  · rintro ⟨c, hc⟩
    obtain ⟨hc, hsame⟩ := Option.filter_eq_some_iff.mp hc
    obtain ⟨e, he, hc⟩ := Option.bind_eq_some_iff.mp hc
    have hschema : r.schema? e.name = some c.schema := by
      rw [← r.buildChunk_element true false e, hc]
      rfl
    refine ⟨e, he, ?_⟩
    rw [← Text.same_congr (hr.schema _ _ hschema).1]
    exact hsame
  · rintro ⟨e, he, hsame⟩
    have hb := r.buildChunk_element true false e
    rw [r.schema?_congr hsame, hs] at hb
    obtain ⟨c, hc, hcs⟩ := Option.map_eq_some_iff.mp hb
    refine ⟨c, Option.filter_eq_some_iff.mpr ⟨?_, ?_⟩⟩
    · rw [template?, he, Option.bind_some, hc]
    · rw [hcs]
      exact Text.same_self _

theorem Reached.isSome_default?_iff (h : r.Reached) (token : String) :
    (r.default? token).isSome = true ↔
      ∃ s e, r.schema? token = some s ∧ s.defaults = some e ∧ Text.same e.name s.token = true := by
  induction h with
  | empty => exact iff_of_false nofun nofun
  | @register r batch h hb ih =>
    rw [schema?_register, default?_register]
    cases hs : batch.last? token with
    | none => exact ih
    | some s =>
      have hself : (batch.foldl enter r).schema? s.token = some s := by
        rw [schema?_foldl_enter, Catalog.last?_congr batch (Catalog.same_of_last? hs), hs]
        rfl
      have hown := isSome_ownDefault_iff (h.sound.foldl_enter hb) hself
      constructor
      · intro hd
        obtain ⟨e, he⟩ := hown.mp hd
        exact ⟨s, e, rfl, he⟩
      · rintro ⟨t, e, ht, he⟩
        obtain rfl := Option.some.inj ht
        exact hown.mpr ⟨e, he⟩

theorem properties_of_create (hr : r.Sound) (hs : r.schema? token = some s)
    (hc : r.create token populate = .ok c) :
    c.held.values.Perm c.properties ∧ c.properties =
      if populate then s.properties.map fun p =>
        ((r.default? token).bind (·.property? p.token)).getD (.ofSchema p)
      else [] := by
  obtain ⟨d, hd, rfl, hp, hprop⟩ := create_eq hr hs populate
  obtain rfl := Except.ok.inj (hd.symm.trans hc)
  obtain ⟨hst, hdist⟩ := hr.schema _ _ hs
  refine ⟨(hp.formed hdist).perm_properties.symm, ?_⟩
  rw [Chunk.properties]
  simp only [hprop]
  cases populate with
  | false => exact List.filterMap_none _
  | true =>
    have hstart : ∀ p ∈ d.schema.properties,
        (if true = true then (d.schema.property? p.token).map (r.start true d.schema) else none) =
          some (((r.default? token).bind (·.property? p.token)).getD (.ofSchema p)) := by
      intro p hm
      rw [if_pos rfl, hdist.property?_of_mem hm, Option.map_some, start, if_pos rfl,
        r.default?_congr hst]
    rw [List.filterMap_congr hstart, if_pos rfl]
    exact congrFun List.filterMap_eq_map _

/-- A registry in which types were registered in the order in which a catalog lists them. -/
structure Records (r : Registry) (log : Catalog) : Prop where
  schema : ∀ token, r.schema? token = log.last? token
  default : ∀ token, (r.default? token).isSome = true ↔
    ∃ s e, r.schema? token = some s ∧ s.defaults = some e ∧ Text.same e.name s.token = true
  bound : ∀ token d, r.default? token = some d → r.schema? token = some d.schema
  unknown : ∀ token populate, r.schema? token = none →
    r.create token populate = .error (.unknownChunkType token)
  created : ∀ token s populate, r.schema? token = some s →
    ∃ c, r.create token populate = .ok c ∧ c.schema = s ∧ c.name = s.token ∧
      c.held.values.Perm c.properties ∧ c.properties =
        if populate then s.properties.map fun p =>
          ((r.default? token).bind (·.property? p.token)).getD (.ofSchema p)
        else []

theorem Reached.records (hr : r.Reached) {log : Catalog}
    (h : ∀ token, r.schema? token = log.last? token) : r.Records log where
  schema := h
  default := hr.isSome_default?_iff
  bound token d hd := (hr.sound.default token d hd).1
  unknown token populate hs := by
    rw [create]
    simp only [hs]
  created token s populate hs := by
    obtain ⟨c, hc, hcs, hname⟩ := create_of_schema? hs populate
    exact ⟨c, hc, hcs, hname, properties_of_create hr.sound hs hc⟩

/-- The registry after batches of types were registered one after the other. -/
def registerAll (batches : List Catalog) : Registry :=
  batches.foldl (fun r batch => (r.register batch).value) empty

theorem schema?_foldl_register (r : Registry) (batches : List Catalog) (token : String) :
    (batches.foldl (fun r batch => (r.register batch).value) r).schema? token =
      (Catalog.last? batches.flatten token).or (r.schema? token) := by
  induction batches generalizing r with
  | nil => rfl
  | cons batch rest ih =>
    rw [List.foldl_cons, ih, schema?_register, List.flatten_cons, Catalog.last?_append,
      Option.or_assoc]

theorem schema?_registerAll (batches : List Catalog) (token : String) :
    (registerAll batches).schema? token = Catalog.last? batches.flatten token := by
  rw [registerAll, schema?_foldl_register]
  exact Option.or_none

theorem Reached.foldl_register (h : r.Reached) {batches : List Catalog}
    (hb : ∀ batch ∈ batches, ∀ s ∈ batch, s.Declared) :
    (batches.foldl (fun r batch => (r.register batch).value) r).Reached := by
  induction batches generalizing r with
  | nil => exact h
  | cons batch rest ih =>
    have hbatch : ∀ s ∈ batch, s.Distinct :=
      fun s hs => ChunkSchema.declared_iff.mp (hb batch (.head _) s hs)
    exact ih (h.register hbatch) fun b hm => hb b (.tail _ hm)

theorem reached_registerAll {batches : List Catalog}
    (hb : ∀ batch ∈ batches, ∀ s ∈ batch, s.Declared) : (registerAll batches).Reached :=
  Reached.empty.foldl_register hb

/-- Whatever is registered, the types of a registry are the last ones of their tokens, and those
whose template is of their own type have a default chunk. -/
theorem records_registerAll {batches : List Catalog}
    (hb : ∀ batch ∈ batches, ∀ s ∈ batch, s.Declared) :
    (registerAll batches).Records batches.flatten :=
  (reached_registerAll hb).records (schema?_registerAll batches)

/-- A type that is described twice, and once more in another batch, and one whose template is of
another type. -/
def repeatedBatches : List Catalog :=
  [[{ token := "Crate" },
    { token := "crate", properties := [{ token := "size" }], defaults := some ⟨"CRATE", [], []⟩ },
    { token := "Note", defaults := some ⟨"Crate", [⟨"size", "1"⟩], []⟩ }],
    [{ token := "CRATE", properties := [{ token := "Size" }, { token := "inner" }] }]]

theorem declared_repeatedBatches :
    ∀ batch ∈ repeatedBatches, ∀ s ∈ batch, s.Declared := by decide

theorem records_registerAll_repeated :
    (registerAll repeatedBatches).Records repeatedBatches.flatten :=
  records_registerAll declared_repeatedBatches

end Registry

end ChunkConfig
