import ChunkConfig.Proofs.Registry.Register
import Mathlib.Data.List.Nodup

namespace ChunkConfig

/-- No two types of a catalog have the same token. -/
def Catalog.Distinct (c : Catalog) : Prop :=
  (c.map fun s => Text.fold s.token).Nodup

instance (c : Catalog) : Decidable c.Distinct :=
  inferInstanceAs (Decidable (List.Nodup _))

namespace Catalog

variable {batch : Catalog} {s t : ChunkSchema}

theorem Distinct.eq_or_same_eq_false (h : batch.Distinct) (hs : s ∈ batch) (ht : t ∈ batch) :
    s = t ∨ Text.same s.token t.token = false := by
  cases hsame : Text.same s.token t.token with
  | false => exact .inr rfl
  | true => exact .inl (List.inj_on_of_nodup_map h hs ht (Text.same_iff.mp hsame))

theorem Distinct.last?_of_mem (h : batch.Distinct) (hs : s ∈ batch) :
    batch.last? s.token = some s := by
  cases hl : batch.last? s.token with
  | none =>
    have hany : (batch.any fun t => Text.same t.token s.token) = true :=
      List.any_eq_true.mpr ⟨s, hs, Text.same_self _⟩
    rw [any_same_eq_isSome, hl] at hany
    cases hany
  | some t =>
    rcases h.eq_or_same_eq_false (mem_of_last? hl) hs with rfl | hne
    · rfl
    · rw [same_of_last? hl] at hne
      cases hne

theorem Distinct.last?_tail {rest : Catalog} (h : Catalog.Distinct (s :: rest)) :
    Catalog.last? rest s.token = none := by
  cases hl : Catalog.last? rest s.token with
  | none => rfl
  | some t =>
    have hm : Text.fold s.token ∈ rest.map fun u => Text.fold u.token :=
      List.mem_map.mpr ⟨t, mem_of_last? hl, Text.same_iff.mp (same_of_last? hl)⟩
    exact absurd hm (List.nodup_cons.mp h).1

theorem Distinct.append_right {first second : Catalog}
    (h : Catalog.Distinct (first ++ second)) : second.Distinct := by
  rw [Distinct, List.map_append] at h
  exact h.of_append_right

end Catalog

namespace Registry

variable {r : Registry} {batch : Catalog}

theorem ext {r r' : Registry} (hs : r.schemas = r'.schemas) (hd : r.defaults = r'.defaults) :
    r = r' := by
  cases r
  cases r'
  cases hs
  cases hd
  rfl

theorem schemas_foldl_enter (r : Registry) (batch : Catalog) :
    (batch.foldl enter r).schemas = batch.foldl (fun m s => m.insert s.token s) r.schemas := by
  induction batch generalizing r with
  | nil => rfl
  | cons s rest ih => exact ih (r.enter s)

theorem defaults_foldl_enter (r : Registry) (batch : Catalog) :
    (batch.foldl enter r).defaults =
      ⟨r.defaults.entries.filter fun e => batch.all fun s => e.1 ≠ Text.fold s.token⟩ := by
  induction batch generalizing r with
  | nil => exact congrArg TokenMap.mk (List.filter_true _).symm
  | cons s rest ih =>
    rw [List.foldl_cons, ih, enter, TokenMap.erase, List.filter_filter]
    simp only [List.all_cons, Bool.and_comm]

theorem foldl_insert_insert {t : ChunkSchema} (h : ∃ s ∈ batch, Text.same t.token s.token = true)
    (m : TokenMap ChunkSchema) :
    batch.foldl (fun m s => m.insert s.token s) (m.insert t.token t) =
      batch.foldl (fun m s => m.insert s.token s) m := by
  induction batch generalizing m with
  | nil =>
    obtain ⟨s, hs, -⟩ := h
    cases hs
  | cons s rest ih =>
    rw [List.foldl_cons, List.foldl_cons]
    cases hsame : Text.same t.token s.token with
    | true => rw [m.insert_insert hsame]
    | false =>
      rw [m.insert_comm hsame]
      apply ih
      obtain ⟨u, hu, htu⟩ := h
      rcases List.mem_cons.mp hu with rfl | hu
      · rw [hsame] at htu
        cases htu
      · exact ⟨u, hu, htu⟩

theorem foldl_insert_foldl_insert {first second : Catalog} (h : ∀ s ∈ first, s ∈ second)
    (m : TokenMap ChunkSchema) :
    second.foldl (fun m s => m.insert s.token s) (first.foldl (fun m s => m.insert s.token s) m) =
      second.foldl (fun m s => m.insert s.token s) m := by
  induction first generalizing m with
  | nil => rfl
  | cons t rest ih =>
    rw [List.foldl_cons, ih fun s hs => h s (.tail _ hs)]
    exact foldl_insert_insert ⟨t, h t (.head _), Text.same_self _⟩ m

theorem mem_of_mem_buildTemplates {e : ChunkSchema × Chunk}
    (h : e ∈ (r.buildTemplates batch).value) : e.1 ∈ batch := by
  induction batch with
  | nil => cases h
  | cons s rest ih =>
    rw [buildTemplates_cons] at h
    rcases List.mem_append.mp h with h | h
    · split at h
      · cases h
      · obtain ⟨c, -, rfl⟩ := List.mem_map.mp h
        exact .head _
    · exact .tail _ (ih h)

theorem filter_enterDefaults {p : String → Bool} {entries : List (ChunkSchema × Chunk)}
    (h : ∀ e ∈ entries, p (Text.fold e.1.token) = false) (r : Registry) :
    (r.enterDefaults entries).value.defaults.entries.filter (fun e => p e.1) =
      r.defaults.entries.filter fun e => p e.1 := by
  induction entries generalizing r with
  | nil => rfl
  | cons entry rest ih =>
    obtain ⟨s, c⟩ := entry
    have hrest := ih fun e he => h e (.tail _ he)
    rw [enterDefaults]
    split
    · rw [hrest]
      exact TokenMap.filter_insertEntry (h _ (.head _)) c _
    · exact hrest r

/-- Entering a batch once more, after its default chunks were built, undoes the latter and nothing
else. -/
theorem foldl_enter_register (r : Registry) (batch : Catalog) :
    batch.foldl enter (r.register batch).value = batch.foldl enter r := by
  have hschemas : (batch.foldl enter (r.register batch).value).schemas =
      (batch.foldl enter r).schemas := by
    have hregister : (r.register batch).value.schemas = (batch.foldl enter r).schemas :=
      schemas_enterDefaults _ _
    rw [schemas_foldl_enter, hregister, schemas_foldl_enter]
    exact foldl_insert_foldl_insert (fun s hs => hs) r.schemas
  have hdefaults : (batch.foldl enter (r.register batch).value).defaults =
      (batch.foldl enter r).defaults := by
    have hdropped : ∀ e ∈ ((batch.foldl enter r).buildTemplates batch).value,
        (batch.all fun s => decide (Text.fold e.1.token ≠ Text.fold s.token)) = false := by
      intro e he
      rw [List.all_eq_false]
      exact ⟨e.1, mem_of_mem_buildTemplates he, by simp⟩
    have hfilter := filter_enterDefaults
      (p := fun key => batch.all fun s => decide (key ≠ Text.fold s.token)) hdropped
      (batch.foldl enter r)
    rw [defaults_foldl_enter]
    apply (congrArg TokenMap.mk hfilter).trans
    rw [defaults_foldl_enter, List.filter_filter]
    simp only [Bool.and_self]
  exact ext hschemas hdefaults

/-- Registering a batch a second time changes nothing, and meets the same problems again. -/
theorem register_register (r : Registry) (batch : Catalog) :
    (r.register batch).value.register batch = r.register batch := by
  rw [register, foldl_enter_register]
  rfl

theorem enter_comm (r : Registry) {s t : ChunkSchema} (h : Text.same s.token t.token = false) :
    (r.enter s).enter t = (r.enter t).enter s :=
  ext (r.schemas.insert_comm h s t) (r.defaults.erase_comm s.token t.token)

theorem foldl_enter_perm {batch' : Catalog} (hd : batch.Distinct) (hp : batch'.Perm batch)
    (r : Registry) : batch'.foldl enter r = batch.foldl enter r := by
  apply hp.foldl_eq'
  intro s hs t ht r
  rcases hd.eq_or_same_eq_false (hp.mem_iff.mp hs) (hp.mem_iff.mp ht) with rfl | hne
  · rfl
  · exact enter_comm r hne

/-- Enters the default chunk that a type has by the types and default chunks of another registry. -/
def enterOwn (source r : Registry) (s : ChunkSchema) : Registry :=
  match source.ownDefault? s with
  | none => r
  | some c => { r with defaults := r.defaults.insert s.token c }

theorem enterOwn_comm (source r : Registry) {s t : ChunkSchema}
    (h : Text.same s.token t.token = false) :
    enterOwn source (enterOwn source r s) t = enterOwn source (enterOwn source r t) s := by
  unfold enterOwn
  cases source.ownDefault? s with
  | none => rfl
  | some c =>
    cases source.ownDefault? t with
    | none => rfl
    | some d => exact ext rfl (r.defaults.insert_comm h c d)

theorem enterDefaults_template (source r : Registry) (s : ChunkSchema) :
    (r.enterDefaults ((source.template? s).toList.map (s, ·))).value = enterOwn source r s := by
  rw [enterOwn, ownDefault?]
  cases source.template? s with
  | none => rfl
  | some c =>
    rw [Option.toList_some, List.map_singleton, enterDefaults, Option.filter_some]
    split
    · rfl
    · rfl

/-- When no two types have the same token, each of them has its own default chunk entered. -/
theorem value_enterDefaults (hd : batch.Distinct) (source r : Registry) :
    (r.enterDefaults (source.buildTemplates batch).value).value =
      batch.foldl (enterOwn source) r := by
  induction batch generalizing r with
  | nil => rfl
  | cons s rest ih =>
    rw [buildTemplates_cons, hd.last?_tail, Option.isSome_none, if_neg Bool.false_ne_true,
      enterDefaults_append, enterDefaults_template, List.foldl_cons]
    exact ih (List.nodup_cons.mp hd).2 _

/-- The problems that are met in the template of a type. -/
def templateProblems (r : Registry) (s : ChunkSchema) : List Problem :=
  match s.defaults with
  | none => []
  | some template => (r.buildChunk true false template.node).problems

/-- The problem with a template that is of another type than the one it was given for. -/
def typeProblems (r : Registry) (s : ChunkSchema) : List Problem :=
  match r.template? s with
  | none => []
  | some c =>
    if Text.same c.schema.token s.token then []
    else [.defaultOfOtherType s.token c.schema.token]

theorem problems_buildTemplates (r : Registry) (batch : Catalog) :
    (r.buildTemplates batch).problems = batch.flatMap r.templateProblems := by
  induction batch with
  | nil => rfl
  | cons s rest ih =>
    rw [buildTemplates, List.flatMap_cons, templateProblems]
    cases s.defaults with
    | none => exact ih
    | some template =>
      rw [← ih]
      simp only [Reported.problems_bind, Reported.problems_pure, List.append_nil]

theorem problems_enterDefaults_append (r : Registry) (first second : List (ChunkSchema × Chunk)) :
    (r.enterDefaults (first ++ second)).problems =
      (r.enterDefaults first).problems ++
        ((r.enterDefaults first).value.enterDefaults second).problems := by
  induction first generalizing r with
  | nil => rfl
  | cons entry rest ih =>
    rw [List.cons_append, enterDefaults, enterDefaults]
    split
    · exact ih _
    · exact congrArg _ (ih r)

theorem problems_enterDefaults_template (source r : Registry) (s : ChunkSchema) :
    (r.enterDefaults ((source.template? s).toList.map (s, ·))).problems =
      source.typeProblems s := by
  rw [typeProblems]
  cases source.template? s with
  | none => rfl
  | some c =>
    rw [Option.toList_some, List.map_singleton, enterDefaults]
    split
    · next h => exact (if_pos h).symm
    · next h => exact (if_neg h).symm

theorem problems_enterDefaults (hd : batch.Distinct) (source r : Registry) :
    (r.enterDefaults (source.buildTemplates batch).value).problems =
      batch.flatMap source.typeProblems := by
  induction batch generalizing r with
  | nil => rfl
  | cons s rest ih =>
    rw [buildTemplates_cons, hd.last?_tail, Option.isSome_none, if_neg Bool.false_ne_true,
      problems_enterDefaults_append, problems_enterDefaults_template, List.flatMap_cons,
      ih (List.nodup_cons.mp hd).2]

/-- The order of a batch does not matter when no two of its types have the same token: the registry
is the same, and the problems are the same in another order. -/
theorem register_perm {batch' : Catalog} (hd : batch.Distinct) (hp : batch'.Perm batch)
    (r : Registry) : (r.register batch').value = (r.register batch).value ∧
      (r.register batch').problems.Perm (r.register batch).problems := by
  have hd' : batch'.Distinct := (hp.map _).nodup_iff.mpr hd
  rw [register, register, foldl_enter_perm hd hp]
  -- From here on both orders are built in the same registry.
  generalize batch.foldl enter r = source
  constructor
  · rw [Reported.value_bind, Reported.value_bind, value_enterDefaults hd', value_enterDefaults hd]
    apply hp.foldl_eq'
    intro s hs t ht r
    rcases hd'.eq_or_same_eq_false hs ht with rfl | hne
    · rfl
    · exact enterOwn_comm source r hne
  · rw [Reported.problems_bind, Reported.problems_bind, problems_buildTemplates,
      problems_buildTemplates, problems_enterDefaults hd', problems_enterDefaults hd]
    exact (hp.flatMap_right _).append (hp.flatMap_right _)

/-- A lamp that is on. -/
def lampBatch : Catalog :=
  [{ token := "Lamp", properties := [{ token := "on", kind := .bool }]
     defaults := some ⟨"Lamp", [⟨"on", "true"⟩], []⟩ }]

/-- Boxes and bags that hold each other, a box that holds a box, a lamp that was registered before,
and a type whose template is of another one. -/
def knotBatch : Catalog :=
  [{ token := "Box", properties := [{ token := "inner", kind := .embedded, count := .variable }]
     defaults := some ⟨"Box", [], [.element "inner" []
       [.element "Bag" [] [], .element "Box" [] [], .element "Lamp" [] []]]⟩ },
   { token := "Bag", properties := [{ token := "inner", kind := .embedded }]
     defaults := some ⟨"Bag", [⟨"size", "1"⟩], [.element "inner" [] [.element "Box" [] []]]⟩ },
   { token := "Note", defaults := some ⟨"Bag", [], []⟩ }]

theorem register_perm_knot :
    knotBatch.Distinct ∧
      ((empty.register lampBatch).value.register knotBatch.reverse).value =
        ((empty.register lampBatch).value.register knotBatch).value ∧
      ((empty.register lampBatch).value.register knotBatch.reverse).problems.Perm
        ((empty.register lampBatch).value.register knotBatch).problems := by
  have hd : knotBatch.Distinct := by decide
  exact ⟨hd, register_perm hd (List.reverse_perm knotBatch) (empty.register lampBatch).value⟩

end Registry

end ChunkConfig
