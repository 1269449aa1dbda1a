import ChunkConfig.Proofs.Schema.Abandoned
import ChunkConfig.Proofs.Schema.Declared

namespace ChunkConfig

open Xml (Element Node)

/-- Whether a problem is that a property was described again. -/
def Problem.isRepeat (p : Problem) : Bool :=
  p.code = .duplicateProperty

theorem Problem.isRepeat_of_code {p : Problem} {c : Code} (h : p.code = c) :
    p.isRepeat = decide (c = .duplicateProperty) := by
  rw [isRepeat, h]

theorem Problem.IsMinor.isRepeat {p : Problem} (h : p.IsMinor) : p.isRepeat = false := by
  rcases h with h | h | h
  all_goals
    rw [Problem.isRepeat_of_code h]
    rfl

theorem Abandons.isRepeat {e : Element} {p : Problem} (h : Abandons e p) : p.isRepeat = false := by
  cases h with
  | refused _ _ refuses => cases refuses <;> rfl
  | property => rfl
  | chunkType => rfl

theorem PropertySchema.tells_ofElement {e : Element}
    (named : Text.same e.name "PropertyDesc" = true) :
    (ofElement e).Tells (·.isRepeat = false) := by
  rw [ofElement]
  rcases ofAttributes_cases named with ⟨-, problem, he, hproblem⟩ | ⟨-, p, hp⟩
  · rw [he]
    exact .bind (.report hproblem.isRepeat) (.pure none)
  · rw [hp]
    refine .bind (tells_applyElements ?_ ?_ p e.children) (.pure _)
    · exact fun p e => (tells_applyElement p e).mono fun _ h => h.isRepeat
    · exact fun _ h => Problem.isRepeat_of_code h

namespace ChunkSchema

open PropertySchema (folded repeats)

/-- The property that a child element of the description of a chunk type describes, unless its
description is given up. -/
def described? (e : Element) : Option PropertySchema :=
  if Text.same e.name "PropertyDesc" then (PropertySchema.ofElement e).value else none

/-- The properties that an element describes, one for each of its children that describes one. No
child counts when there is no token. -/
def describedBy (e : Element) : List PropertySchema :=
  if Text.allBlank (lastValue e.attributes "token") then []
  else (e.children.filterMap Node.element?).filterMap described?

/-- A result in which properties were declared in a type, and which tells of those that repeat
others, and of no others. -/
structure Redeclares (s : ChunkSchema) (ps : List PropertySchema) (x : Reported ChunkSchema) :
    Prop where
  token_eq : x.value.token = s.token
  properties_eq : x.value.properties = (s.declareAll ps).properties
  told : x.problems.filter Problem.isRepeat =
    (repeats (s.properties.map folded) ps).map fun p => .duplicateProperty s.token p.token

variable {s : ChunkSchema} {ps qs : List PropertySchema} {x : Reported ChunkSchema}
  {f : ChunkSchema → Reported ChunkSchema}

theorem Redeclares.nil (ht : x.value.token = s.token) (hp : x.value.properties = s.properties)
    (hx : x.Tells (·.isRepeat = false)) : Redeclares s [] x where
  token_eq := ht
  properties_eq := hp
  told := by
    apply List.filter_eq_nil_iff.mpr
    intro p hm
    rw [hx p hm]
    exact Bool.false_ne_true

theorem Redeclares.bind (hx : Redeclares s ps x) (hf : Redeclares x.value qs (f x.value)) :
    Redeclares s (ps ++ qs) (x >>= f) where
  token_eq := hf.token_eq.trans hx.token_eq
  properties_eq := by
    rw [Reported.value_bind, hf.properties_eq, declareAll_append]
    exact properties_declareAll_congr hx.properties_eq qs
  told := by
    rw [Reported.problems_bind, List.filter_append, hx.told, hf.told, repeats_append,
      List.map_append, hx.token_eq, hx.properties_eq]

theorem Redeclares.after {α : Type} {y : Reported α} {g : α → Reported ChunkSchema}
    (hy : y.Tells (·.isRepeat = false)) (hg : Redeclares s ps (g y.value)) :
    Redeclares s ps (y >>= g) :=
  .bind (x := ⟨s, y.problems⟩) (f := fun _ => g y.value) (.nil rfl rfl hy) hg

theorem redeclares_declare (s : ChunkSchema) (p : PropertySchema) :
    Redeclares s [p] (do
      if (s.declare p).1.isSome then report (.duplicateProperty s.token p.token)
      return (s.declare p).2) := by
  have hiff := (s.declares_declare p).isSome_iff
  split
  · next h =>
    refine ⟨rfl, rfl, ?_⟩
    rw [repeats, if_pos (hiff.mp h)]
    rfl
  · next h =>
    refine ⟨rfl, rfl, ?_⟩
    rw [repeats, if_neg (mt hiff.mpr h)]
    rfl

/-- Every child element declares the property that it describes, if it describes one. -/
theorem redeclares_applyElement (s : ChunkSchema) (e : Element) :
    Redeclares s (described? e).toList (s.applyElement e) := by
  rw [applyElement, described?]
  split
  · next named =>
    refine .after (PropertySchema.tells_ofElement named) ?_
    cases (PropertySchema.ofElement e).value with
    | none => exact .nil rfl rfl (.pure s)
    | some p => exact s.redeclares_declare p
  · split
    · exact .nil rfl rfl (.bind ((tells_helpText _ _).mono fun _ => Problem.isRepeat_of_code)
        (.pure _))
    · split
      · have htold := (s.tells_applyTemplates (e.children.filterMap Node.element?)).mono
          fun _ => Problem.isRepeat_of_code
        refine .nil ?_ ?_ htold
        all_goals
          unfold applyTemplates
          split <;> rfl
      · exact .nil rfl rfl (.bind (.report rfl) (.pure s))

theorem redeclares_applyElements (s : ChunkSchema) (nodes : List Node) :
    Redeclares s ((nodes.filterMap Node.element?).filterMap described?)
      (applyElements applyElement s nodes) := by
  induction nodes generalizing s with
  | nil => exact .nil rfl rfl (.pure s)
  | cons node nodes ih =>
    cases node with
    | element name as cs =>
      have h := (s.redeclares_applyElement ⟨name, as, cs⟩).bind
        (f := fun t => applyElements applyElement t nodes) (ih _)
      change Redeclares s (List.filterMap described? (⟨name, as, cs⟩ ::
        nodes.filterMap Node.element?)) (s.applyElement ⟨name, as, cs⟩ >>= _)
      rw [List.filterMap_cons]
      cases hp : described? ⟨name, as, cs⟩ <;> rwa [hp] at h
    | text | comment | instruction | notationName => exact ih s
    | document | fragment | attr | other =>
      refine .after ?_ (ih s)
      exact (tells_reportUnexpected _).mono fun _ => Problem.isRepeat_of_code

theorem declared_and_told (e : Element) :
    (∀ s, (ofElement e).value = some s →
      s.properties = (declareAll {} (describedBy e)).properties) ∧
    (ofElement e).problems.filter Problem.isRepeat = (repeats [] (describedBy e)).map fun p =>
      .duplicateProperty (Text.trim (lastValue e.attributes "token")) p.token := by
  rw [describedBy, ← Text.isEmpty_trim]
  split
  · next hb =>
    have he : ofElement e = ⟨none, [.chunkTypeWithoutToken (lastValue e.attributes "name")]⟩ := by
      simp only [ofElement, hb, if_true]
      rfl
    rw [he]
    refine ⟨fun s hs => ?_, rfl⟩
    cases hs
  · next hb =>
    obtain ⟨s, hproperties, htoken, he⟩ : ∃ s : ChunkSchema, s.properties = [] ∧
        s.token = Text.trim (lastValue e.attributes "token") ∧
        ofElement e = some <$> applyElements applyElement s e.children := by
      simp only [ofElement, hb]
      exact ⟨_, rfl, rfl, rfl⟩
    have h := redeclares_applyElements s e.children
    rw [he, Reported.value_map, Reported.problems_map, h.told, htoken, hproperties]
    refine ⟨fun t ht => ?_, rfl⟩
    obtain rfl := Option.some.inj ht
    exact h.properties_eq.trans (properties_declareAll_congr hproperties _)

/-- What comes of the properties that an element describes, and what is told of those that repeat
others. Of the properties with one token, all but one are told of. -/
structure Recounts (e : Element) (ps : List PropertySchema) : Prop where
  declared : ∀ s, (ofElement e).value = some s → s.properties = (declareAll {} ps).properties
  told : (ofElement e).problems.filter Problem.isRepeat = (repeats [] ps).map fun p =>
    .duplicateProperty (Text.trim (lastValue e.attributes "token")) p.token
  count : ∀ key, ((repeats [] ps).map folded).count key = (ps.map folded).count key - 1

theorem recounts_describedBy (e : Element) : Recounts e (describedBy e) :=
  ⟨(declared_and_told e).1, (declared_and_told e).2, PropertySchema.count_repeats [] _⟩

end ChunkSchema

end ChunkConfig
