import ChunkConfig.Proofs.Building.Content
import ChunkConfig.Proofs.Building.Embedded
import ChunkConfig.Proofs.Building.Pruned
import ChunkConfig.Proofs.Building.Taken

namespace ChunkConfig

open Xml (Attribute Node)

/-- Whether an attribute of a chunk element has text for a property that embeds chunks. -/
def ChunkSchema.misuses (s : ChunkSchema) (a : Attribute) : Bool :=
  !Text.same a.name "name" && (s.property? a.name).any (fun p => p.kind = .embedded) &&
    !(Text.tokens a.value).isEmpty

theorem ChunkSchema.misuses_iff {s : ChunkSchema} {a : Attribute} : s.misuses a = true ↔
    Text.same a.name "name" = false ∧ (∃ p, s.property? a.name = some p ∧ p.kind = .embedded) ∧
      Text.tokens a.value ≠ [] := by
  rw [misuses]
  cases s.property? a.name with
  | none => simp
  | some p => simp [and_assoc]

namespace Registry

mutual

/-- The attributes of the chunk elements among nodes whose types are known, and of all chunk
elements below them, each with the type of its chunk. -/
def chunkAttributes (r : Registry) : List Node → List (ChunkSchema × Attribute)
  | [] => []
  | .element name attributes children :: rest =>
    match r.schema? name with
    | none => r.chunkAttributes rest
    | some s =>
      attributes.map (s, ·) ++ r.fieldAttributes s children ++ r.chunkAttributes rest
  | _ :: rest => r.chunkAttributes rest

/-- Those below the children of a chunk element, where chunks are embedded. -/
def fieldAttributes (r : Registry) (s : ChunkSchema) : List Node → List (ChunkSchema × Attribute)
  | [] => []
  | .element name _ children :: rest =>
    match s.property? name with
    | none => r.fieldAttributes s rest
    | some p =>
      (if p.kind = .embedded then r.chunkAttributes children else []) ++ r.fieldAttributes s rest
  | _ :: rest => r.fieldAttributes s rest

end

mutual

/-- Those in all databases in a document. -/
def attributesIn (r : Registry) : Node → List (ChunkSchema × Attribute)
  | .document children | .fragment children => r.attributesInEach children
  | .element name _ children =>
    if Text.same name "ConfigChunkDB" then r.chunkAttributes children else []
  | _ => []

def attributesInEach (r : Registry) : List Node → List (ChunkSchema × Attribute)
  | [] => []
  | child :: rest => r.attributesIn child ++ r.attributesInEach rest

end

end Registry

namespace Reported

variable {α β : Type} {x : Reported α} {f : α → Reported β} {m n : Nat}

/-- Whether there are `n` problems about values that cannot be coerced, none of which is that a
value was refused after it had been read. -/
structure Coerces (x : Reported α) (n : Nat) : Prop where
  count_eq : x.problems.countP (fun p => p.code = .coercion) = n
  stored : ∀ p ∈ x.problems, ∀ token e, p ≠ .notStored token e

theorem Coerces.of_forall (h : ∀ p ∈ x.problems, p.code ≠ .coercion) : x.Coerces 0 where
  count_eq := by
    rw [List.countP_eq_zero]
    intro p hp
    rw [decide_eq_true_eq]
    exact h p hp
  stored p hp token e he := by
    apply h p hp
    rw [he]
    rfl

theorem Coerces.pure (a : α) : Coerces (Pure.pure a) 0 :=
  .of_forall fun _ hp => absurd hp List.not_mem_nil

theorem Coerces.bind (hx : x.Coerces m) (hf : (f x.value).Coerces n) :
    (x >>= f).Coerces (m + n) where
  count_eq := by rw [problems_bind, List.countP_append, hx.count_eq, hf.count_eq]
  stored p hp := (List.mem_append.mp hp).elim (hx.stored p) (hf.stored p)

theorem Coerces.map (hx : x.Coerces n) (f : α → β) :
    (x >>= fun a => Pure.pure (f a)).Coerces n :=
  hx.bind (f := fun a => Pure.pure (f a)) (.pure _)

theorem Coerces.report {p : Problem} (h : p.code ≠ .coercion) (a : α) :
    Coerces (report p >>= fun _ => Pure.pure a) 0 :=
  .of_forall fun _ hx => List.mem_singleton.mp hx ▸ h

end Reported

theorem PropertySchema.Ending.code_ne {α : Type} {s : PropertySchema} {slot : Nat}
    {tokens : List String} {problem : Option Problem} (h : s.Ending α slot tokens problem)
    (hk : s.kind ≠ .embedded) : ∀ p ∈ problem, p.code ≠ .coercion := by
  intro p hp
  cases h with
  | complete => cases hp
  | embedded he => exact absurd he hk
  | rejected | full =>
    cases hp
    nofun

namespace Property

variable {α : Type} {p q : Property α}

theorem Placed.code_ne {as : List α} {problems : List Problem} (h : p.Placed as q problems) :
    ∀ x ∈ problems, x.code ≠ .coercion := by
  intro x hx
  cases hc : p.schema.count with
  | fixed n =>
    rw [(h.of_fixed n hc).2.2] at hx
    split at hx
    · rw [List.mem_singleton.mp hx]
      nofun
    · cases hx
  | «variable» =>
    rw [(h.of_variable hc).2] at hx
    cases hx

theorem storeTokens_of_embedded (hk : p.schema.kind = .embedded) (slot : Nat)
    {tokens : List String} (ht : tokens ≠ []) :
    p.storeTokens slot tokens = ⟨p, slot, some (.textForEmbedded p.schema.token)⟩ := by
  cases tokens with
  | nil => exact absurd rfl ht
  | cons token rest => rw [storeTokens, coerce_of_embedded hk]

end Property

namespace Chunk

open Reported (Coerces)

variable {c : Chunk} {p q : Property Chunk} {a : Attribute}

theorem ContentEffect.code_ne {element : String} {slot : Nat} {nodes : List Node}
    {problems : List Problem} (h : ContentEffect element p slot nodes q problems)
    (hk : p.schema.kind ≠ .embedded) : ∀ x ∈ problems, x.code ≠ .coercion := by
  induction h with
  | nil => exact fun _ hx => absurd hx List.not_mem_nil
  | text first _ ih =>
    intro x hx
    rcases List.mem_append.mp hx with hx | hx
    · exact first.ending.code_ne hk x (Option.mem_toList.mp hx)
    · exact ih (first.schema_eq ▸ hk) x hx
  | other _ _ ih =>
    intro x hx
    rcases List.mem_cons.mp hx with rfl | hx
    · nofun
    · exact ih hk x hx

/-- Text for a property that embeds chunks is one problem, and changes none of its values. -/
theorem applyAttribute_of_misuses (hc : c.Declares) (h : c.schema.misuses a = true) :
    ∃ s p, c.schema.property? a.name = some s ∧ c.open? a.name = some p ∧
      c.applyAttribute a = ⟨c.hold a.name p, [.textForEmbedded s.token]⟩ := by
  obtain ⟨hname, ⟨s, hs, hk⟩, htokens⟩ := ChunkSchema.misuses_iff.mp h
  obtain ⟨p, ho, rfl⟩ := hc.exists_open? hs
  refine ⟨p.schema, p, hs, ho, ?_⟩
  rw [applyAttribute, if_neg (Bool.eq_false_iff.mp hname), hs, ho]
  simp only [hk, if_true]
  rw [fill, Property.fill, Property.storeTokens_of_embedded hk 0 htokens]
  rfl

theorem coerces_applyAttribute_of_not (hc : c.Proper) (h : c.schema.misuses a = false) :
    (c.applyAttribute a).Coerces 0 := by
  rw [applyAttribute]
  split
  · exact .pure _
  · next hname =>
    split
    · next s p hs hp =>
      obtain ⟨hschema, hproper⟩ := hc.of_open? hp
      obtain rfl := Option.some.inj (hs.symm.trans hschema)
      apply Coerces.of_forall
      intro x hx
      by_cases hk : p.schema.kind = .embedded
      · have htokens : Text.tokens a.value = [] := by
          by_contra hne
          rw [ChunkSchema.misuses_iff.mpr ⟨Bool.eq_false_iff.mpr hname, ⟨_, hs, hk⟩, hne⟩] at h
          cases h
        rw [if_pos hk, fill, Property.fill, htokens] at hx
        cases hx
      · rw [if_neg hk] at hx
        have ht := hproper.restart.typed
        obtain ⟨vs, heffect⟩ := Property.exists_effect ht 0 (Text.tokens a.value)
        exact heffect.ending.code_ne (p.schema_restart.symm ▸ hk) x (Option.mem_toList.mp hx)
    · apply Coerces.report
      intro hcode
      cases hcode

theorem coerces_applyAttribute (hc : c.Proper) (a : Attribute) :
    (c.applyAttribute a).Coerces (if c.schema.misuses a then 1 else 0) := by
  cases h : c.schema.misuses a with
  | true =>
    obtain ⟨s, p, -, -, he⟩ := applyAttribute_of_misuses hc.declares h
    rw [he]
    refine ⟨rfl, ?_⟩
    intro x hx
    rw [List.mem_singleton.mp hx]
    nofun
  | false => exact coerces_applyAttribute_of_not hc h

end Chunk

namespace Registry

open Reported (Coerces)

variable {r : Registry} {nested populate : Bool}

theorem coerces_attributes (hr : r.Sound) (as : List Attribute) {c : Chunk} (hc : c.Proper) :
    (as.foldlM Chunk.applyAttribute c).Coerces (as.countP c.schema.misuses) := by
  induction as generalizing c with
  | nil => exact .pure c
  | cons a as ih =>
    have hrest := ih (hr.proper_applyAttribute hc a)
    rw [c.schema_applyAttribute] at hrest
    rw [List.foldlM_cons, List.countP_cons, Nat.add_comm]
    exact (Chunk.coerces_applyAttribute hc a).bind hrest

theorem coerces_applyNode_chunks {c : Chunk} (hc : c.Proper) {name : String} {p : PropertySchema}
    (hs : c.schema.property? name = some p) (hk : p.kind = .embedded) (as : List Attribute)
    {cs : List Node} {n : Nat} (hbelow : (r.buildAll nested cs).Coerces n) :
    (r.applyNode nested c (.element name as cs)).Coerces n := by
  obtain ⟨q, ho, rfl, hproper⟩ := hc.exists_open? hs
  rw [applyNode, hs, ho]
  simp only [hk, if_true]
  apply hbelow.bind (n := 0)
  exact (Coerces.of_forall (Chunk.placed_storeChunks hproper.typed hk _).code_ne).map _

theorem coerces_applyNode_content {c : Chunk} (hc : c.Proper) {name : String} {p : PropertySchema}
    (hs : c.schema.property? name = some p) (hk : p.kind ≠ .embedded) (as : List Attribute)
    (cs : List Node) : (r.applyNode nested c (.element name as cs)).Coerces 0 := by
  obtain ⟨q, ho, rfl, hproper⟩ := hc.exists_open? hs
  have heffect := Chunk.contentEffect_fillContent hproper.restart.typed 0 name cs
  rw [applyNode, hs, ho]
  simp only [hk, if_false]
  exact (Coerces.of_forall (heffect.code_ne (q.schema_restart.symm ▸ hk))).map _

theorem chunkAttributes_cons (r : Registry) (node : Node) (rest : List Node) :
    r.chunkAttributes (node :: rest) = r.chunkAttributes [node] ++ r.chunkAttributes rest := by
  cases node with
  | element name as cs =>
    rw [chunkAttributes, chunkAttributes]
    cases r.schema? name with
    | none => simp only [chunkAttributes, List.nil_append]
    | some s => simp only [chunkAttributes, List.append_nil]
  | _ => simp only [chunkAttributes, List.nil_append]

theorem fieldAttributes_cons (r : Registry) (s : ChunkSchema) (node : Node) (rest : List Node) :
    r.fieldAttributes s (node :: rest) =
      r.fieldAttributes s [node] ++ r.fieldAttributes s rest := by
  cases node with
  | element name as cs =>
    rw [fieldAttributes, fieldAttributes]
    cases s.property? name with
    | none => simp only [fieldAttributes, List.nil_append]
    | some p => simp only [fieldAttributes, List.append_nil]
  | _ => simp only [fieldAttributes, List.nil_append]

/-- The number of attributes that have text for a property that embeds chunks. -/
def misused (attributes : List (ChunkSchema × Attribute)) : Nat :=
  attributes.countP fun a => a.1.misuses a.2

theorem misused_nil : misused [] = 0 := rfl

theorem misused_append (as bs : List (ChunkSchema × Attribute)) :
    misused (as ++ bs) = misused as + misused bs :=
  List.countP_append

theorem misused_map (s : ChunkSchema) (as : List Attribute) :
    misused (as.map (s, ·)) = as.countP s.misuses :=
  List.countP_map

mutual

theorem coerces_buildChunk (hr : r.Sound) (nested : Bool) : (node : Node) → node.Parsed →
    ∀ populate, (r.buildChunk nested populate node).Coerces (misused (r.chunkAttributes [node]))
  | .element name as cs, hp, populate => by
    cases hs : r.schema? name with
    | none =>
      simp only [chunkAttributes, hs, misused_nil]
      rw [buildChunk_of_unknown hs]
      exact .report (by nofun) none
    | some s =>
      obtain ⟨c, hc, rfl, hproper, -⟩ := create_eq hr hs populate
      have has := hr.proper_attributes hproper as
      have hbelow := coerces_applyAll hr nested cs hp.children _ has
      rw [c.schema_foldlM_applyAttribute] at hbelow
      simp only [chunkAttributes, hs, List.append_nil, misused_append, misused_map]
      rw [buildChunk, hc]
      apply (coerces_attributes hr as hproper).bind
      exact hbelow.map some
  | .text _, _, _ | .comment _, _, _ | .instruction .., _, _ => by
    simp only [chunkAttributes, misused_nil]
    exact .pure none
  | .other content, _, _ => by
    simp only [chunkAttributes, misused_nil]
    exact .report (by nofun) none
  | .attr _, hp, _ | .notationName _, hp, _ | .document _, hp, _ | .fragment _, hp, _ => nomatch hp

theorem coerces_buildAll (hr : r.Sound) (nested : Bool) : (nodes : List Node) →
    (∀ node ∈ nodes, node.Parsed) →
      (r.buildAll nested nodes).Coerces (misused (r.chunkAttributes nodes))
  | [], _ => by
    rw [chunkAttributes, buildAll]
    exact .pure []
  | node :: rest, hp => by
    have hrest := coerces_buildAll hr nested rest fun node hn => hp node (.tail _ hn)
    rw [chunkAttributes_cons, misused_append, buildAll]
    exact (coerces_buildChunk hr nested node (hp node (.head _)) nested).bind (hrest.map _)

theorem coerces_applyNode (hr : r.Sound) (nested : Bool) : (node : Node) → node.Parsed →
    ∀ c : Chunk, c.Proper →
      (r.applyNode nested c node).Coerces (misused (r.fieldAttributes c.schema [node]))
  | .element name as cs, hp, c, hc => by
    have hbelow := coerces_buildAll hr nested cs hp.children
    cases hs : c.schema.property? name with
    | none =>
      simp only [fieldAttributes, hs, misused_nil]
      rw [applyNode_of_undeclared hs]
      exact .report (by nofun) c
    | some p =>
      simp only [fieldAttributes, hs, List.append_nil]
      by_cases hk : p.kind = .embedded
      · rw [if_pos hk]
        exact coerces_applyNode_chunks hc hs hk as hbelow
      · rw [if_neg hk]
        exact coerces_applyNode_content hc hs hk as cs
  | .text _, _, c, _ | .comment _, _, c, _ | .instruction .., _, c, _ => by
    simp only [fieldAttributes, misused_nil]
    exact .pure c
  | .other content, _, c, _ => by
    simp only [fieldAttributes, misused_nil]
    exact .report (by nofun) c
  | .attr _, hp, _, _ | .notationName _, hp, _, _ | .document _, hp, _, _
  | .fragment _, hp, _, _ => nomatch hp

theorem coerces_applyAll (hr : r.Sound) (nested : Bool) : (nodes : List Node) →
    (∀ node ∈ nodes, node.Parsed) → ∀ c : Chunk, c.Proper →
      (r.applyAll nested c nodes).Coerces (misused (r.fieldAttributes c.schema nodes))
  | [], _, c, _ => by
    rw [fieldAttributes, applyAll]
    exact .pure c
  | node :: rest, hp, c, hc => by
    have hrest := coerces_applyAll hr nested rest (fun node hn => hp node (.tail _ hn)) _
      (hr.proper_applyNode nested hc node)
    rw [r.schema_applyNode nested c node] at hrest
    rw [fieldAttributes_cons, misused_append, applyAll]
    exact (coerces_applyNode hr nested node (hp node (.head _)) c hc).bind hrest

end

theorem coerces_buildElements (hr : r.Sound) (populate : Bool) {nodes : List Node}
    (hp : ∀ node ∈ nodes, node.Parsed) :
    (r.buildElements populate nodes).Coerces (misused (r.chunkAttributes nodes)) := by
  induction nodes with
  | nil =>
    rw [chunkAttributes]
    exact .pure []
  | cons node rest ih =>
    have hrest := ih fun node hn => hp node (.tail _ hn)
    cases node with
    | element name as cs =>
      rw [chunkAttributes_cons, misused_append, buildElements]
      exact (coerces_buildChunk hr populate _ (hp _ (.head _)) populate).bind (hrest.map _)
    | _ =>
      simp only [chunkAttributes]
      exact hrest

theorem coerces_build (hr : r.Sound) (populate : Bool) {node : Node} (hp : node.Parsed) :
    (r.build populate node).Coerces (misused (r.attributesIn node)) := by
  cases hp with
  | @element name as cs _ hc _ =>
    rw [attributesIn, build]
    split
    · exact coerces_buildElements hr populate hc
    · exact .report (by nofun) []
  | other content => exact .report (by nofun) []
  | _ => exact .pure []

theorem coerces_buildEach (hr : r.Sound) (populate : Bool) {nodes : List Node}
    (hp : ∀ node ∈ nodes, node.Parsed) :
    (r.buildEach populate nodes).Coerces (misused (r.attributesInEach nodes)) := by
  induction nodes with
  | nil =>
    rw [attributesInEach, buildEach]
    exact .pure []
  | cons node rest ih =>
    rw [attributesInEach, buildEach, misused_append]
    apply (coerces_build hr populate (hp _ (.head _))).bind
    exact (ih fun node hn => hp node (.tail _ hn)).map _

/-- Values cannot be coerced exactly where an attribute has text for a property that embeds chunks,
and the property keeps the values that it has. -/
theorem Reached.coercions_of_build (hr : r.Reached) (populate : Bool) {source : Bytes}
    {node : Node} (h : Xml.readDocument source = .ok node) :
    (r.build populate node).problems.countP (fun p => p.code = .coercion) =
        (r.attributesIn node).countP (fun a => a.1.misuses a.2) ∧
      (∀ p ∈ (r.build populate node).problems, ∀ token e, p ≠ .notStored token e) ∧
      ∀ c : Chunk, c.Formed → ∀ a, c.schema.misuses a = true →
        ∃ s p, c.schema.property? a.name = some s ∧ c.open? a.name = some p ∧
          c.applyAttribute a = ⟨c.hold a.name p, [.textForEmbedded s.token]⟩ := by
  obtain ⟨cs, rfl, hs⟩ := Xml.siblings_of_readDocument_eq h
  have hd : (r.build populate (.document cs)).Coerces
      (misused (r.attributesIn (.document cs))) := by
    rw [attributesIn, build]
    exact coerces_buildEach hr.sound populate hs.parsed
  refine ⟨hd.count_eq, hd.stored, ?_⟩
  intro c hc a ha
  exact Chunk.applyAttribute_of_misuses hc.declares ha

/-- A tray with another one on its pile. -/
def stackedTray : Chunk :=
  (Chunk.bare traySchema).hold "pile"
    ⟨{ token := "pile", givenName := "pile", kind := .embedded, count := .variable },
      [.embedded (some (.bare traySchema))]⟩

theorem formed_stackedTray : stackedTray.Formed := by
  have hbare : (Chunk.bare traySchema).Formed :=
    (Chunk.proper_bare traySchema).formed (by decide)
  apply hbare.hold rfl
  refine ⟨?_, nofun⟩
  intro v hv
  rw [List.mem_singleton.mp hv]
  rfl

/-- Text for the slots of a tray and for the pile of a tray in it, and text that is blank or that no
tray is built for. -/
def labelledSource : String :=
  "<ConfigChunkDB><Tray SLOTS='a b' pile=' '><slots><Tray name='c' pile='d'/></slots></Tray>" ++
    "<Ghost slots='e'/></ConfigChunkDB>"

def labelledDocument : Node :=
  .document [.element "ConfigChunkDB" []
    [.element "Tray" [⟨"SLOTS", "a b"⟩, ⟨"pile", " "⟩]
      [.element "slots" [] [.element "Tray" [⟨"name", "c"⟩, ⟨"pile", "d"⟩] []]],
      .element "Ghost" [⟨"slots", "e"⟩] []]]

theorem coercions_of_build_tray :
    Xml.readDocument (Text.encode labelledSource) = .ok labelledDocument ∧
      ((empty.register [traySchema]).value.build true labelledDocument).problems.countP
        (fun p => p.code = .coercion) = 2 ∧
      (∀ p ∈ ((empty.register [traySchema]).value.build true labelledDocument).problems,
        ∀ token e, p ≠ .notStored token e) ∧
      ∃ p, stackedTray.open? "Pile" = some p ∧ stackedTray.applyAttribute ⟨"Pile", "x y"⟩ =
        ⟨stackedTray.hold "Pile" p, [.textForEmbedded "pile"]⟩ := by
  have hread : Xml.readDocument (Text.encode labelledSource) = .ok labelledDocument := by
    decide +kernel
  have hr := Reached.empty.register (distinct_of_read read_trayDescriptions)
  obtain ⟨hcount, hstored, hkept⟩ := hr.coercions_of_build true hread
  refine ⟨hread, hcount.trans (by decide +kernel), hstored, ?_⟩
  obtain ⟨s, p, hs, hp, he⟩ := hkept stackedTray formed_stackedTray ⟨"Pile", "x y"⟩
    (by decide +kernel)
  cases hs
  exact ⟨p, hp, he⟩

end Registry

end ChunkConfig
