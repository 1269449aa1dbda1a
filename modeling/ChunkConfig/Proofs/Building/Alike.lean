import ChunkConfig.Proofs.Building.Built
import ChunkConfig.Proofs.Property.Cut
import ChunkConfig.Proofs.Registry.Run

namespace ChunkConfig

open Xml (Attribute Node)

namespace Reported

variable {α β γ δ : Type} {R : α → β → Prop} {S : γ → δ → Prop} {x : Reported α} {y : Reported β}

/-- Whether two results have related values and the same problems. -/
structure Alike (R : α → β → Prop) (x : Reported α) (y : Reported β) : Prop where
  value : R x.value y.value
  problems_eq : x.problems = y.problems

theorem Alike.pure {a : α} {b : β} (h : R a b) : Alike R (Pure.pure a) (Pure.pure b) :=
  ⟨h, rfl⟩

theorem Alike.bind {f : α → Reported γ} {g : β → Reported δ} (h : Alike R x y)
    (hf : ∀ a b, R a b → Alike S (f a) (g b)) : Alike S (x >>= f) (y >>= g) where
  value := (hf _ _ h.value).value
  problems_eq := by
    rw [problems_bind, problems_bind, h.problems_eq, (hf _ _ h.value).problems_eq]

end Reported

open Reported (Alike)

namespace Property

variable {α : Type} {p q : Property α}

/-- Whether two properties have a schema in common, whatever they hold. -/
structure Share (s : PropertySchema) (p q : Property α) : Prop where
  left : p.schema = s
  right : q.schema = s

variable {s : PropertySchema}

theorem Share.restart (h : Share s p q) : Share s p.restart q.restart :=
  ⟨p.schema_restart.trans h.left, q.schema_restart.trans h.right⟩

theorem Share.set (h : Share s p q) (slot : Nat) {v w : Value α} (hk : v.kind = w.kind) :
    (∃ e, p.set slot v = .error e ∧ q.set slot w = .error e) ∨
      ∃ p' q', p.set slot v = .ok p' ∧ q.set slot w = .ok q' ∧ Share s p' q' := by
  obtain ⟨hp, hq⟩ := h
  by_cases hkind : v.kind = s.kind
  · have hv : v.kind = p.schema.kind := hp ▸ hkind
    have hw : w.kind = q.schema.kind := hq ▸ hk ▸ hkind
    by_cases hs : s.count.Includes slot
    · obtain ⟨p', hp'⟩ := exists_set_eq_ok hv (hp ▸ hs)
      obtain ⟨q', hq'⟩ := exists_set_eq_ok hw (hq ▸ hs)
      exact .inr ⟨p', q', hp', hq', (of_set_eq_ok hp').1.trans hp, (of_set_eq_ok hq').1.trans hq⟩
    · obtain ⟨n, hn, -, hp'⟩ := exists_set_eq_error hv (hp ▸ hs)
      obtain ⟨m, hm, -, hq'⟩ := exists_set_eq_error hw (hq ▸ hs)
      rw [hp] at hn hp'
      rw [hq] at hm hq'
      obtain rfl := SlotCount.fixed.inj (hn.symm.trans hm)
      exact .inl ⟨_, hp', hq'⟩
  · refine .inl ⟨.kindMismatch s.kind v.kind, ?_, ?_⟩
    · rw [Property.set, hp, if_pos hkind]
    · rw [Property.set, hq, ← hk, if_pos hkind]

theorem Share.storeTokens (h : Share s p q) (slot : Nat) (tokens : List String) :
    Share s (p.storeTokens slot tokens).property (q.storeTokens slot tokens).property ∧
      (p.storeTokens slot tokens).next = (q.storeTokens slot tokens).next ∧
      (p.storeTokens slot tokens).problem = (q.storeTokens slot tokens).problem := by
  induction tokens generalizing p q slot with
  | nil => exact ⟨h, rfl, rfl⟩
  | cons token rest ih =>
    rw [Property.storeTokens, Property.storeTokens, coerce_congr (h.left.trans h.right.symm)]
    cases q.coerce token with
    | error problem => exact ⟨h, rfl, rfl⟩
    | ok v =>
      rcases h.set slot (v := v) rfl with ⟨e, hp, hq⟩ | ⟨p', q', hp, hq, h'⟩
      · simp only [hp, hq]
        refine ⟨h, trivial, ?_⟩
        cases e <;> simp only [refusal, h.left, h.right]
      · simp only [hp, hq]
        exact ih h' (slot + 1)

end Property

open Property (Share)

namespace Chunk

variable {c d : Chunk} {s : PropertySchema} {p q : Property Chunk}

theorem fillContent_alike (h : Share s p q) (slot : Nat) (element : String) (nodes : List Node) :
    Alike (Share s) (fillContent p slot element nodes) (fillContent q slot element nodes) := by
  induction nodes generalizing p q slot with
  | nil => exact .pure h
  | cons node rest ih =>
    cases node with
    | text content =>
      obtain ⟨hs, hn, hp⟩ := h.storeTokens slot (Text.tokens content)
      have hfilled : Alike (Share s)
          ⟨(p.fill slot content).property, (p.fill slot content).problem.toList⟩
          ⟨(q.fill slot content).property, (q.fill slot content).problem.toList⟩ :=
        ⟨hs, congrArg Option.toList hp⟩
      rw [fillContent, fillContent, Property.fill, Property.fill, hn]
      exact hfilled.bind fun _ _ hab => ih hab _
    | _ => exact Alike.bind (R := Eq) ⟨rfl, rfl⟩ fun _ _ _ => ih h slot

theorem storeChunks_alike (h : Share s p q) (slot : Nat) {cs ds : List Chunk}
    (hl : cs.length = ds.length) :
    Alike (Share s) (storeChunks p slot cs) (storeChunks q slot ds) := by
  induction cs generalizing p q slot ds with
  | nil =>
    obtain rfl := List.length_eq_zero_iff.mp hl.symm
    exact .pure h
  | cons c cs ih =>
    obtain ⟨d, ds, rfl⟩ := List.exists_cons_of_length_eq_add_one hl.symm
    have hset := h.set slot (v := .embedded (some c)) (w := .embedded (some d)) rfl
    rw [storeChunks, storeChunks]
    rcases hset with ⟨e, hp, hq⟩ | ⟨p', q', hp, hq, h'⟩
    · rw [hp, hq]
      cases e <;> exact ⟨h, by rw [h.left, h.right]⟩
    · rw [hp, hq]
      exact ih h' (slot + 1) (Nat.succ.inj hl)

/-- Whether two chunks have the same type and the same name, and hold nothing but properties of
their type. -/
structure Twins (c d : Chunk) : Prop where
  schema_eq : c.schema = d.schema
  name_eq : c.name = d.name
  declares : c.Declares
  declares' : d.Declares

theorem Twins.exists_open? (h : c.Twins d) {token : String}
    (hs : c.schema.property? token = some s) :
    ∃ p q, c.open? token = some p ∧ d.open? token = some q ∧ Share s p q := by
  have hd : d.schema.property? token = some s := h.schema_eq ▸ hs
  refine ⟨_, _, open?_eq hs, open?_eq hd, ?_, ?_⟩
  · exact Option.some.inj ((h.declares.of_open? (open?_eq hs)).symm.trans hs)
  · exact Option.some.inj ((h.declares'.of_open? (open?_eq hd)).symm.trans hd)

theorem Twins.hold (h : c.Twins d) {token : String} (hs : c.schema.property? token = some s)
    (hpq : Share s p q) : (c.hold token p).Twins (d.hold token q) where
  schema_eq := h.schema_eq
  name_eq := h.name_eq
  declares := h.declares.hold (hpq.left.symm ▸ hs)
  declares' := h.declares'.hold (hpq.right.symm ▸ h.schema_eq ▸ hs)

theorem reportNoProperty_alike (h : c.Twins d) (token : String) :
    Alike Eq (c.reportNoProperty token) (d.reportNoProperty token) := by
  refine ⟨rfl, ?_⟩
  rw [reportNoProperty, reportNoProperty, h.name_eq, h.schema_eq]

theorem applyAttribute_alike (h : c.Twins d) (a : Attribute) :
    Alike Twins (c.applyAttribute a) (d.applyAttribute a) := by
  rw [applyAttribute, applyAttribute]
  split
  · exact .pure ⟨h.schema_eq, rfl, h.declares, h.declares'⟩
  · rw [← h.schema_eq]
    cases hs : c.schema.property? a.name with
    | none => exact (reportNoProperty_alike h a.name).bind fun _ _ _ => .pure h
    | some s =>
      obtain ⟨p, q, hp, hq, hpq⟩ := h.exists_open? hs
      rw [hp, hq]
      have hstart : Share s (if s.kind = .embedded then p else p.restart)
          (if s.kind = .embedded then q else q.restart) := by
        split
        · exact hpq
        · exact hpq.restart
      obtain ⟨hfilled, -, hproblem⟩ := hstart.storeTokens 0 (Text.tokens a.value)
      exact ⟨h.hold hs hfilled, congrArg Option.toList hproblem⟩

theorem attributes_alike (h : c.Twins d) (as : List Attribute) :
    Alike Twins (as.foldlM applyAttribute c) (as.foldlM applyAttribute d) := by
  induction as generalizing c d with
  | nil => exact .pure h
  | cons a as ih =>
    rw [List.foldlM_cons, List.foldlM_cons]
    exact (applyAttribute_alike h a).bind fun _ _ hab => ih hab

end Chunk

namespace Registry

open Chunk (Twins)

variable {r : Registry}

theorem create_alike (hr : r.Sound) {token : String} {s : ChunkSchema}
    (hs : r.schema? token = some s) (populate populate' : Bool) :
    ∃ c d, r.create token populate = .ok c ∧ r.create token populate' = .ok d ∧ c.Twins d := by
  obtain ⟨c, hc, hcs, hcp, -⟩ := create_eq hr hs populate
  obtain ⟨d, hd, hds, hdp, -⟩ := create_eq hr hs populate'
  obtain ⟨c', hc', -, hcn⟩ := create_of_schema? hs populate
  obtain ⟨d', hd', -, hdn⟩ := create_of_schema? hs populate'
  obtain rfl := Except.ok.inj (hc.symm.trans hc')
  obtain rfl := Except.ok.inj (hd.symm.trans hd')
  exact ⟨c, d, hc, hd, hcs.trans hds.symm, hcn.trans hdn.symm, hcp.declares, hdp.declares⟩

mutual

/-- Populated or not, the chunks of a node have the same type and name, and the same problems are
met. -/
theorem buildChunk_alike (hr : r.Sound) (nested nested' : Bool) : (node : Node) →
    ∀ populate populate', Alike (Option.Rel Twins) (r.buildChunk nested populate node)
      (r.buildChunk nested' populate' node)
  | .document [], _, _ | .fragment [], _, _ => by
    rw [buildChunk, buildChunk]
    exact .pure .none
  | .document (child :: _), populate, populate' | .fragment (child :: _), populate, populate' => by
    rw [buildChunk, buildChunk]
    exact buildChunk_alike hr nested nested' child populate populate'
  | .element name as cs, populate, populate' => by
    rw [buildChunk, buildChunk]
    cases hs : r.schema? name with
    | none =>
      have hnone : ∀ populate, r.create name populate = .error (.unknownChunkType name) := by
        intro populate
        rw [create, hs]
      rw [hnone, hnone]
      exact ⟨.none, rfl⟩
    | some s =>
      obtain ⟨c, d, hc, hd, htwins⟩ := create_alike hr hs populate populate'
      rw [hc, hd]
      refine (Chunk.attributes_alike htwins as).bind fun c d hcd => ?_
      exact (applyAll_alike hr nested nested' cs hcd).bind fun _ _ h => .pure (.some h)
  | .attr _, _, _ | .text _, _, _ | .comment _, _, _ | .instruction .., _, _
  | .notationName _, _, _ | .other _, _, _ => ⟨.none, rfl⟩

theorem applyAll_alike (hr : r.Sound) (nested nested' : Bool) : (nodes : List Node) →
    ∀ {c d : Chunk}, c.Twins d →
      Alike Twins (r.applyAll nested c nodes) (r.applyAll nested' d nodes)
  | [], c, d, h => by
    rw [applyAll, applyAll]
    exact .pure h
  | node :: rest, c, d, h => by
    rw [applyAll, applyAll]
    exact (applyNode_alike hr nested nested' node h).bind fun _ _ hab =>
      applyAll_alike hr nested nested' rest hab

theorem applyNode_alike (hr : r.Sound) (nested nested' : Bool) : (node : Node) →
    ∀ {c d : Chunk}, c.Twins d →
      Alike Twins (r.applyNode nested c node) (r.applyNode nested' d node)
  | .attr a, c, d, h => by
    rw [applyNode, applyNode]
    exact Chunk.applyAttribute_alike h a
  | .element name as cs, c, d, h => by
    rw [applyNode, applyNode, ← h.schema_eq]
    cases hs : c.schema.property? name with
    | none => exact (Chunk.reportNoProperty_alike h name).bind fun _ _ _ => .pure h
    | some s =>
      obtain ⟨p, q, hp, hq, hpq⟩ := h.exists_open? hs
      rw [hp, hq]
      by_cases hk : s.kind = .embedded
      · simp only [hk, if_true]
        refine (buildAll_alike hr nested nested' cs).bind fun _ _ hl => ?_
        exact (Chunk.storeChunks_alike hpq.restart 0 hl).bind fun _ _ h' => .pure (h.hold hs h')
      · simp only [hk, if_false]
        exact (Chunk.fillContent_alike hpq.restart 0 name cs).bind fun _ _ h' =>
          .pure (h.hold hs h')
  | .text _, _, _, h | .comment _, _, _, h | .instruction .., _, _, h
  | .notationName _, _, _, h => .pure h
  | .document _, _, _, h | .fragment _, _, _, h | .other _, _, _, h => ⟨h, rfl⟩

theorem buildAll_alike (hr : r.Sound) (nested nested' : Bool) : (nodes : List Node) →
    Alike (fun cs ds => cs.length = ds.length) (r.buildAll nested nodes)
      (r.buildAll nested' nodes)
  | [] => by
    rw [buildAll, buildAll]
    exact .pure rfl
  | node :: rest => by
    rw [buildAll, buildAll]
    refine (buildChunk_alike hr nested nested' node nested nested').bind fun o o' ho => ?_
    refine (buildAll_alike hr nested nested' rest).bind fun cs ds hl => .pure ?_
    cases ho with
    | none => exact hl
    | some => exact congrArg Nat.succ hl

end

theorem problems_buildElements_eq (hr : r.Sound) (populate populate' : Bool)
    (nodes : List Node) :
    (r.buildElements populate nodes).problems = (r.buildElements populate' nodes).problems := by
  induction nodes with
  | nil => rfl
  | cons node rest ih =>
    cases node with
    | element name as cs =>
      have hnode := (buildChunk_alike hr populate populate' (.element name as cs) populate
        populate').problems_eq
      rw [buildElements, buildElements]
      simp only [Reported.problems_bind, Reported.problems_pure, hnode, ih]
    | _ => exact ih

mutual

theorem problems_build_eq (hr : r.Sound) (populate populate' : Bool) : (node : Node) →
    (r.build populate node).problems = (r.build populate' node).problems
  | .document cs | .fragment cs => by
    rw [build, build]
    exact problems_buildEach_eq hr populate populate' cs
  | .element name _ cs => by
    rw [build, build]
    split
    · exact problems_buildElements_eq hr populate populate' cs
    · rfl
  | .attr _ | .text _ | .comment _ | .instruction .. | .notationName _ | .other _ => rfl

theorem problems_buildEach_eq (hr : r.Sound) (populate populate' : Bool) : (nodes : List Node) →
    (r.buildEach populate nodes).problems = (r.buildEach populate' nodes).problems
  | [] => by rw [buildEach, buildEach]
  | node :: rest => by
    have hnode := problems_build_eq hr populate populate' node
    have hrest := problems_buildEach_eq hr populate populate' rest
    rw [buildEach, buildEach]
    simp only [Reported.problems_bind, Reported.problems_pure, hnode, hrest]

end

end Registry

end ChunkConfig
