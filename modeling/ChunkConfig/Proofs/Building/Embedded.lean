import ChunkConfig.Proofs.Chunk.Formed
import ChunkConfig.Proofs.Database.Reread
import ChunkConfig.Proofs.Property.Cut

namespace ChunkConfig

open Xml (Attribute Node)

namespace Property

variable {α : Type}

/-- How things are embedded one after the other, from the first slot of a property on. They replace
what a property of variable count holds. In one of fixed count they leave the later slots alone, and
those for which there is no slot are one problem. -/
structure Placed (p : Property α) (as : List α) (q : Property α) (problems : List Problem) :
    Prop where
  schema_eq : q.schema = p.schema
  of_variable : p.schema.count = .variable →
    q.values = as.map (fun a => .embedded (some a)) ∧ problems = []
  of_fixed : ∀ n, p.schema.count = .fixed n → p.values.length = n ∧
    q.values = (as.take n).map (fun a => .embedded (some a)) ++ p.values.drop as.length ∧
    problems = if n < as.length then [.tooManyChunks p.schema.token n] else []

/-- Whether the filled slots of a property are a prefix of its slots, and all of them when their
number is not fixed. -/
structure Gapless (p : Property α) : Prop where
  filled_first : ∃ (as : List α) (n : Nat),
    p.values = as.map (fun a => .embedded (some a)) ++ List.replicate n (.embedded none)
  filled_of_variable : p.schema.count = .variable →
    ∃ as : List α, p.values = as.map fun a => .embedded (some a)

theorem Proper.gapless {p : Property α} (h : p.Proper) (hk : p.schema.kind = .embedded) :
    p.Gapless := by
  have hvalues := h.values_eq hk
  refine ⟨⟨_, _, hvalues⟩, fun hc => ⟨p.contents, ?_⟩⟩
  have hnone : p.values.length - p.contents.length = 0 := by
    by_contra hne
    have hm : Value.embedded none ∈ p.values := by
      rw [hvalues]
      exact List.mem_append_right _ (List.mem_replicate.mpr ⟨hne, rfl⟩)
    exact absurd (h.solid hc hk _ hm) nofun
  rw [hnone, List.replicate_zero, List.append_nil] at hvalues
  exact hvalues

end Property

namespace Chunk

variable {p : Property Chunk} {slot n : Nat}

theorem problems_storeChunks (h : p.Room slot 0) (hc : p.schema.count = .fixed n)
    (hk : p.schema.kind = .embedded) (cs : List Chunk) : (storeChunks p slot cs).problems =
      if n < slot + cs.length then [.tooManyChunks p.schema.token n] else [] := by
  induction cs generalizing p slot with
  | nil =>
    have hle := (h.fits n hc).2
    exact (if_neg (Nat.not_lt.mpr hle)).symm
  | cons c rest ih =>
    have hv : (Value.embedded (some c)).kind = p.schema.kind := hk.symm
    rw [storeChunks, List.length_cons]
    by_cases h₁ : p.Room slot 1
    · have hi := ih (p := p.overlay slot [.embedded (some c)]) (h₁.overlay _) hc hk
      rw [Nat.add_right_comm] at hi
      rw [Property.set_eq_ok h₁ hv]
      exact hi
    · obtain ⟨m, hm, hle, he⟩ := h.set_eq_error h₁ hv
      obtain rfl := SlotCount.fixed.inj (hc.symm.trans hm)
      rw [he, if_pos (by omega)]

theorem placed_storeChunks (hp : p.Typed) (hk : p.schema.kind = .embedded) (cs : List Chunk) :
    p.Placed cs (storeChunks p.restart 0 cs).value (storeChunks p.restart 0 cs).problems := by
  have hkind : p.restart.schema.kind = .embedded := (congrArg _ p.schema_restart).trans hk
  refine ⟨?_, fun hc => ?_, fun n hc => ?_⟩
  · exact (Chunk.evolves_storeChunks (P := fun _ => True) _ 0 fun _ _ => trivial).schema_eq.trans
      p.schema_restart
  · have hroom : p.restart.Room 0 cs.length :=
      Property.room_restart fun n hn => nomatch hc.symm.trans hn
    rw [storeChunks_eq hkind hroom, Property.restart_of_variable hc, Property.overlay_zero]
    exact ⟨(congrArg _ List.drop_nil).trans (List.append_nil _), rfl⟩
  · have hl := hp.slots n hc
    have hroom : p.Room 0 0 := ⟨Nat.zero_le _, fun m hm => ⟨hp.slots m hm, Nat.zero_le m⟩⟩
    rw [Property.restart_of_fixed hc, storeChunks_cut hroom hk, problems_storeChunks hroom hc hk,
      Property.overlay_zero, hc, Nat.zero_add]
    -- Behind the last slot there is nothing to be left alone.
    have hdrop : p.values.drop (min n cs.length) = p.values.drop cs.length := by
      rcases Nat.le_total cs.length n with hle | hle
      · rw [Nat.min_eq_right hle]
      · rw [Nat.min_eq_left hle, List.drop_eq_nil_of_le hl.le,
          List.drop_eq_nil_of_le (hl.trans_le hle)]
    refine ⟨hl, ?_, rfl⟩
    simp only [SlotCount.cut, Nat.sub_zero, List.length_take, List.length_map, hdrop,
      List.map_take]

end Chunk

namespace Registry

variable {r : Registry} {nested : Bool}

/-- Nodes are built one after the other, and those that describe no chunk leave none behind. -/
theorem buildAll_eq_filterMap (r : Registry) (nested : Bool) (nodes : List Node) :
    r.buildAll nested nodes =
      ⟨nodes.filterMap fun node => (r.buildChunk nested nested node).value,
        nodes.flatMap fun node => (r.buildChunk nested nested node).problems⟩ := by
  induction nodes with
  | nil =>
    rw [buildAll]
    rfl
  | cons node rest ih =>
    rw [buildAll, ih]
    apply Reported.ext
    · rw [List.filterMap_cons]
      cases h : (r.buildChunk nested nested node).value <;>
        simp only [Reported.value_bind, Reported.value_pure, h, Option.toList_none,
          Option.toList_some, List.nil_append, List.singleton_append]
    · simp only [Reported.problems_bind, Reported.problems_pure, List.append_nil,
        List.flatMap_cons]

theorem Reached.proper_build (hr : r.Reached) (populate : Bool) (node : Node) :
    ∀ c ∈ (r.build populate node).value, c.Throughout Chunk.Proper := by
  apply (hr.sound.maintains hr.keeps_proper.defaults ?_).build node
  intro c hc
  exact .intro hc.proper hc.embeds

/-- The element of a property leaves no slot out, so no chunk that is read has an unfilled slot
before a filled one. -/
theorem Reached.embedded_without_gaps (hr : r.Reached) :
    (∀ (nested : Bool) (c : Chunk), c.Formed → ∀ (name : String) (s : PropertySchema),
      c.schema.property? name = some s → s.kind = .embedded →
      ∀ (as : List Attribute) (cs : List Node), ∃ p q problems, c.open? name = some p ∧
        p.Placed (cs.filterMap fun child => (r.buildChunk nested nested child).value) q problems ∧
        r.applyNode nested c (.element name as cs) = ⟨c.hold name q,
          (cs.flatMap fun child => (r.buildChunk nested nested child).problems) ++ problems⟩) ∧
    ∀ descriptions registered, r.registerSource descriptions = .ok registered →
      ∀ populate source db, registered.value.readDatabase populate source = .ok db →
        ∀ c ∈ db.value, c.Throughout fun d => ∀ token p, d.property? token = some p →
          p.schema.kind = .embedded → p.Gapless := by
  constructor
  · intro nested c hc name s hs hk as cs
    obtain ⟨p, ho, rfl⟩ := hc.declares.exists_open? hs
    have hplaced := Chunk.placed_storeChunks (hc.typed_of_open? ho) hk
    refine ⟨p, _, _, ho, hplaced _, ?_⟩
    rw [applyNode, ho, hs]
    simp only [hk, if_true, buildAll_eq_filterMap]
    apply Reported.ext
    · rfl
    · simp only [Reported.problems_bind, Reported.problems_pure, List.append_nil]
  · intro descriptions registered hd populate source db hdb c hc
    obtain ⟨node, -, rfl⟩ := exists_of_map_eq_ok hdb
    apply ((hr.registerSource hd).proper_build populate node c hc).mono
    intro d hd token p hp hk
    exact (hd.proper token p hp).gapless hk

/-- Trays have two slots for trays and pile up any number of them. The default tray piles up one. -/
def traySchema : ChunkSchema :=
  { token := "Tray", givenName := "Tray"
    properties := [
      { token := "slots", givenName := "slots", kind := .embedded, count := .fixed 2 },
      { token := "pile", givenName := "pile", kind := .embedded, count := .variable }]
    defaults := some ⟨"Tray", [], [.element "pile" [] [.element "Tray" [] []]]⟩ }

def trayDescriptions : String :=
  "<ChunkDescDB><ChunkDesc token='Tray'>" ++
    "<PropertyDesc token='slots' type='embeddedchunk' num='2'/>" ++
    "<PropertyDesc token='pile' type='embeddedchunk' num='var'/>" ++
    "<Defaults><Tray><pile><Tray/></pile></Tray></Defaults></ChunkDesc></ChunkDescDB>"

theorem read_trayDescriptions :
    Catalog.read (Text.encode trayDescriptions) = .ok ⟨[traySchema], []⟩ := by
  decide +kernel

/-- Four elements, of which the second one is of no known type and the last one has no slot. -/
def trayNodes : List Node :=
  [.element "Tray" [] [], .element "Ghost" [] [], .element "TRAY" [] [], .element "Tray" [] []]

def traySource : String :=
  "<ConfigChunkDB><Tray><slots><Tray/><Ghost/><TRAY/><Tray/></slots></Tray></ConfigChunkDB>"

theorem embedded_without_gaps_tray :
    ∃ registered db, empty.registerSource (Text.encode trayDescriptions) = .ok registered ∧
      registered.value.readDatabase true (Text.encode traySource) = .ok db ∧
      (∀ c ∈ db.value, c.Throughout fun d => ∀ token p, d.property? token = some p →
        p.schema.kind = .embedded → p.Gapless) ∧
      ∃ p q problems, (Chunk.bare traySchema).open? "Slots" = some p ∧
        p.Placed (trayNodes.filterMap fun child =>
          (registered.value.buildChunk true true child).value) q problems ∧
        registered.value.applyNode true (Chunk.bare traySchema) (.element "Slots" [] trayNodes) =
          ⟨(Chunk.bare traySchema).hold "Slots" q, (trayNodes.flatMap fun child =>
            (registered.value.buildChunk true true child).problems) ++ problems⟩ := by
  have hd : empty.registerSource (Text.encode trayDescriptions) =
      .ok (pure [traySchema] >>= empty.register) := by
    rw [registerSource, read_trayDescriptions]
    rfl
  have hread : Xml.readDocument (Text.encode traySource) = .ok (.document
      [.element "ConfigChunkDB" [] [.element "Tray" [] [.element "slots" [] trayNodes]]]) := by
    decide +kernel
  obtain ⟨-, hgapless⟩ := Reached.embedded_without_gaps .empty
  obtain ⟨hplaced, -⟩ := Reached.embedded_without_gaps (Reached.empty.registerSource hd)
  have hdb := congrArg (Except.map ((pure [traySchema] >>= empty.register).value.build true)) hread
  refine ⟨_, _, hd, hdb, hgapless _ _ hd true _ _ hdb, ?_⟩
  have hformed : (Chunk.bare traySchema).Formed :=
    (Chunk.proper_bare traySchema).formed (by decide)
  exact hplaced true _ hformed "Slots" _ rfl rfl [] trayNodes

end Registry

end ChunkConfig
