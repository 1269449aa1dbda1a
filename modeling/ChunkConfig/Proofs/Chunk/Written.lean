import ChunkConfig.Proofs.Chunk.Emptied

namespace ChunkConfig

theorem Reported.problems_mapM {α β : Type} (f : α → Reported β) (as : List α) :
    (as.mapM f).problems = as.flatMap fun a => (f a).problems := by
  induction as with
  | nil => rfl
  | cons a as ih =>
    simp only [List.mapM_cons, Reported.problems_bind, Reported.problems_pure, ih,
      List.append_nil, List.flatMap_cons]

theorem Value.emptied_of_token? {α : Type} {v : Value α} (h : v.token?.isSome = true) :
    v.emptied = v :=
  if_pos h

/-- Whether all values without chunks in them have a written form. -/
def Property.Written (p : Property Chunk) : Prop :=
  ∀ v ∈ p.values, v.kind ≠ .embedded → v.token?.isSome = true

namespace Chunk

theorem problems_propertyNode (owner : String) (p : Property Chunk) :
    (propertyNode owner p).problems = (valueNodes owner p.schema.token 0 p.values).problems := by
  rw [propertyNode]
  simp only [Reported.problems_bind, Reported.problems_pure, List.append_nil]

theorem problems_node (c : Chunk) : c.node.problems =
    c.properties.flatMap fun p => (propertyNode c.name p).problems := by
  rw [node_eq]
  simp only [Reported.problems_bind, Reported.problems_pure, List.append_nil,
    Reported.problems_mapM, List.flatMap_map, id]

/-- A chunk whose values all have a written form has nothing to empty. -/
theorem emptied_of_written {c : Chunk} (hc : c.Throughout Proper)
    (h : c.Throughout fun c => ∀ token p, c.property? token = some p → p.Written) :
    c.emptied = c := by
  induction hc with
  | @intro c here _ ih =>
    have hheld : c.held.map (convertProperty id id Value.emptied) = c.held := by
      refine congrArg TokenMap.mk ((List.map_congr_left fun e he => ?_).trans (List.map_id _))
      have hw := h.here _ _ (here.canonical.find?_of_mem he)
      have hv : e.2.values.map (convertValue id id Value.emptied) = e.2.values := by
        refine (List.map_congr_left fun v hv => ?_).trans (List.map_id _)
        rcases v with _ | _ | _ | _ | _ | _ | d
        case embedded.some =>
          have hd : c.Embeds d := ⟨e, he, List.mem_filterMap.mpr ⟨_, hv, rfl⟩⟩
          exact congrArg (fun d => Value.embedded (some d)) (ih d hd (h.embedded hd))
        case embedded.none => rfl
        all_goals exact Value.emptied_of_token? (hw _ hv nofun)
      exact congrArg (fun vs => (e.1, Property.mk e.2.schema vs)) hv
    rw [emptied, convert_eq, hheld]
    exact Chunk.ext rfl rfl rfl

end Chunk

end ChunkConfig
