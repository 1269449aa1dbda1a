import ChunkConfig.Proofs.Schema.RoundTrip
import ChunkConfig.Proofs.Xml.Tidied

namespace ChunkConfig

open Xml (Attribute Element Node laidAll breakNodes)

namespace Xml

def Node.isMarkup (c : Node) : Bool :=
  !c.isText

/-- An element as it reads back after it was laid out at a depth. -/
def Element.laid (indent depth : Nat) (e : Element) : Element :=
  { e with children :=
      if e.children.all Node.isBlankText then [] else laidAll indent (depth + 1) true e.children }

theorem Element.node_laid (indent depth : Nat) (e : Element) :
    e.node.laid indent depth = (e.laid indent depth).node := by
  rw [Element.node, Node.laid]
  rfl

theorem filter_breakNodes (indent depth : Nat) (fresh : Bool) :
    (breakNodes indent depth fresh).filter Node.isMarkup = [] := by
  rw [breakNodes]
  split <;> rfl

theorem filter_laidAll {cs : List Node} (h : ∀ c ∈ cs, c.isText = false) (indent depth : Nat)
    (fresh : Bool) :
    (laidAll indent depth fresh cs).filter Node.isMarkup = cs.map (Node.laid indent depth) := by
  induction cs generalizing fresh with
  | nil =>
    rw [laidAll, filter_breakNodes]
    rfl
  | cons c cs ih =>
    have ht := h c (.head _)
    have hl : (c.laid indent depth).isMarkup = true := by
      rw [Node.isMarkup, c.isText_laid, ht]
      rfl
    rw [laidAll, Node.isBlankText_of_not_isText ht, ht, if_neg Bool.false_ne_true,
      if_neg Bool.false_ne_true, List.filter_append, filter_breakNodes, List.nil_append,
      List.filter_cons_of_pos hl, ih fun d hd => h d (.tail _ hd), List.map_cons]

theorem Element.filter_laid (indent depth : Nat) (name : String) (as : List Attribute)
    (es : List Element) :
    (Element.laid indent depth ⟨name, as, es.map Element.node⟩).children.filter Node.isMarkup =
      (es.map (Element.laid indent (depth + 1))).map Element.node := by
  have ht : ∀ c ∈ es.map Element.node, c.isText = false := by
    intro c hc
    obtain ⟨e, -, rfl⟩ := List.mem_map.mp hc
    rfl
  have hm : (es.map Element.node).map (Node.laid indent (depth + 1)) =
      (es.map (Element.laid indent (depth + 1))).map Element.node := by
    rw [List.map_map, List.map_map]
    exact List.map_congr_left fun e _ => e.node_laid indent (depth + 1)
  rw [← hm]
  simp only [Element.laid]
  split
  · next hb =>
    cases es with
    | nil => rfl
    | cons e es => cases hb
  · exact filter_laidAll ht indent (depth + 1) true

end Xml

theorem applyElements_filter {α : Type} (f : α → Element → Reported α) (a : α)
    (nodes : List Node) :
    applyElements f a (nodes.filter Node.isMarkup) = applyElements f a nodes := by
  induction nodes generalizing a with
  | nil => rfl
  | cons node rest ih =>
    cases node with
    | text content => exact ih a
    | _ =>
      rw [List.filter_cons_of_pos rfl]
      simp only [applyElements, ih]

theorem applyElements_laid {α : Type} (f : α → Element → Reported α) (a : α) (indent depth : Nat)
    (name : String) (as : List Attribute) (es : List Element) :
    applyElements f a (Element.laid indent depth ⟨name, as, es.map Element.node⟩).children =
      (es.map (Element.laid indent (depth + 1))).foldlM f a := by
  rw [← applyElements_filter, Element.filter_laid, applyElements_map_node]

/-- Help text as it reads back. Blank text of an element is left to the layout. -/
def rereadHelp (help : String) : String :=
  if Text.allBlank help then "" else help

theorem laid_help (indent depth : Nat) (help : String) :
    Element.laid indent depth ⟨"help", [], [.text help]⟩ =
      ⟨"help", [], if Text.allBlank help then [] else [.text help]⟩ := by
  simp only [Element.laid, List.all_cons, List.all_nil, Bool.and_true, Node.isBlankText]
  split
  · rfl
  · next hb =>
    simp only [laidAll, Node.isBlankText, hb, Bool.false_eq_true, if_false, Node.isText, if_true,
      Node.laid, List.nil_append, Bool.not_true, breakNodes, Bool.not_false, or_true]

theorem foldlM_laid_helpElements {α : Type} {f : α → Element → Reported α} {a b : α}
    {help : String} (indent depth : Nat) (he : help = "" → a = b)
    (hf : f a (Element.laid indent depth ⟨"help", [], [.text help]⟩) = pure b) :
    ((helpElements help).map (Element.laid indent depth)).foldlM f a = pure b := by
  rw [helpElements]
  split
  · next h => rw [List.map_nil, List.foldlM_nil, he (String.isEmpty_iff.mp h)]
  · rw [List.map_cons, List.foldlM_cons, hf, pure_bind, List.map_nil, List.foldlM_nil]

namespace PropertySchema

/-- A property as it reads back from the text of a catalog. -/
def reread (p : PropertySchema) : PropertySchema :=
  { p with help := rereadHelp p.help }

theorem applyElement_laid_help (p : PropertySchema) (indent depth : Nat) (help : String) :
    p.applyElement (Element.laid indent depth ⟨"help", [], [.text help]⟩) =
      pure { p with help := rereadHelp help } := by
  have hl : ¬ Text.same "help" "label" = true := by decide
  have he : ¬ Text.same "help" "enumeration" = true := by decide
  rw [laid_help, rereadHelp]
  split
  · simp only [applyElement, if_neg hl, if_neg he, Text.same_self, if_true, helpText, pure_bind]
  · exact applyElement_help p help

theorem ofElement_laid {p : PropertySchema} (hp : p.Described) (indent depth : Nat) :
    ofElement (p.element.laid indent depth) = pure (some p.reread) := by
  have hl : p.labels.map (Element.laid indent (depth + 1) ∘ labelElement) =
      p.labels.map labelElement :=
    List.map_congr_left fun _ _ => rfl
  have ha : p.aliases.map (Element.laid indent (depth + 1) ∘ Alias.element) =
      p.aliases.map Alias.element :=
    List.map_congr_left fun _ _ => rfl
  have hc : applyElements applyElement { p with aliases := [], labels := [], help := "" }
      (p.element.laid indent depth).children = pure p.reread := by
    rw [PropertySchema.element, applyElements_laid, List.map_append, List.map_append, List.map_map,
      List.map_map, hl, ha, List.foldlM_append, List.foldlM_append, foldlM_labels _ hp.label_ne,
      pure_bind, foldlM_aliases _ hp.alias_ne, pure_bind]
    refine foldlM_laid_helpElements indent (depth + 1) (fun h => ?_) ?_
    · rw [reread, h]
      rfl
    · exact applyElement_laid_help _ indent (depth + 1) p.help
  rw [ofElement]
  have hattr : (p.element.laid indent depth).attributes = p.element.attributes := rfl
  rw [hattr, ofAttributes_element hp]
  simp only [hc]
  rfl

end PropertySchema

theorem filterMap_filter_isMarkup (nodes : List Node) :
    (nodes.filter Node.isMarkup).filterMap Node.element? = nodes.filterMap Node.element? := by
  induction nodes with
  | nil => rfl
  | cons node rest ih =>
    cases node with
    | text content => exact ih
    | _ => rw [List.filter_cons_of_pos rfl, List.filterMap_cons, List.filterMap_cons, ih]

namespace ChunkSchema

/-- A chunk type as it reads back from the text of a catalog, with its template laid out at a
depth. -/
def reread (indent depth : Nat) (s : ChunkSchema) : ChunkSchema :=
  { s with
    properties := s.properties.map PropertySchema.reread
    help := rereadHelp s.help
    defaults := s.defaults.map (Element.laid indent depth) }

theorem applyElement_laid_help (s : ChunkSchema) (indent depth : Nat) (help : String) :
    s.applyElement (Element.laid indent depth ⟨"help", [], [.text help]⟩) =
      pure { s with help := rereadHelp help } := by
  have hp : ¬ Text.same "help" "PropertyDesc" = true := by decide
  rw [laid_help, rereadHelp]
  split
  · simp only [applyElement, if_neg hp, Text.same_self, if_true, helpText, pure_bind]
  · exact applyElement_help s help

theorem applyElement_laid_template (s : ChunkSchema) (indent depth : Nat) (e : Element) :
    s.applyElement (Element.laid indent depth ⟨"Defaults", [], [e.node]⟩) =
      pure { s with defaults := some (e.laid indent (depth + 1)) } := by
  have hp : ¬ Text.same "Defaults" "PropertyDesc" = true := by decide
  have hh : ¬ Text.same "Defaults" "help" = true := by decide
  have hn : (Element.laid indent depth ⟨"Defaults", [], [e.node]⟩).name = "Defaults" := rfl
  have hc : (Element.laid indent depth ⟨"Defaults", [], [e.node]⟩).children.filterMap
      Node.element? = [e.laid indent (depth + 1)] := by
    rw [← filterMap_filter_isMarkup, ← List.map_singleton, Element.filter_laid]
    rfl
  simp only [applyElement, hn, if_neg hp, if_neg hh, Text.same_self, if_true, hc]
  rfl

theorem foldlM_laid_template (s : ChunkSchema) (indent depth : Nat) (defaults : Option Element)
    (h : s.defaults = none) :
    (defaults.toList.map (Element.laid indent depth ∘ fun e => ⟨"Defaults", [], [e.node]⟩)).foldlM
        applyElement s =
      pure { s with defaults := defaults.map (Element.laid indent (depth + 1)) } := by
  cases defaults with
  | none =>
    obtain ⟨token, givenName, properties, help, _⟩ := s
    cases h
    rfl
  | some e => exact congrArg (· >>= pure) (applyElement_laid_template s indent depth e)

theorem nodup_reread {s : ChunkSchema} (hs : s.Distinct) :
    (([] ++ s.properties.map PropertySchema.reread).map
      fun (p : PropertySchema) => Text.fold p.token).Nodup := by
  rw [List.nil_append, List.map_map]
  exact hs

theorem ofElement_laid {s : ChunkSchema} (hs : s.Described) (indent depth : Nat) :
    ofElement (s.element.laid indent depth) = pure (some (s.reread indent (depth + 2))) := by
  have hh : ((helpElements s.help).map (Element.laid indent (depth + 1))).foldlM applyElement
      { token := s.token, givenName := s.givenName } =
      pure { token := s.token, givenName := s.givenName, help := rereadHelp s.help } := by
    refine foldlM_laid_helpElements indent (depth + 1) (fun h => ?_) ?_
    · rw [h]
      rfl
    · exact applyElement_laid_help _ indent (depth + 1) s.help
  have hp : (s.properties.map (Element.laid indent (depth + 1) ∘ PropertySchema.element)).foldlM
      applyElement
      { token := s.token, givenName := s.givenName, help := rereadHelp s.help } =
      pure { token := s.token, givenName := s.givenName, help := rereadHelp s.help,
             properties := [] ++ s.properties.map PropertySchema.reread } :=
    foldlM_properties (fun _ => Text.same_self _)
      (fun p hp => PropertySchema.ofElement_laid (hs.properties p hp) indent (depth + 1))
      (nodup_reread hs.distinct)
  refine ofElement_of_attributes hs rfl ?_
  rw [element, applyElements_laid, List.map_append, List.map_append, List.map_map,
    List.map_map, List.foldlM_append, List.foldlM_append, hh, pure_bind, hp, pure_bind,
    foldlM_laid_template _ _ _ _ rfl]
  rfl

theorem ofNode_laid {s : ChunkSchema} (hs : s.Described) (indent depth : Nat) :
    ofNode (s.element.laid indent depth).node = pure (some (s.reread indent (depth + 2))) := by
  have hn : Text.same (s.element.laid indent depth).name "ChunkDesc" = true := Text.same_self _
  rw [Element.node, ofNode, if_pos hn]
  exact ofElement_laid hs indent depth

end ChunkSchema

namespace Catalog

theorem ofChildren_filter (nodes : List Node) :
    ofChildren (nodes.filter Node.isMarkup) = ofChildren nodes := by
  induction nodes with
  | nil => rfl
  | cons node rest ih =>
    cases node with
    | text content =>
      have ht : ChunkSchema.ofNode (.text content) = pure none := by rw [ChunkSchema.ofNode]
      rw [List.filter_cons_of_neg Bool.false_ne_true, ih, ofChildren, ht, pure_bind]
      simp only [Option.toList_none, List.nil_append, bind_pure]
    | _ => rw [List.filter_cons_of_pos rfl, ofChildren, ofChildren, ih]

theorem ofChildren_laid {c : Catalog} (hc : ∀ s ∈ c, s.Described) (indent depth : Nat) :
    ofChildren (((c.map ChunkSchema.element).map (Element.laid indent depth)).map Element.node) =
      pure (c.map (ChunkSchema.reread indent (depth + 2))) := by
  induction c with
  | nil => rfl
  | cons s rest ih =>
    rw [List.map_cons, List.map_cons, List.map_cons, ofChildren,
      ChunkSchema.ofNode_laid (hc s (.head _)), ih fun t ht => hc t (.tail _ ht)]
    rfl

/-- The element under which a catalog stands. -/
def root (c : Catalog) : Element :=
  ⟨"ChunkDescDB", [], (c.map ChunkSchema.element).map Element.node⟩

theorem document_eq (c : Catalog) : c.document = .document [c.root.node] := by
  rw [document, root, Element.node, List.map_map]
  rfl

/-- The document of described chunk types, laid out, reads as these types. -/
theorem ofNode_laid {c : Catalog} (hc : ∀ s ∈ c, s.Described) (indent : Nat) :
    ofNode (.document [c.root.node.laid indent 0]) =
      pure (c.map (ChunkSchema.reread indent 3)) := by
  have hs : Text.same (c.root.laid indent 0).name "ChunkDescDB" = true := Text.same_self _
  have hk : ofChildren (c.root.laid indent 0).children =
      pure (c.map (ChunkSchema.reread indent 3)) := by
    rw [← ofChildren_filter, root, Element.filter_laid]
    exact ofChildren_laid hc indent 1
  rw [Element.node_laid, Element.node, ofNode, ofNodes, ofNode, if_pos hs, hk, pure_bind, ofNodes,
    pure_bind, List.append_nil]

end Catalog

end ChunkConfig
