import ChunkConfig.Proofs.Decimal.Integer
import ChunkConfig.Proofs.Schema.Described
import ChunkConfig.Schema.Writing

namespace ChunkConfig

open Xml (Attribute Node)

theorem ValueKind.read_token (k : ValueKind) : ValueKind.read k.token = .ok k := by
  cases k <;> rfl

theorem SlotCount.read_text {c : SlotCount} (h : ∀ n, c = .fixed n → n ≤ limit) :
    SlotCount.read c.text = .ok c := by
  match c, h with
  | .variable, _ => rfl
  | .fixed n, h =>
    have hd {c : Char} (hc : c ∈ (toString n).toList) : c.isDigit = true :=
      Decimal.isDigit_of_mem_toString hc
    have ht : Text.trim (toString n) = toString n :=
      Text.trim_eq_self fun _ hc => Decimal.isBlank_eq_false_of_isDigit (hd hc)
    have hw (word : String) (hv : (Text.fold word).toList.head? = some 'v') :
        Text.same (toString n) word = false := by
      rw [Bool.eq_false_iff]
      intro hs
      rw [← Text.same_iff.mp hs, Text.fold, String.toList_ofList, List.head?_map] at hv
      obtain ⟨c, hc, he⟩ := Option.map_eq_some_iff.mp hv
      rw [Decimal.toLower_of_isDigit (hd (List.mem_of_head? hc))] at he
      subst he
      exact absurd (hd (List.mem_of_head? hc)) (by decide)
    have hl := h n rfl
    simp only [SlotCount.read, SlotCount.text, ht, hw "var" rfl, hw "variable" rfl,
      Decimal.count?_toString, Option.filter, hl, decide_true]
    rfl

theorem applyElements_map_node {α : Type} (f : α → Xml.Element → Reported α) (a : α)
    (es : List Xml.Element) : applyElements f a (es.map Xml.Element.node) = es.foldlM f a := by
  induction es generalizing a with
  | nil => rfl
  | cons e es ih =>
    simp only [List.map_cons, Xml.Element.node, applyElements, List.foldlM_cons]
    exact congrArg _ (funext ih)

theorem foldlM_helpElements {α : Type} {f : α → Xml.Element → Reported α} {a b : α}
    {help : String} (he : help = "" → a = b) (hf : f a ⟨"help", [], [.text help]⟩ = pure b) :
    (helpElements help).foldlM f a = pure b := by
  rw [helpElements]
  split
  · next h => rw [List.foldlM_nil, he (String.isEmpty_iff.mp h)]
  · rw [List.foldlM_cons, hf, pure_bind, List.foldlM_nil]

theorem reportUnidentified_of_known {names : List String} {element : FixedElement}
    {owner : String} {attributes : List Attribute}
    (h : ∀ a ∈ attributes, names.any (Text.same a.name) = true) :
    reportUnidentified names element owner attributes = pure () := by
  induction attributes with
  | nil => rfl
  | cons a rest ih =>
    simp only [reportUnidentified, h a (.head _), if_true]
    exact ih fun b hb => h b (.tail _ hb)

theorem lastValue_singleton (a : Attribute) (name : String) :
    lastValue [a] name = if Text.same a.name name then a.value else "" := by
  unfold lastValue Xml.findAttribute?
  split <;> simp [*]

theorem lastValue_pair (a b : Attribute) (name : String) :
    lastValue [a, b] name =
      if Text.same b.name name then b.value else lastValue [a] name := by
  unfold lastValue Xml.findAttribute?
  split <;> simp [List.find?_cons, *]

theorem Alias.attributes_eq (a : Alias) :
    (a.value = "" ∧ a.element.attributes = [⟨"name", a.label⟩]) ∨
      a.element.attributes = [⟨"name", a.label⟩, ⟨"value", a.value⟩] := by
  by_cases h : a.value = ""
  · exact .inl ⟨h, by rw [element, h]; rfl⟩
  · rw [← String.isEmpty_iff] at h
    exact .inr (by rw [element, if_neg h])

namespace PropertySchema

section Attributes

variable (owner : String) (p : PropertySchema)

theorem applyAttribute_token (v : String) :
    p.applyAttribute owner ⟨"token", v⟩ = .ok { p with token := Text.trim v } := by
  have h : Text.fold "token" = "token" := by decide
  simp only [applyAttribute, h]

theorem applyAttribute_name (v : String) :
    p.applyAttribute owner ⟨"name", v⟩ = .ok { p with givenName := v } := by
  have h : Text.fold "name" = "name" := by decide
  simp only [applyAttribute, h]

theorem applyAttribute_type (k : ValueKind) :
    p.applyAttribute owner ⟨"type", k.token⟩ = .ok { p with kind := k } := by
  have h : Text.fold "type" = "type" := by decide
  simp only [applyAttribute, h, ValueKind.read_token]

theorem applyAttribute_num {c : SlotCount} (hc : ∀ n, c = .fixed n → n ≤ SlotCount.limit) :
    p.applyAttribute owner ⟨"num", c.text⟩ = .ok { p with count := c } := by
  have h : Text.fold "num" = "num" := by decide
  simp only [applyAttribute, h, SlotCount.read_text hc]

theorem applyAttribute_userlevel (a : Audience) :
    p.applyAttribute owner ⟨"userlevel", a.token⟩ = .ok { p with audience := a } := by
  cases a <;> rfl

end Attributes

theorem name_eq {p : PropertySchema} (hp : p.Described) : p.name = p.givenName := by
  have hn : p.givenName ≠ "" := by
    intro h
    have hv := hp.name_visible
    rw [h] at hv
    cases hv
  rw [name, if_neg (by rwa [String.isEmpty_iff])]

/-- What is not written of a property is what a property has that says nothing of it. -/
theorem ofAttributes_element {p : PropertySchema} (hp : p.Described) :
    ofAttributes p.element.attributes =
      .ok { p with aliases := [], labels := [], help := "" } := by
  have hf (owner : String) : p.element.attributes.foldlM (applyAttribute owner) {} =
      .ok { p with aliases := [], labels := [], help := "" } := by
    have hn := name_eq hp
    obtain ⟨token, givenName, kind, count, aliases, labels, help, audience⟩ := p
    cases audience <;>
      simp only [PropertySchema.element, hn, List.cons_append, List.nil_append,
        List.foldlM_cons, applyAttribute_token, applyAttribute_name, applyAttribute_type,
        applyAttribute_num _ _ hp.count_le, applyAttribute_userlevel, hp.token_trimmed] <;> rfl
  have ht : ¬ p.token.isEmpty = true := by
    rw [String.isEmpty_iff]
    exact hp.token_ne
  have hg : nameOrToken p.givenName p.token = p.givenName := by
    simp only [nameOrToken, hp.name_visible, Bool.false_eq_true, if_false]
  rw [ofAttributes, hf]
  change ite _ _ _ = _
  rw [if_neg ht, hg]
  rfl

theorem applyElement_label (p : PropertySchema) {label : String} (h : label ≠ "") :
    p.applyElement (labelElement label) = pure { p with labels := p.labels ++ [label] } := by
  have hv : lastValue (labelElement label).attributes "name" = label := by
    rw [labelElement, lastValue_singleton, if_pos (Text.same_self _)]
  have hr : reportUnidentified ["name"] .label p.token (labelElement label).attributes =
      pure () := by
    apply reportUnidentified_of_known
    simp only [labelElement, List.mem_singleton, forall_eq]
    decide
  have hs : Text.same (labelElement label).name "label" = true := Text.same_self _
  have he : ¬ label.isEmpty = true := by rwa [String.isEmpty_iff]
  simp only [applyElement, hs, if_true, hr, hv, pure_bind, if_neg he]

theorem applyElement_alias (p : PropertySchema) {a : Alias} (h : a.label ≠ "") :
    p.applyElement a.element = pure { p with aliases := p.aliases ++ [a] } := by
  have hvn : ¬ Text.same "value" "name" = true := by decide
  have hnv : ¬ Text.same "name" "value" = true := by decide
  have hl : lastValue a.element.attributes "name" = a.label := by
    rcases a.attributes_eq with ⟨_, ha⟩ | ha
    · rw [ha, lastValue_singleton, if_pos (Text.same_self _)]
    · rw [ha, lastValue_pair, if_neg hvn, lastValue_singleton, if_pos (Text.same_self _)]
  have hv : lastValue a.element.attributes "value" = a.value := by
    rcases a.attributes_eq with ⟨he, ha⟩ | ha
    · rw [ha, lastValue_singleton, if_neg hnv, he]
    · rw [ha, lastValue_pair, if_pos (Text.same_self _)]
  have hr : reportUnidentified ["name", "value"] .enumeration p.token a.element.attributes =
      pure () := by
    apply reportUnidentified_of_known
    rcases a.attributes_eq with ⟨_, ha⟩ | ha <;>
      simp only [ha, List.mem_cons, List.not_mem_nil, or_false, forall_eq_or_imp, forall_eq] <;>
      decide
  have hsl : ¬ Text.same a.element.name "label" = true := by
    change ¬ Text.same "enumeration" "label" = true
    decide
  have hse : Text.same a.element.name "enumeration" = true := Text.same_self _
  have he : ¬ a.label.isEmpty = true := by rwa [String.isEmpty_iff]
  simp only [applyElement, if_neg hsl, hse, if_true, hr, hl, hv, pure_bind, if_neg he]

theorem applyElement_help (p : PropertySchema) (help : String) :
    p.applyElement ⟨"help", [], [.text help]⟩ = pure { p with help := help } := by
  have hl : ¬ Text.same "help" "label" = true := by decide
  have he : ¬ Text.same "help" "enumeration" = true := by decide
  simp only [applyElement, if_neg hl, if_neg he, Text.same_self, if_true, helpText, pure_bind,
    String.append_empty]

theorem foldlM_labels (p : PropertySchema) {labels : List String}
    (h : ∀ label ∈ labels, label ≠ "") :
    (labels.map labelElement).foldlM applyElement p =
      pure { p with labels := p.labels ++ labels } := by
  induction labels generalizing p with
  | nil => simp only [List.map_nil, List.foldlM_nil, List.append_nil]
  | cons label rest ih =>
    simp only [List.map_cons, List.foldlM_cons, applyElement_label p (h _ (.head _)), pure_bind,
      ih _ fun l hl => h l (.tail _ hl), List.append_assoc, List.singleton_append]

theorem foldlM_aliases (p : PropertySchema) {aliases : List Alias}
    (h : ∀ a ∈ aliases, a.label ≠ "") :
    (aliases.map Alias.element).foldlM applyElement p =
      pure { p with aliases := p.aliases ++ aliases } := by
  induction aliases generalizing p with
  | nil => simp only [List.map_nil, List.foldlM_nil, List.append_nil]
  | cons a rest ih =>
    simp only [List.map_cons, List.foldlM_cons, applyElement_alias p (h _ (.head _)), pure_bind,
      ih _ fun b hb => h b (.tail _ hb), List.append_assoc, List.singleton_append]

theorem ofElement_element {p : PropertySchema} (hp : p.Described) :
    ofElement p.element = pure (some p) := by
  rw [ofElement]
  rw [ofAttributes_element hp]
  simp only [PropertySchema.element, applyElements_map_node, List.foldlM_append,
    foldlM_labels _ hp.label_ne, foldlM_aliases _ hp.alias_ne, pure_bind]
  rw [foldlM_helpElements (fun h => ?_) (applyElement_help _ _)]
  · rfl
  · rw [h]

end PropertySchema

namespace ChunkSchema

theorem applyElement_property {s : ChunkSchema} {e : Xml.Element} {p : PropertySchema}
    (hn : Text.same e.name "PropertyDesc" = true) (he : PropertySchema.ofElement e = pure (some p))
    (h : Text.fold p.token ∉ s.properties.map fun q => Text.fold q.token) :
    s.applyElement e = pure { s with properties := s.properties ++ [p] } := by
  simp only [applyElement, hn, if_true, he, pure_bind, declare,
    PropertySchema.insertInto_of_new h]
  rfl

theorem applyElement_help (s : ChunkSchema) (help : String) :
    s.applyElement ⟨"help", [], [.text help]⟩ = pure { s with help := help } := by
  have hp : ¬ Text.same "help" "PropertyDesc" = true := by decide
  simp only [applyElement, if_neg hp, Text.same_self, if_true, helpText, pure_bind,
    String.append_empty]

theorem applyElement_template (s : ChunkSchema) (e : Xml.Element) :
    s.applyElement ⟨"Defaults", [], [e.node]⟩ = pure { s with defaults := some e } := by
  have hp : ¬ Text.same "Defaults" "PropertyDesc" = true := by decide
  have hh : ¬ Text.same "Defaults" "help" = true := by decide
  simp only [applyElement, if_neg hp, if_neg hh, Text.same_self, if_true]
  rfl

theorem foldlM_properties {s : ChunkSchema} {element : PropertySchema → Xml.Element}
    {reread : PropertySchema → PropertySchema} {ps : List PropertySchema}
    (hn : ∀ p, Text.same (element p).name "PropertyDesc" = true)
    (he : ∀ p ∈ ps, PropertySchema.ofElement (element p) = pure (some (reread p)))
    (hd : ((s.properties ++ ps.map reread).map fun p => Text.fold p.token).Nodup) :
    (ps.map element).foldlM applyElement s =
      pure { s with properties := s.properties ++ ps.map reread } := by
  induction ps generalizing s with
  | nil => simp only [List.map_nil, List.foldlM_nil, List.append_nil]
  | cons p ps ih =>
    have hnew : Text.fold (reread p).token ∉ s.properties.map fun q => Text.fold q.token := by
      rw [List.map_append, List.map_cons, List.map_cons] at hd
      intro hm
      exact (List.nodup_append.mp hd).2.2 _ hm _ (.head _) rfl
    rw [List.map_cons, List.foldlM_cons, applyElement_property (hn p) (he p (.head _)) hnew,
      pure_bind, ih]
    · simp only [List.map_cons, List.append_assoc, List.singleton_append]
    · intro q hq
      exact he q (.tail _ hq)
    · simpa only [List.map_cons, List.append_assoc, List.singleton_append] using hd

theorem foldlM_template (s : ChunkSchema) (defaults : Option Xml.Element)
    (h : s.defaults = none) :
    (defaults.toList.map fun e => ⟨"Defaults", [], [e.node]⟩).foldlM applyElement s =
      pure { s with defaults } := by
  cases defaults with
  | none =>
    obtain ⟨token, givenName, properties, help, _⟩ := s
    cases h
    rfl
  | some e => exact congrArg (· >>= pure) (applyElement_template s e)

theorem name_eq {s : ChunkSchema} (hs : s.Described) : s.name = s.givenName := by
  have hn : s.givenName ≠ "" := by
    intro h
    have hv := hs.name_visible
    rw [h] at hv
    cases hv
  rw [name, if_neg (by rwa [String.isEmpty_iff])]

theorem ofElement_of_attributes {s t : ChunkSchema} (hs : s.Described) {e : Xml.Element}
    (ha : e.attributes = s.element.attributes)
    (hc : applyElements applyElement { token := s.token, givenName := s.givenName } e.children =
      pure t) : ofElement e = pure (some t) := by
  have hnt : ¬ Text.same "name" "token" = true := by decide
  have ht : lastValue s.element.attributes "token" = s.token := by
    rw [element, lastValue_pair, if_neg hnt, lastValue_singleton, if_pos (Text.same_self _)]
  have hn : lastValue s.element.attributes "name" = s.givenName := by
    rw [element, lastValue_pair, if_pos (Text.same_self _), name_eq hs]
  have he : ¬ s.token.isEmpty = true := by
    rw [String.isEmpty_iff]
    exact hs.token_ne
  have hg : nameOrToken s.givenName s.token = s.givenName := by
    simp only [nameOrToken, hs.name_visible, Bool.false_eq_true, if_false]
  simp only [ofElement, ha, ht, hn, hs.token_trimmed, if_neg he, hg, hc]
  rfl

/-- The element of a described chunk type reads back as that type. -/
theorem ofElement_element {s : ChunkSchema} (hs : s.Described) :
    ofElement s.element = pure (some s) := by
  have hh : (helpElements s.help).foldlM applyElement
      { token := s.token, givenName := s.givenName } =
      pure { token := s.token, givenName := s.givenName, help := s.help } :=
    foldlM_helpElements (fun h => by rw [h]) (applyElement_help _ _)
  have hd : (([] ++ s.properties.map id).map
      fun (p : PropertySchema) => Text.fold p.token).Nodup := by
    rw [List.map_id]
    exact hs.distinct
  have hp : (s.properties.map PropertySchema.element).foldlM applyElement
      { token := s.token, givenName := s.givenName, help := s.help } =
      pure { token := s.token, givenName := s.givenName, help := s.help,
             properties := [] ++ s.properties.map id } :=
    foldlM_properties (fun _ => Text.same_self _)
      (fun p hp => PropertySchema.ofElement_element (hs.properties p hp)) hd
  apply ofElement_of_attributes hs rfl
  rw [element, applyElements_map_node, List.foldlM_append, List.foldlM_append, hh, pure_bind,
    hp, pure_bind, foldlM_template _ _ rfl, List.map_id]
  rfl

theorem ofNode_element {s : ChunkSchema} (hs : s.Described) :
    ofNode s.element.node = pure (some s) := by
  have hn : Text.same s.element.name "ChunkDesc" = true := Text.same_self _
  rw [Xml.Element.node, ofNode, if_pos hn]
  exact ofElement_element hs

end ChunkSchema

namespace Catalog

theorem ofChildren_elements {c : Catalog} (hc : ∀ s ∈ c, s.Described) :
    ofChildren (c.map fun s => s.element.node) = pure c := by
  induction c with
  | nil => rfl
  | cons s rest ih =>
    rw [List.map_cons, ofChildren, ChunkSchema.ofNode_element (hc s (.head _)),
      ih fun t ht => hc t (.tail _ ht)]
    rfl

theorem ofNode_document {c : Catalog} (hc : ∀ s ∈ c, s.Described) :
    ofNode c.document = pure c := by
  have hs : Text.same "ChunkDescDB" "ChunkDescDB" = true := Text.same_self _
  simp only [document, ofNode, ofNodes, hs, if_true, ofChildren_elements hc, pure_bind,
    List.append_nil]

/-- Reading a catalog from a tree is undone by writing it: the tree of the catalog reads back as
the same catalog, without a problem, whatever tree it was read from and with whatever problems. -/
theorem ofNode_document_ofNode (node : Xml.Node) :
    ofNode (ofNode node).value.document = ⟨(ofNode node).value, []⟩ :=
  ofNode_document fun _ hs => described_of_ofNode node hs

end Catalog

end ChunkConfig
