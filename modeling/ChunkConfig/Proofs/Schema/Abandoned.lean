import ChunkConfig.Proofs.Parted
import ChunkConfig.Proofs.Schema.Told
import ChunkConfig.Proofs.Text.Trim
import ChunkConfig.Proofs.Xml.Parsed

namespace ChunkConfig

open Xml (Attribute Element Node)

theorem lastValue_concat (attributes : List Attribute) (a : Attribute) (name : String) :
    lastValue (attributes ++ [a]) name =
      if Text.same a.name name = true then a.value else lastValue attributes name := by
  rw [lastValue, List.reverse_concat, Xml.findAttribute?, List.find?_cons]
  cases Text.same a.name name <;> rfl

/-- Whether a problem is that a description of a type or of a property was given up. -/
def Problem.abandons (p : Problem) : Bool :=
  p.code = .invalidCount ∨ p.code = .unknownValueKind ∨ p.code = .missingToken

namespace PropertySchema

/-- What is wrong with an attribute for which the description of a property is given up. -/
inductive Refuses (owner : String) (a : Attribute) : Problem → Prop
  | kind {error : ModelError} (named : Text.same a.name "type" = true)
    (unread : ValueKind.read a.value = .error error) :
    Refuses owner a (.unknownValueKind owner error)
  | count {error : ModelError} (named : Text.same a.name "num" = true)
    (unread : SlotCount.read a.value = .error error) :
    Refuses owner a (.invalidCount owner error)

/-- Whether an attribute is a type or a count that cannot be read. -/
def isRefused (a : Attribute) : Bool :=
  Text.same a.name "type" && !(ValueKind.read a.value).isOk ||
    Text.same a.name "num" && !(SlotCount.read a.value).isOk

/-- Whether an element describes a property in a way for which the description is given up. -/
def isAbandoned (e : Element) : Bool :=
  Text.same e.name "PropertyDesc" &&
    (e.attributes.any isRefused || Text.allBlank (lastValue e.attributes "token"))

theorem applyAttribute_cases (owner : String) (p : PropertySchema) (a : Attribute) :
    (isRefused a = true ∧ ∃ problem, p.applyAttribute owner a = .error problem ∧
      Refuses owner a problem) ∨
    isRefused a = false ∧ ∃ q, p.applyAttribute owner a = .ok q ∧
      q.token = if Text.same a.name "token" = true then Text.trim a.value else p.token := by
  have hsame (name : String) (hname : Text.fold name = name) :
      Text.same a.name name = decide (Text.fold a.name = name) := by
    rw [Bool.eq_iff_iff, Text.same_iff, hname, decide_eq_true_iff]
  have htype := hsame "type" (by decide)
  have hnum := hsame "num" (by decide)
  have htoken := hsame "token" (by decide)
  unfold applyAttribute isRefused
  split
  · next h =>
    right
    rw [htype, hnum, htoken, h]
    exact ⟨rfl, _, rfl, rfl⟩
  · next h =>
    right
    rw [htype, hnum, htoken, h]
    exact ⟨rfl, _, rfl, rfl⟩
  · next h =>
    rw [htype, hnum, htoken, h]
    cases hr : ValueKind.read a.value with
    | ok kind => exact .inr ⟨rfl, _, rfl, rfl⟩
    | error e => exact .inl ⟨rfl, _, rfl, .kind (htype.trans (decide_eq_true h)) hr⟩
  · next h =>
    rw [htype, hnum, htoken, h]
    cases hr : SlotCount.read a.value with
    | ok count => exact .inr ⟨rfl, _, rfl, rfl⟩
    | error e => exact .inl ⟨rfl, _, rfl, .count (hnum.trans (decide_eq_true h)) hr⟩
  · next h =>
    right
    rw [htype, hnum, htoken, h]
    exact ⟨rfl, _, rfl, rfl⟩
  · next h₁ h₂ h₃ h₄ h₅ =>
    right
    rw [htype, hnum, htoken, decide_eq_false h₁, decide_eq_false h₃, decide_eq_false h₄]
    exact ⟨rfl, _, rfl, rfl⟩

theorem foldlM_applyAttribute_cases (owner : String) (attributes : List Attribute) :
    (attributes.any isRefused = true ∧ ∃ problem,
      attributes.foldlM (applyAttribute owner) {} = .error problem ∧
        ∃ a ∈ attributes, Refuses owner a problem) ∨
    attributes.any isRefused = false ∧ ∃ q, attributes.foldlM (applyAttribute owner) {} = .ok q ∧
      q.token = Text.trim (lastValue attributes "token") := by
  induction attributes using List.reverseRecOn with
  | nil => exact .inr ⟨rfl, _, rfl, rfl⟩
  | append_singleton attributes a ih =>
    rw [List.any_append, List.foldlM_append]
    rcases ih with ⟨hrefused, problem, hfold, b, hb, hproblem⟩ | ⟨hread, p, hfold, htoken⟩
    · rw [hrefused, hfold]
      exact .inl ⟨rfl, problem, rfl, b, List.mem_append_left [a] hb, hproblem⟩
    · rw [hread, hfold, List.any_cons, List.any_nil, Bool.or_false, Bool.false_or]
      change (_ ∧ ∃ problem, applyAttribute owner p a >>= pure = _ ∧ _) ∨
        _ ∧ ∃ q, applyAttribute owner p a >>= pure = _ ∧ _
      rw [bind_pure]
      rcases applyAttribute_cases owner p a with
        ⟨hrefused, problem, he, hproblem⟩ | ⟨hread, q, he, hq⟩
      · exact .inl ⟨hrefused, problem, he, a, List.mem_append_right _ (.head _), hproblem⟩
      · refine .inr ⟨hread, q, he, ?_⟩
        rw [hq, htoken, lastValue_concat]
        split <;> rfl

end PropertySchema

/-- Whether an element describes a chunk type in a way for which the description is given up. -/
def ChunkSchema.isAbandoned (e : Element) : Bool :=
  Text.same e.name "ChunkDesc" && Text.allBlank (lastValue e.attributes "token")

/-- What is told about an element that describes a property or a chunk type and is given up. -/
inductive Abandons (e : Element) : Problem → Prop
  | refused {a : Attribute} {problem : Problem} (named : Text.same e.name "PropertyDesc" = true)
    (ha : a ∈ e.attributes) (refuses : PropertySchema.Refuses
      ((Xml.findAttribute? e.attributes "token").getD "") a problem) : Abandons e problem
  | property (named : Text.same e.name "PropertyDesc" = true)
    (blank : Text.allBlank (lastValue e.attributes "token") = true) :
    Abandons e .propertyWithoutToken
  | chunkType (named : Text.same e.name "ChunkDesc" = true)
    (blank : Text.allBlank (lastValue e.attributes "token") = true) :
    Abandons e (.chunkTypeWithoutToken (lastValue e.attributes "name"))

theorem Abandons.abandons {e : Element} {p : Problem} (h : Abandons e p) : p.abandons = true := by
  cases h with
  | refused _ _ refuses => cases refuses <;> rfl
  | property => rfl
  | chunkType => rfl

theorem PropertySchema.ofAttributes_cases {e : Element}
    (named : Text.same e.name "PropertyDesc" = true) :
    (isAbandoned e = true ∧ ∃ problem, ofAttributes e.attributes = .error problem ∧
      Abandons e problem) ∨
    isAbandoned e = false ∧ ∃ p, ofAttributes e.attributes = .ok p := by
  rw [isAbandoned, named, Bool.true_and, ofAttributes]
  rcases foldlM_applyAttribute_cases ((Xml.findAttribute? e.attributes "token").getD "")
    e.attributes with ⟨hrefused, problem, hfold, a, ha, hproblem⟩ | ⟨hread, p, hfold, htoken⟩
  · rw [hrefused, hfold]
    exact .inl ⟨rfl, problem, rfl, .refused named ha hproblem⟩
  · have hempty : p.token.isEmpty = Text.allBlank (lastValue e.attributes "token") := by
      rw [htoken, Text.isEmpty_trim]
    rw [hread, hfold, Bool.false_or, ← hempty]
    change (_ ∧ ∃ problem, (if p.token.isEmpty = true then _ else _) = _ ∧ _) ∨
      _ ∧ ∃ q, (if p.token.isEmpty = true then _ else _) = _
    cases hb : p.token.isEmpty with
    | true => exact .inl ⟨rfl, _, rfl, .property named (hempty.symm.trans hb)⟩
    | false => exact .inr ⟨rfl, _, rfl⟩

namespace Reported

variable {α β : Type} {x y : Reported α} {f g : α → Reported β} {es ds : List Element}

/-- Whether no description is given up on the way to a result. -/
def Quiet (x : Reported α) : Prop :=
  ∀ p ∈ x.problems, p.abandons = false

theorem Quiet.pure (a : α) : Quiet (Pure.pure a) :=
  Tells.pure a

theorem Quiet.report {p : Problem} (hp : p.abandons = false) : Quiet (ChunkConfig.report p) :=
  Tells.report hp

theorem Quiet.bind (hx : x.Quiet) (hf : (f x.value).Quiet) : (x >>= f).Quiet :=
  Tells.bind hx hf

/-- Whether a result is the one that is left of another when the descriptions in some elements are
taken out: nothing changes but that these are no longer told of. -/
def Isolated (x y : Reported α) (es : List Element) : Prop :=
  ∃ out, Parted Problem.abandons x y out ∧ List.Forall₂ Abandons es out

theorem Isolated.refl (h : x.Quiet) : Isolated x x [] :=
  ⟨[], .refl h, .nil⟩

theorem Isolated.pure (a : α) : Isolated (Pure.pure a) (Pure.pure a) [] :=
  .refl (.pure a)

theorem Isolated.bind (h : Isolated x y es) (hf : Isolated (f y.value) (g y.value) ds) :
    Isolated (x >>= f) (y >>= g) (es ++ ds) := by
  obtain ⟨out, hout, htold⟩ := h
  obtain ⟨more, hmore, hmoreTold⟩ := hf
  exact ⟨out ++ more, hout.bind hmore, List.rel_append htold hmoreTold⟩

theorem Isolated.map (h : Isolated x y es) (f : α → β) :
    Isolated (x >>= fun a => Pure.pure (f a)) (y >>= fun a => Pure.pure (f a)) es := by
  rw [← List.append_nil es]
  exact .bind h (.pure _)

theorem Isolated.drop (h : Isolated x y es) {e : Element} {p : Problem} (hp : Abandons e p) :
    Isolated x (ChunkConfig.report p >>= fun _ => y) (e :: es) := by
  obtain ⟨out, hout, htold⟩ := h
  exact ⟨p :: out, hout.drop hp.abandons, .cons hp htold⟩

end Reported

section Quiet

theorem Problem.abandons_of_code {p : Problem} {c : Code} (h : p.code = c) :
    p.abandons = decide (c = .invalidCount ∨ c = .unknownValueKind ∨ c = .missingToken) := by
  rw [abandons, h]

theorem Problem.IsMinor.abandons {p : Problem} (h : p.IsMinor) : p.abandons = false := by
  rcases h with h | h | h
  all_goals
    rw [Problem.abandons_of_code h]
    rfl

theorem quiet_reportUnexpected (node : Node) : (reportUnexpected node).Quiet :=
  .report rfl

theorem quiet_helpText (owner : String) (nodes : List Node) : (helpText owner nodes).Quiet :=
  (tells_helpText owner nodes).mono fun _ h => Problem.abandons_of_code h

theorem PropertySchema.quiet_applyElements (p : PropertySchema) (nodes : List Node) :
    (applyElements applyElement p nodes).Quiet :=
  tells_applyElements (fun p e => (tells_applyElement p e).mono fun _ h => h.abandons)
    (fun _ h => Problem.abandons_of_code h) p nodes

namespace ChunkSchema

theorem quiet_applyTemplates (s : ChunkSchema) (templates : List Element) :
    (s.applyTemplates templates).Quiet :=
  (s.tells_applyTemplates templates).mono fun _ h => Problem.abandons_of_code h

/-- A child element of the description of a chunk type is either a description of a property that is
given up, and nothing else comes of it, or no description is given up in it. -/
theorem applyElement_cases (s : ChunkSchema) (e : Element) :
    (PropertySchema.isAbandoned e = true ∧ ∃ problem, s.applyElement e = ⟨s, [problem]⟩ ∧
      Abandons e problem) ∨
    PropertySchema.isAbandoned e = false ∧ (s.applyElement e).Quiet := by
  rw [applyElement]
  split
  · next named =>
    rcases PropertySchema.ofAttributes_cases named with
      ⟨habandoned, problem, he, hproblem⟩ | ⟨hkept, p, hp⟩
    · rw [PropertySchema.ofElement, he]
      exact .inl ⟨habandoned, problem, rfl, hproblem⟩
    · rw [PropertySchema.ofElement, hp]
      refine .inr ⟨hkept, .bind ?_ ?_⟩
      · exact .bind (PropertySchema.quiet_applyElements p _) (.pure _)
      · simp only [Reported.value_map]
        split
        · exact .bind (.report rfl) (.pure _)
        · exact .pure _
  · next named =>
    have hkept : PropertySchema.isAbandoned e = false := by
      rw [PropertySchema.isAbandoned, Bool.eq_false_iff.mpr named, Bool.false_and]
    refine .inr ⟨hkept, ?_⟩
    split
    · exact .bind (quiet_helpText _ _) (.pure _)
    · split
      · exact quiet_applyTemplates s _
      · exact .bind (.report rfl) (.pure _)

end ChunkSchema

end Quiet

section Prune

/-- Nodes without the elements among them that have a property. -/
def withoutElements (P : Element → Bool) (nodes : List Node) : List Node :=
  nodes.filter fun c => !c.element?.any P

def elementsWith (P : Element → Bool) (nodes : List Node) : List Element :=
  (nodes.filterMap Node.element?).filter P

variable {P : Element → Bool} {name : String} {as : List Attribute} {cs : List Node}

theorem prune_element_of_pos (h : P ⟨name, as, cs⟩ = true) (nodes : List Node) :
    withoutElements P (.element name as cs :: nodes) = withoutElements P nodes ∧
      elementsWith P (.element name as cs :: nodes) = ⟨name, as, cs⟩ :: elementsWith P nodes := by
  constructor
  · apply List.filter_cons_of_neg
    rw [Node.element?, Option.any_some, h]
    exact Bool.false_ne_true
  · exact List.filter_cons_of_pos h

theorem prune_element_of_neg (h : P ⟨name, as, cs⟩ = false) (nodes : List Node) :
    withoutElements P (.element name as cs :: nodes) =
        .element name as cs :: withoutElements P nodes ∧
      elementsWith P (.element name as cs :: nodes) = elementsWith P nodes := by
  constructor
  · apply List.filter_cons_of_pos
    rw [Node.element?, Option.any_some, h]
    rfl
  · apply List.filter_cons_of_neg
    rw [h]
    exact Bool.false_ne_true

end Prune

namespace ChunkSchema

theorem isolated_applyElements (s : ChunkSchema) (children : List Node) :
    Reported.Isolated
      (applyElements applyElement s (withoutElements PropertySchema.isAbandoned children))
      (applyElements applyElement s children)
      (elementsWith PropertySchema.isAbandoned children) := by
  induction children generalizing s with
  | nil => exact .pure s
  | cons child rest ih =>
    cases child with
    | element name as cs =>
      rcases applyElement_cases s ⟨name, as, cs⟩ with ⟨habandoned, problem, he, hp⟩ | ⟨hkept, hq⟩
      · obtain ⟨hwithout, hwith⟩ := prune_element_of_pos habandoned rest
        rw [hwithout, hwith, applyElements, he]
        exact .drop (ih s) hp
      · obtain ⟨hwithout, hwith⟩ := prune_element_of_neg hkept rest
        rw [hwithout, hwith, applyElements, applyElements]
        exact .bind (.refl hq) (ih _)
    | text | comment | instruction | notationName => exact ih s
    | document | fragment | attr | other =>
      exact .bind (.refl (quiet_reportUnexpected _)) (ih s)

/-- The descriptions that are given up in an element among those of chunk types. -/
def abandoned (e : Element) : List Element :=
  if isAbandoned e then [e]
  else if Text.same e.name "ChunkDesc" then elementsWith PropertySchema.isAbandoned e.children
  else []

/-- A node among the descriptions of chunk types, without the descriptions of properties in it that
are given up. -/
def prune : Node → Node
  | .element name as cs =>
    .element name as (if Text.same name "ChunkDesc" then
      withoutElements PropertySchema.isAbandoned cs else cs)
  | node => node

theorem exists_ofNode_eq {e : Element} (h : isAbandoned e = true) :
    ∃ problem, ofNode e.node = ⟨none, [problem]⟩ ∧ Abandons e problem := by
  rw [isAbandoned, Bool.and_eq_true] at h
  obtain ⟨named, blank⟩ := h
  have hempty : (Text.trim (lastValue e.attributes "token")).isEmpty = true :=
    (Text.isEmpty_trim _).trans blank
  refine ⟨.chunkTypeWithoutToken (lastValue e.attributes "name"), ?_, .chunkType named blank⟩
  rw [Element.node, ofNode, if_pos named]
  simp only [ofElement, hempty, if_true]
  rfl

theorem isolated_ofElement {e : Element} (named : Text.same e.name "ChunkDesc" = true)
    (hkept : isAbandoned e = false) :
    Reported.Isolated (ofNode (prune e.node)) (ofNode e.node)
      (elementsWith PropertySchema.isAbandoned e.children) := by
  rw [isAbandoned, named, Bool.true_and] at hkept
  have hempty : (Text.trim (lastValue e.attributes "token")).isEmpty = false :=
    (Text.isEmpty_trim _).trans hkept
  rw [Element.node, prune, if_pos named, ofNode, ofNode, if_pos named, if_pos named]
  simp only [ofElement, hempty, Bool.false_eq_true, if_false]
  exact .map (isolated_applyElements _ e.children) some

theorem isolated_ofNode {node : Node} (hp : node.Parsed)
    (hkept : node.element?.any isAbandoned = false) :
    Reported.Isolated (ofNode (prune node)) (ofNode node) (node.element?.elim [] abandoned) := by
  cases hp with
  | @element name as cs =>
    have hkept : isAbandoned ⟨name, as, cs⟩ = false := hkept
    rw [Node.element?, Option.elim_some, abandoned, hkept, if_neg Bool.false_ne_true]
    cases named : Text.same name "ChunkDesc" with
    | true => exact isolated_ofElement (e := ⟨name, as, cs⟩) named hkept
    | false =>
      rw [if_neg Bool.false_ne_true, prune, named, if_neg Bool.false_ne_true]
      refine .refl ?_
      rw [ofNode, named, if_neg Bool.false_ne_true]
      exact .bind (.report rfl) (.pure none)
  | text | comment | instruction => exact .pure none
  | other => exact .refl (.bind (quiet_reportUnexpected _) (.pure none))

end ChunkSchema

namespace Catalog

/-- Nodes among the descriptions of chunk types, without those descriptions that are given up. -/
def pruneChildren (children : List Node) : List Node :=
  (withoutElements ChunkSchema.isAbandoned children).map ChunkSchema.prune

def abandonedIn (children : List Node) : List Element :=
  children.flatMap fun c => c.element?.elim [] ChunkSchema.abandoned

theorem isolated_ofChildren {children : List Node} (hp : ∀ c ∈ children, c.Parsed) :
    Reported.Isolated (ofChildren (pruneChildren children)) (ofChildren children)
      (abandonedIn children) := by
  induction children with
  | nil => exact .pure []
  | cons child rest ih =>
    rw [List.forall_mem_cons] at hp
    have hrest := ih hp.2
    have habandoned : abandonedIn (child :: rest) =
        child.element?.elim [] ChunkSchema.abandoned ++ abandonedIn rest := List.flatMap_cons
    rw [habandoned]
    cases hkept : child.element?.any ChunkSchema.isAbandoned with
    | true =>
      obtain ⟨e, he, hgiven⟩ := (Option.any_eq_true _ _).mp hkept
      obtain rfl := Node.eq_node_of_element? he
      obtain ⟨problem, hnode, hproblem⟩ := ChunkSchema.exists_ofNode_eq hgiven
      have hprune : pruneChildren (e.node :: rest) = pruneChildren rest := by
        rw [pruneChildren, withoutElements, List.filter_cons_of_neg (by rw [hkept]; nofun)]
        rfl
      have hpure : (do return (none : Option ChunkSchema).toList ++ (← ofChildren rest)) =
          ofChildren rest := bind_pure _
      rw [hprune, ofChildren, hnode, he, Option.elim_some, ChunkSchema.abandoned, hgiven,
        if_pos rfl]
      change Reported.Isolated _ (report problem >>= fun _ => do
        return (none : Option ChunkSchema).toList ++ (← ofChildren rest)) _
      rw [hpure]
      exact .drop hrest hproblem
    | false =>
      have hprune : pruneChildren (child :: rest) =
          ChunkSchema.prune child :: pruneChildren rest := by
        rw [pruneChildren, withoutElements, List.filter_cons_of_pos (by rw [hkept]; rfl)]
        rfl
      rw [hprune, ofChildren, ofChildren]
      exact .bind (ChunkSchema.isolated_ofNode hp.1 hkept) (.map hrest _)

/-- A node of a document, without those descriptions in it that are given up. -/
def pruneNode : Node → Node
  | .element name as cs =>
    .element name as (if Text.same name "ChunkDescDB" then pruneChildren cs else cs)
  | node => node

/-- A document without the descriptions that are given up: those of chunk types without a token, and
in the others those of properties without a token or with a type or a count that cannot be read. -/
def prune : Node → Node
  | .document cs => .document (cs.map pruneNode)
  | node => node

/-- The descriptions of a document that are given up, in their order. -/
def abandoned : Node → List Element
  | .document cs => cs.flatMap fun c => c.element?.elim [] fun e =>
    if Text.same e.name "ChunkDescDB" then abandonedIn e.children else []
  | _ => []

theorem isolated_ofNode {node : Node} (hp : node.Parsed) :
    Reported.Isolated (ofNode (pruneNode node)) (ofNode node)
      (node.element?.elim [] fun e =>
        if Text.same e.name "ChunkDescDB" then abandonedIn e.children else []) := by
  cases hp with
  | @element name as cs _ hcs =>
    rw [pruneNode, ofNode, ofNode, Node.element?, Option.elim_some]
    cases Text.same name "ChunkDescDB" with
    | true => exact isolated_ofChildren hcs
    | false => exact .refl (.bind (.report rfl) (.pure []))
  | text | comment | instruction => exact .pure []
  | other => exact .refl (.bind (quiet_reportUnexpected _) (.pure []))

theorem isolated_ofNodes {nodes : List Node} (hp : ∀ c ∈ nodes, c.Parsed) :
    Reported.Isolated (ofNodes (nodes.map pruneNode)) (ofNodes nodes)
      (nodes.flatMap fun c => c.element?.elim [] fun e =>
        if Text.same e.name "ChunkDescDB" then abandonedIn e.children else []) := by
  induction nodes with
  | nil => exact .pure []
  | cons node nodes ih =>
    rw [List.forall_mem_cons] at hp
    rw [List.map_cons, ofNodes, ofNodes, List.flatMap_cons]
    exact .bind (isolated_ofNode hp.1) (.map (ih hp.2) _)

/-- Descriptions that are given up leave nothing behind but one problem each, whatever their
attributes are and wherever they stand: without them the catalog is the same, and so are all other
problems. -/
theorem isolated_of_readDocument {source : Bytes} {node : Node}
    (h : Xml.readDocument source = .ok node) :
    (ofNode (prune node)).value = (ofNode node).value ∧
      (ofNode (prune node)).problems = (ofNode node).problems.filter (fun p => !p.abandons) ∧
      List.Forall₂ Abandons (abandoned node) ((ofNode node).problems.filter Problem.abandons) := by
  obtain ⟨nodes, rfl, hnodes⟩ := Xml.siblings_of_readDocument_eq h
  obtain ⟨out, hparted, htold⟩ := isolated_ofNodes hnodes.parsed
  rw [prune, ofNode, ofNode]
  exact ⟨hparted.value_eq, hparted.problems_eq, hparted.out_eq.symm ▸ htold⟩

/-- A catalog in which a good description of a property stands among bad ones of the same token, and
a bad description of a chunk type behind the good one. -/
def lampCatalog : Bytes :=
  ["<ChunkDescDB><ChunkDesc Token='Lamp'>", "<PropertyDesc token='on' type='bool'/>",
    "<PropertyDesc token='on' TYPE='switch' num='many'><label text='?'/></PropertyDesc>",
    "<PropertyDesc NUM='5000' token='on'/>", "<PropertyDesc token='on' Token=' ' type='int'/>",
    "<PropertyDesc token='ON' type='int'/></ChunkDesc>",
    "<ChunkDesc token='Fan' TOKEN='' name='fan'><PropertyDesc type='?'/></ChunkDesc>",
    "</ChunkDescDB>"].flatMap Text.encode

theorem isolated_lampCatalog :
    ∃ node, Xml.readDocument lampCatalog = .ok node ∧ (abandoned node).length = 4 ∧
      (ofNode node).problems.map Problem.code =
        [.unknownValueKind, .invalidCount, .missingToken, .duplicateProperty, .missingToken] ∧
      (ofNode (prune node)).value = (ofNode node).value ∧
      (ofNode (prune node)).problems = (ofNode node).problems.filter (fun p => !p.abandons) ∧
      List.Forall₂ Abandons (abandoned node) ((ofNode node).problems.filter Problem.abandons) := by
  have hread : (Xml.readDocument lampCatalog).map (fun node =>
      ((abandoned node).length, (ofNode node).problems.map Problem.code)) =
        .ok (4, [.unknownValueKind, .invalidCount, .missingToken, .duplicateProperty,
          .missingToken]) := by decide +kernel
  obtain ⟨node, hnode, h⟩ := exists_of_map_eq_ok hread
  obtain ⟨hlength, hcodes⟩ := Prod.mk.inj h
  exact ⟨node, hnode, hlength.symm, hcodes.symm, isolated_of_readDocument hnode⟩

end Catalog

end ChunkConfig
