import ChunkConfig.Proofs.Xml.Assembly
import ChunkConfig.Proofs.Xml.Reading
import ChunkConfig.Xml.Document
import Mathlib.Data.List.Chain

namespace ChunkConfig.Xml

theorem Node.eq_node_of_element? {node : Node} {e : Element} (h : node.element? = some e) :
    node = e.node := by
  cases node with
  | element name as cs =>
    obtain rfl := Option.some.inj h
    rfl
  | _ => cases h

/-- At most one of two neighbours is text. -/
def Apart (a b : Node) : Prop :=
  ¬ (a.isText = true ∧ b.isText = true)

/-- What holds of every node below a document that is read. -/
inductive Node.Parsed : Node → Prop
  | element {name : String} {as : List Attribute} {cs : List Node}
    (distinct : (as.map Attribute.name).Nodup) (children : ∀ c ∈ cs, Node.Parsed c)
    (apart : cs.IsChain Apart) : Node.Parsed (.element name as cs)
  | text (content : String) : Node.Parsed (.text content)
  | comment {content : String} (h : ¬ ['-', '-', '>'] <:+: content.toList) :
    Node.Parsed (.comment content)
  | instruction {target data : String} (ht : target ≠ "xml")
    (hd : ¬ ['?', '>'] <:+: data.toList) (trimmed : Text.trim data = data) :
    Node.Parsed (.instruction target data)
  | other (content : String) : Node.Parsed (.other content)

theorem Node.Parsed.children {name : String} {as : List Attribute} {cs : List Node}
    (h : (Node.element name as cs).Parsed) : ∀ c ∈ cs, c.Parsed := by
  cases h with
  | element _ hc _ => exact hc

/-- Neighbours in a document that is read, in their order or the other way round. -/
structure Siblings (cs : List Node) : Prop where
  parsed : ∀ c ∈ cs, c.Parsed
  apart : cs.IsChain Apart

theorem Siblings.nil : Siblings [] :=
  ⟨fun _ hc => absurd hc List.not_mem_nil, .nil⟩

theorem Siblings.reverse {cs : List Node} (h : Siblings cs) : Siblings cs.reverse where
  parsed c hc := h.parsed c (List.mem_reverse.mp hc)
  apart := by
    rw [List.isChain_reverse]
    exact h.apart.imp fun _ _ hab hba => hab hba.symm

theorem Siblings.cons {c : Node} {cs : List Node} (h : Siblings cs) (hc : c.Parsed)
    (ht : c.isText = false) : Siblings (c :: cs) where
  parsed d hd := (List.mem_cons.mp hd).elim (· ▸ hc) (h.parsed d)
  apart := h.apart.cons fun _ _ hn => Bool.false_ne_true (ht.symm.trans hn.1)

theorem Siblings.joinText {cs : List Node} (h : Siblings cs) (content : String) :
    Siblings (Assembly.joinText content cs) := by
  have hcons (hd : ∀ d ∈ cs.head?, d.isText = false) : Siblings (.text content :: cs) := {
    parsed := fun d hm => (List.mem_cons.mp hm).elim (· ▸ .text content) (h.parsed d)
    apart := h.apart.cons fun d hm hn => Bool.false_ne_true ((hd d hm).symm.trans hn.2) }
  unfold Assembly.joinText
  split
  · next before rest =>
    refine ⟨fun d hm => ?_, ?_⟩
    · exact (List.mem_cons.mp hm).elim (· ▸ .text _) fun hr => h.parsed d (.tail _ hr)
    · have ha := List.isChain_cons.mp h.apart
      exact ha.2.cons fun d hd hn => ha.1 d hd ⟨rfl, hn.2⟩
  · next hn =>
    apply hcons
    intro d hd
    cases cs with
    | nil => cases hd
    | cons c cs =>
      cases hd
      cases d with
      | text before => exact absurd rfl (hn before cs)
      | _ => rfl

/-- The nodes that are put together so far are nodes of a document that is read. -/
structure Assembly.Sound (a : Assembly) : Prop where
  distinct : ∀ f ∈ a.frames, (f.attributes.map Attribute.name).Nodup
  siblings : ∀ f ∈ a.frames, Siblings f.children
  top : Siblings a.top

namespace Assembly

theorem Sound.modify {a : Assembly} (h : a.Sound) {f : List Node → List Node}
    (hf : ∀ cs, Siblings cs → Siblings (f cs)) : (a.modify f).Sound := by
  obtain ⟨frames, top⟩ := a
  cases frames with
  | nil => exact { h with top := hf _ h.top }
  | cons frame frames =>
    refine { h with distinct := fun g hg => ?_, siblings := fun g hg => ?_ }
    · rcases List.mem_cons.mp hg with rfl | hg
      · exact h.distinct frame (.head _)
      · exact h.distinct g (.tail _ hg)
    · rcases List.mem_cons.mp hg with rfl | hg
      · exact hf _ (h.siblings frame (.head _))
      · exact h.siblings g (.tail _ hg)

theorem Sound.add {a : Assembly} (h : a.Sound) {c : Node} (hc : c.Parsed)
    (ht : c.isText = false) : (a.add c).Sound :=
  h.modify fun _ hcs => hcs.cons hc ht

theorem Sound.addText {a : Assembly} (h : a.Sound) (content : String) :
    (a.addText content).Sound := by
  rw [Assembly.addText]
  split
  · exact h
  · exact h.modify fun _ hcs => hcs.joinText content

theorem Sound.close {a : Assembly} (h : a.Sound) : a.close.Sound := by
  obtain ⟨frames, top⟩ := a
  cases frames with
  | nil => exact h
  | cons frame frames =>
    have hs := (h.siblings frame (.head _)).reverse
    have ha : Assembly.Sound ⟨frames, top⟩ := {
      distinct := fun g hg => h.distinct g (.tail _ hg)
      siblings := fun g hg => h.siblings g (.tail _ hg)
      top := h.top }
    exact ha.add (.element (h.distinct frame (.head _)) hs.parsed hs.apart) rfl

theorem not_infix_trim {data : String} (h : ¬ ['?', '>'] <:+: data.toList) :
    ¬ ['?', '>'] <:+: (Text.trim data).toList := by
  refine fun hi => h (hi.trans ?_)
  rw [Text.toList_trim]
  exact (List.rdropWhile_prefix Text.isBlank _).isInfix.trans (List.dropWhile_suffix _).isInfix

theorem Sound.step {a : Assembly} (h : a.Sound) {e : Event} (he : e.Read) :
    (a.step e).Sound := by
  cases e with
  | declaration => exact h
  | start name as =>
    exact {
      distinct := fun g hg => (List.mem_cons.mp hg).elim (· ▸ he) (h.distinct g)
      siblings := fun g hg => (List.mem_cons.mp hg).elim (· ▸ .nil) (h.siblings g)
      top := h.top }
  | empty name as => exact h.add (.element he (fun _ hc => absurd hc List.not_mem_nil) .nil) rfl
  | finish name => exact h.close
  | text content => exact h.addText content
  | cdata content => exact h.addText content
  | comment content => exact h.add (.comment he) rfl
  | instruction target data =>
    exact h.add (.instruction he.1 (not_infix_trim he.2) (Text.trim_trim data)) rfl
  | doctype content => exact h.add (.other _) rfl

theorem Sound.foldl {a : Assembly} (h : a.Sound) {es : List Event} (he : ∀ e ∈ es, e.Read) :
    (es.foldl Assembly.step a).Sound := by
  induction es generalizing a with
  | nil => exact h
  | cons e es ih => exact ih (h.step (he e (.head _))) fun f hf => he f (.tail _ hf)

end Assembly

/-- The nodes of every document that is read are distinct in their attributes, have no two texts
side by side, and can be written as far as their contents go. -/
theorem siblings_of_readDocument_eq {source : Bytes} {node : Node}
    (h : readDocument source = .ok node) : ∃ cs, node = .document cs ∧ Siblings cs := by
  have hp := eq_ok_of_mapError h
  unfold parse scan at hp
  split at hp
  · cases hp
  · next es hes =>
    split at hp
    · cases hp
    · next nodes hn =>
      cases hp
      refine ⟨nodes, rfl, ?_⟩
      have hs : Assembly.Sound ⟨[], []⟩ :=
        ⟨fun _ hf => absurd hf List.not_mem_nil, fun _ hf => absurd hf List.not_mem_nil, .nil⟩
      have hf := hs.foldl (read_of_scanFrom_eq hes)
      unfold assemble at hn
      simp only at hn
      split at hn
      · cases hn
        exact hf.top.reverse
      · cases hn

/-- A node all of whose names, at any depth, are names of XML, and that holds no document type. -/
inductive Node.Named : Node → Prop
  | element {name : String} {as : List Attribute} {cs : List Node} (hn : isName name = true)
    (ha : ∀ a ∈ as, isName a.name = true) (hc : ∀ c ∈ cs, Node.Named c) :
    Node.Named (.element name as cs)
  | text (content : String) : Node.Named (.text content)
  | comment (content : String) : Node.Named (.comment content)
  | instruction {target : String} (ht : isName target = true) (data : String) :
    Node.Named (.instruction target data)

theorem allWritable_of_isChain {cs : List Node} (hc : ∀ c ∈ cs, c.Writable)
    (ha : cs.IsChain Apart) {after : Bool}
    (hh : ∀ c ∈ cs.head?, ¬ (after = true ∧ c.isText = true)) : AllWritable after cs := by
  induction cs generalizing after with
  | nil => trivial
  | cons c cs ih =>
    rw [List.isChain_cons] at ha
    exact ⟨hc c (.head _), hh c rfl, ih (fun d hd => hc d (.tail _ hd)) ha.2 ha.1⟩

theorem allWritable_of_elements {cs : List Node} (h : ∀ c ∈ cs, c.Writable ∧ c.isText = false)
    (after : Bool) : AllWritable after cs := by
  induction cs generalizing after with
  | nil => trivial
  | cons c cs ih =>
    obtain ⟨hc, ht⟩ := h c (.head _)
    exact ⟨hc, fun hn => Bool.false_ne_true (ht.symm.trans hn.2),
      ih (fun d hd => h d (.tail _ hd)) _⟩

theorem Element.writable {e : Element} (es : List Element) (ht : ProperTag e.name e.attributes)
    (hc : e.children = es.map Element.node) (he : ∀ d ∈ es, d.node.Writable) :
    e.node.Writable := by
  refine ⟨ht, allWritable_of_elements (fun c hm => ?_) false⟩
  rw [hc] at hm
  obtain ⟨d, hd, rfl⟩ := List.mem_map.mp hm
  exact ⟨he d hd, rfl⟩

/-- What was read from a document can be written and read again when its names are names of XML. -/
theorem Node.Parsed.writable {c : Node} (hp : c.Parsed) (hn : c.Named) : c.Writable := by
  induction hp with
  | element distinct children apart ih =>
    cases hn with
    | element hn ha hc =>
      refine ⟨⟨hn, ha, distinct⟩, ?_⟩
      exact allWritable_of_isChain (fun c hm => ih c hm (hc c hm)) apart
        fun _ _ h => Bool.false_ne_true h.1
  | text => trivial
  | comment h => exact h
  | instruction ht hd trimmed =>
    cases hn with
    | instruction hn => exact ⟨⟨hn, ht, hd⟩, trimmed⟩
  | other => cases hn

end ChunkConfig.Xml
