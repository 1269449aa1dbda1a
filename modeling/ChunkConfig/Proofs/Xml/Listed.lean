import ChunkConfig.Proofs.Xml.Legible
import ChunkConfig.Proofs.Xml.Parsed

namespace ChunkConfig.Xml

mutual

/-- The events of a walk through a node: an element starts, its children follow, and it ends. -/
def Node.walk : Node → List Event
  | .document cs | .fragment cs => walkAll cs
  | .element name attributes cs => .start name attributes :: (walkAll cs ++ [.finish name])
  | .text content => [.text content]
  | .comment content => [.comment content]
  | .instruction target data => [.instruction target data]
  | .other content => [.doctype content]
  | .attr _ | .notationName _ => []

def walkAll : List Node → List Event
  | [] => []
  | c :: cs => c.walk ++ walkAll cs

end

/-- What an event means at a depth. Declarations mean nothing, nor does blank text outside of all
elements. -/
def Event.meaning (depth : Nat) : Event → List Event
  | declaration => []
  | empty name attributes => [start name attributes, finish name]
  | text content | cdata content =>
    if depth = 0 ∧ Text.allBlank content = true then [] else [text content]
  | instruction target data => [instruction target (Text.trim data)]
  | doctype content => [doctype (Text.trim content)]
  | e => [e]

def meanings (depth : Nat) : List Event → List Event
  | [] => []
  | e :: es => e.meaning depth ++ meanings (e.depthAfter depth) es

/-- An event before others. Text is joined to text that follows it. -/
def Event.join : Event → List Event → List Event
  | .text content, .text next :: es => .text (content ++ next) :: es
  | e, es => e :: es

/-- Events of which each run of texts is joined to one text. -/
def joinTexts (es : List Event) : List Event :=
  es.foldr Event.join []

/-- The names of the elements that events leave open. -/
def leftOpen (es : List Event) : List String :=
  es.foldl (fun opened e => e.nest opened) []

section Join

variable {es : List Event}

/-- At most one of two events is text. -/
def Event.Apart (e f : Event) : Prop :=
  ¬ (e.isText = true ∧ f.isText = true)

theorem Event.Apart.of_left {e f : Event} (h : e.isText = false) : e.Apart f :=
  fun hn => Bool.false_ne_true (h.symm.trans hn.1)

theorem Event.Apart.of_right {e f : Event} (h : f.isText = false) : e.Apart f :=
  fun hn => Bool.false_ne_true (h.symm.trans hn.2)

theorem Event.join_of_apart {e : Event} (h : ∀ f ∈ es.head?, e.Apart f) : e.join es = e :: es := by
  unfold Event.join
  split
  · exact absurd ⟨rfl, rfl⟩ (h _ rfl)
  · rfl

theorem Event.join_join (content next : String) (es : List Event) :
    (Event.text content).join ((Event.text next).join es) =
      (Event.text (content ++ next)).join es := by
  cases es with
  | nil => rfl
  | cons e es =>
    cases e with
    | text last => simp only [Event.join, String.append_assoc]
    | _ => rfl

theorem joinTexts_append (es fs : List Event) :
    joinTexts (es ++ fs) = es.foldr Event.join (joinTexts fs) :=
  List.foldr_append

theorem joinTexts_of_isChain (h : es.IsChain Event.Apart) : joinTexts es = es := by
  induction es with
  | nil => rfl
  | cons e es ih =>
    rw [List.isChain_cons] at h
    rw [joinTexts, List.foldr_cons]
    change e.join (joinTexts es) = e :: es
    rw [ih h.2, Event.join_of_apart h.1]

end Join

section Walk

variable {c : Node} {cs : List Node}

theorem walkAll_append (cs ds : List Node) : walkAll (cs ++ ds) = walkAll cs ++ walkAll ds := by
  induction cs with
  | nil => rfl
  | cons c cs ih => rw [List.cons_append, walkAll, walkAll, ih, List.append_assoc]

theorem walkAll_reverse_cons (c : Node) (cs : List Node) :
    walkAll (c :: cs).reverse = walkAll cs.reverse ++ c.walk := by
  rw [List.reverse_cons, walkAll_append, walkAll, walkAll, List.append_nil]

theorem Node.Parsed.isText_walk (h : c.Parsed) :
    ∃ e es, c.walk = e :: es ∧ e.isText = c.isText ∧
      ∀ f ∈ c.walk.getLast?, f.isText = c.isText := by
  cases h with
  | element =>
    refine ⟨_, _, rfl, rfl, fun f hf => ?_⟩
    rw [Node.walk, ← List.cons_append, List.getLast?_concat] at hf
    cases hf
    rfl
  | text | comment | instruction | other =>
    refine ⟨_, _, rfl, rfl, fun f hf => ?_⟩
    cases hf
    rfl

theorem isChain_walkAll (hw : ∀ c ∈ cs, c.walk.IsChain Event.Apart) (hp : ∀ c ∈ cs, c.Parsed)
    (ha : cs.IsChain Apart) : (walkAll cs).IsChain Event.Apart := by
  induction cs with
  | nil => exact .nil
  | cons c cs ih =>
    rw [List.isChain_cons] at ha
    rw [List.forall_mem_cons] at hw hp
    rw [walkAll, List.isChain_append]
    refine ⟨hw.1, ih hw.2 hp.2 ha.2, fun e he f hf => ?_⟩
    obtain ⟨-, -, -, -, hlast⟩ := hp.1.isText_walk
    cases cs with
    | nil => cases hf
    | cons d ds =>
      obtain ⟨g, gs, hd, hg, -⟩ := (hp.2 d (.head _)).isText_walk
      rw [walkAll, hd] at hf
      cases hf
      unfold Event.Apart
      rw [hlast e he, hg]
      exact ha.1 d rfl

theorem Node.Parsed.isChain_walk (h : c.Parsed) : c.walk.IsChain Event.Apart := by
  induction h with
  | element distinct children apart ih =>
    have hcs := isChain_walkAll ih children apart
    rw [Node.walk, List.isChain_cons, List.isChain_append]
    refine ⟨fun _ _ => .of_left rfl, hcs, .singleton _, fun e _ f hf => ?_⟩
    cases hf
    exact .of_right rfl
  | _ => exact .singleton _

theorem Siblings.joinTexts_walkAll (h : Siblings cs) : joinTexts (walkAll cs) = walkAll cs :=
  joinTexts_of_isChain (isChain_walkAll (fun c hc => (h.parsed c hc).isChain_walk) h.parsed h.apart)

end Walk

section Matched

variable {position : Nat} {opened : List String} {raw input : Bytes} {es : List Event}

/-- Whether each end closes the innermost open element. -/
def Matched : List String → List Event → Prop
  | _, [] => True
  | opened, e :: es =>
    (∀ name, e = .finish name → opened.head? = some name) ∧ Matched (e.nest opened) es

theorem declared_ne_finish (position : Nat) (raw : Bytes) (name : String) :
    declared position raw ≠ .ok (.finish name) := by
  intro h
  rw [declared] at h
  split at h
  · split at h
    · cases h
    · obtain ⟨s, -, hs⟩ := exists_of_map_eq_ok h
      cases hs
  · split at h
    · split at h
      · cases h
      · obtain ⟨s, -, hs⟩ := exists_of_map_eq_ok h
        cases hs
    · split at h
      · cases h
      · simp only at h
        split at h
        · cases h
        · obtain ⟨s, -, hs⟩ := exists_of_map_eq_ok h
          cases hs

theorem instruction_ne_finish (position : Nat) (raw : Bytes) (name : String) :
    instruction position raw ≠ .ok (.finish name) := by
  intro h
  rw [instruction] at h
  split at h
  · cases h
  · simp only at h
    split at h
    · cases h
    · obtain ⟨target, -, h⟩ := exists_of_bind_eq_ok h
      obtain ⟨data, -, h⟩ := exists_of_bind_eq_ok h
      cases h

/-- An end that is read is that of the innermost open element. -/
theorem head?_of_markup_eq {name : String} (h : markup position opened raw = .ok (.finish name)) :
    opened.head? = some name := by
  rw [markup] at h
  split at h
  · exact absurd h (declared_ne_finish _ _ _)
  · split at h
    · exact absurd h (instruction_ne_finish _ _ _)
    · split at h
      · obtain ⟨expected, rest, rfl, he⟩ := exists_of_endTag_eq h
        cases he
        rfl
      · obtain ⟨_, _, _, -, ⟨-, he⟩ | ⟨-, -, he⟩⟩ := exists_of_tag_eq h
        · cases he
        · cases he

theorem matched_of_scanFrom_eq (h : scanFrom position opened input = .ok es) :
    Matched opened es := by
  fun_induction scanFrom position opened input generalizing es with
  | case1 =>
    cases h
    trivial
  | case2 position opened rest piece =>
    rename_i ih
    obtain ⟨raw, -, h⟩ := exists_of_bind_eq_ok h
    obtain ⟨e, he, h⟩ := exists_of_bind_eq_ok h
    obtain ⟨fs, hfs, h⟩ := exists_of_bind_eq_ok h
    cases h
    refine ⟨?_, ih raw e hfs⟩
    rintro name rfl
    exact head?_of_markup_eq he
  | case3 position opened b rest hb raw position' =>
    rename_i ih
    obtain ⟨content, -, h⟩ := exists_of_bind_eq_ok h
    obtain ⟨fs, hfs, h⟩ := exists_of_bind_eq_ok h
    cases h
    exact ⟨fun _ => Event.noConfusion, ih hfs⟩

end Matched

section Assembly

/-- The walk through nodes and the open elements behind them. -/
def openWalk (top : List Node) : List Frame → List Event
  | [] => walkAll top.reverse
  | f :: fs => openWalk top fs ++ .start f.name f.attributes :: walkAll f.children.reverse

namespace Assembly

variable (a : Assembly)

/-- The walk through what is put together so far. -/
def walk : List Event :=
  openWalk a.top a.frames

theorem exists_walk_modify : ∃ before nodes, a.walk = before ++ walkAll nodes.reverse ∧
    ∀ f, (a.modify f).walk = before ++ walkAll (f nodes).reverse := by
  obtain ⟨frames, top⟩ := a
  cases frames with
  | nil => exact ⟨[], top, rfl, fun _ => rfl⟩
  | cons f fs =>
    have hwalk (cs : List Node) : openWalk top (⟨f.name, f.attributes, cs⟩ :: fs) =
        openWalk top fs ++ [.start f.name f.attributes] ++ walkAll cs.reverse :=
      List.append_cons _ _ _
    exact ⟨_, f.children, hwalk f.children, fun g => hwalk (g f.children)⟩

theorem walk_add (c : Node) : (a.add c).walk = a.walk ++ c.walk := by
  obtain ⟨before, nodes, ha, hf⟩ := a.exists_walk_modify
  rw [add, hf, ha, walkAll_reverse_cons, List.append_assoc]

theorem joinText_cases (content : String) (nodes : List Node) :
    (∃ before rest, nodes = .text before :: rest ∧
        joinText content nodes = .text (before ++ content) :: rest) ∨
      joinText content nodes = .text content :: nodes := by
  unfold joinText
  split
  · exact .inl ⟨_, _, rfl, rfl⟩
  · exact .inr rfl

theorem joinTexts_walk_joinText (content : String) (rest : List Event) :
    joinTexts ((a.modify (joinText content)).walk ++ rest) =
      joinTexts (a.walk ++ .text content :: rest) := by
  obtain ⟨before, nodes, ha, hf⟩ := a.exists_walk_modify
  rw [hf, ha]
  rcases joinText_cases content nodes with ⟨text, nodes, rfl, hj⟩ | hj
  -- The text is in the tree already, so that the two sides differ at this joint alone.
  · rw [hj, walkAll_reverse_cons, walkAll_reverse_cons]
    simp only [Node.walk, List.append_assoc, List.singleton_append]
    rw [← List.append_assoc, ← List.append_assoc, joinTexts_append, joinTexts_append]
    exact congrArg (List.foldr Event.join · _) (Event.join_join text content _).symm
  · rw [hj, walkAll_reverse_cons, Node.walk, List.append_assoc, List.append_assoc,
      List.singleton_append, List.append_assoc]

/-- Each event adds what it means to the walk. -/
theorem joinTexts_walk_step {e : Event}
    (he : ∀ name, e = .finish name → (a.frames.map Frame.name).head? = some name)
    (rest : List Event) :
    joinTexts ((a.step e).walk ++ rest) =
      joinTexts (a.walk ++ (e.meaning a.frames.length ++ rest)) := by
  rw [← List.append_assoc]
  cases e with
  | declaration => rw [Event.meaning, List.append_nil, step]
  | start name as => rfl
  | empty name as =>
    rw [step, walk_add]
    rfl
  | finish name =>
    obtain ⟨frames, top⟩ := a
    cases frames with
    | nil => cases he name rfl
    | cons f fs =>
      -- The tree has the name from the start of the element, the event has it from the end.
      obtain rfl : f.name = name := Option.some.inj (he name rfl)
      rw [step, close_frame, walk_add]
      have hwalk : openWalk top fs ++
            (.start f.name f.attributes :: walkAll f.children.reverse ++ [.finish f.name]) =
          openWalk top fs ++ .start f.name f.attributes :: walkAll f.children.reverse ++
            [.finish f.name] :=
        (List.append_assoc _ _ _).symm
      exact congrArg (fun es => joinTexts (es ++ rest)) hwalk
  | text content | cdata content =>
    simp only [step, addText, Event.meaning, List.isEmpty_iff, List.length_eq_zero_iff]
    split
    · rw [List.append_nil]
    · rw [List.append_assoc]
      exact a.joinTexts_walk_joinText content rest
  | comment | instruction | doctype =>
    rw [step, walk_add]
    rfl

theorem length_frames_step (e : Event) :
    (a.step e).frames.length = e.depthAfter a.frames.length := by
  have hnames := congrArg List.length (a.names_step e)
  rw [List.length_map] at hnames
  apply hnames.trans
  cases e with
  | finish name => rw [Event.nest, Event.depthAfter, List.length_tail, List.length_map]
  | start name as => exact congrArg Nat.succ (List.length_map _)
  | _ => exact List.length_map _

theorem joinTexts_walk_foldl {es : List Event} (h : Matched (a.frames.map Frame.name) es) :
    joinTexts (es.foldl step a).walk = joinTexts (a.walk ++ meanings a.frames.length es) := by
  induction es generalizing a with
  | nil => rw [List.foldl_nil, meanings, List.append_nil]
  | cons e es ih =>
    obtain ⟨he, hes⟩ := h
    rw [← a.names_step] at hes
    rw [List.foldl_cons, ih (a.step e) hes, a.joinTexts_walk_step he, a.length_frames_step,
      meanings]

/-- Whether no text outside of all elements is blank. -/
def TopSolid : Prop :=
  ∀ content, Node.text content ∈ a.top → Text.allBlank content = false

variable {a}

theorem TopSolid.modify (h : a.TopSolid) {f : List Node → List Node}
    (hf : a.frames = [] → ∀ content, Node.text content ∈ f a.top →
      Text.allBlank content = false) : (a.modify f).TopSolid := by
  obtain ⟨frames, top⟩ := a
  cases frames with
  | nil => exact hf rfl
  | cons => exact h

theorem TopSolid.add (h : a.TopSolid) {c : Node} (hc : c.isText = false) : (a.add c).TopSolid := by
  apply h.modify
  intro _ content hm
  rcases List.mem_cons.mp hm with rfl | hm
  · cases hc
  · exact h content hm

theorem TopSolid.addText (h : a.TopSolid) (content : String) : (a.addText content).TopSolid := by
  rw [Assembly.addText]
  split
  · exact h
  · next hn =>
    apply h.modify
    intro hframes other hm
    have hb : Text.allBlank content = false := by
      rw [← Bool.not_eq_true]
      intro hb
      exact hn ⟨List.isEmpty_iff.mpr hframes, hb⟩
    rcases joinText_cases content a.top with ⟨before, rest, htop, hj⟩ | hj
    · rw [hj] at hm
      rcases List.mem_cons.mp hm with hm | hm
      · cases hm
        rw [Text.allBlank, String.toList_append, List.all_append]
        rw [Text.allBlank] at hb
        rw [hb, Bool.and_false]
      · exact h other (htop ▸ .tail _ hm)
    · rw [hj] at hm
      rcases List.mem_cons.mp hm with hm | hm
      · cases hm
        exact hb
      · exact h other hm

theorem TopSolid.close (h : a.TopSolid) : a.close.TopSolid := by
  obtain ⟨frames, top⟩ := a
  cases frames with
  | nil => exact h
  | cons f fs => exact TopSolid.add (a := ⟨fs, top⟩) h rfl

theorem TopSolid.step (h : a.TopSolid) (e : Event) : (a.step e).TopSolid := by
  cases e with
  | declaration | start => exact h
  | finish => exact h.close
  | text content | cdata content => exact h.addText content
  | empty | comment | instruction | doctype => exact h.add rfl

theorem TopSolid.foldl (h : a.TopSolid) (es : List Event) :
    (es.foldl Assembly.step a).TopSolid := by
  induction es generalizing a with
  | nil => exact h
  | cons e es ih => exact ih (h.step e)

end Assembly

/-- Nodes are put together when no element is left open, and then their walk is what the events
mean. -/
theorem assemble_eq_ok_iff {es : List Event} :
    (∃ nodes, assemble es = .ok nodes) ↔ leftOpen es = [] := by
  constructor
  · rintro ⟨nodes, h⟩
    have hnames := Assembly.names_foldl ⟨[], []⟩ es
    simp only [assemble] at h
    split at h
    · next hf =>
      rw [hf] at hnames
      exact hnames.symm
    · cases h
  · exact exists_assemble_eq

theorem listed_of_assemble_eq {es : List Event} (hm : Matched [] es) {nodes : List Node}
    (h : assemble es = .ok nodes) :
    joinTexts (walkAll nodes) = joinTexts (meanings 0 es) ∧
      ∀ content, Node.text content ∈ nodes → Text.allBlank content = false := by
  have hwalk := Assembly.joinTexts_walk_foldl ⟨[], []⟩ hm
  have htop : Assembly.TopSolid ⟨[], []⟩ := fun _ hc => absurd hc List.not_mem_nil
  have hsolid := htop.foldl es
  simp only [assemble] at h
  split at h
  · next hf =>
    cases h
    rw [Assembly.walk, hf] at hwalk
    exact ⟨hwalk, fun content hc => hsolid content (List.mem_reverse.mp hc)⟩
  · cases h

end Assembly

/-- A document is read when no element is left open, and then a walk through it meets what the
events mean, where texts without anything between them are one. -/
theorem listed_of_scan_eq {input : Bytes} {es : List Event} (h : scan input = .ok es) :
    ((∃ node, readDocument input = .ok node) ↔ leftOpen es = []) ∧
      ∀ node, readDocument input = .ok node → ∃ cs, node = .document cs ∧
        node.walk = joinTexts (meanings 0 es) ∧ Siblings cs ∧
          ∀ content, Node.text content ∈ cs → Text.allBlank content = false := by
  have hread (node : Node) :
      readDocument input = .ok node ↔ ∃ cs, node = .document cs ∧ assemble es = .ok cs := by
    cases hes : assemble es with
    | error name =>
      simp only [readDocument, parse, h, hes, Except.mapError, reduceCtorEq, and_false,
        exists_false]
    | ok cs =>
      simp only [readDocument, parse, h, hes, Except.mapError, Except.ok.injEq, exists_eq_right']
      exact eq_comm
  constructor
  · rw [← assemble_eq_ok_iff]
    constructor
    · rintro ⟨node, hn⟩
      obtain ⟨cs, -, hcs⟩ := (hread node).mp hn
      exact ⟨cs, hcs⟩
    · rintro ⟨cs, hcs⟩
      exact ⟨.document cs, (hread _).mpr ⟨cs, rfl, hcs⟩⟩
  · intro node hn
    obtain ⟨cs, rfl, hcs⟩ := (hread node).mp hn
    obtain ⟨_, hdocument, hsiblings⟩ := siblings_of_readDocument_eq hn
    cases hdocument
    obtain ⟨hwalk, hsolid⟩ := listed_of_assemble_eq (matched_of_scanFrom_eq h) hcs
    rw [hsiblings.joinTexts_walkAll] at hwalk
    exact ⟨cs, rfl, hwalk, hsiblings, hsolid⟩

/-- A document in which events of every kind stand. -/
def memo : Bytes :=
  Text.encode "<?xml version=\"1.0\"?>\n<!DOCTYPE  memo ><memo to=\"a\" at='&lt;'>
b<![CDATA[ c]]><br/><?p  d ?> <!--e--></memo>"

def memoEvents : List Event :=
  [.declaration, .text "\n", .doctype "memo ", .start "memo" [⟨"to", "a"⟩, ⟨"at", "<"⟩],
    .text "\nb", .cdata " c", .empty "br" [], .instruction "p" "  d ", .text " ", .comment "e",
    .finish "memo"]

theorem listed_of_scan_eq_memo :
    scan memo = .ok memoEvents ∧ (∃ node, readDocument memo = .ok node) ∧
      joinTexts (meanings 0 memoEvents) =
        [.doctype "memo", .start "memo" [⟨"to", "a"⟩, ⟨"at", "<"⟩], .text "\nb c", .start "br" [],
          .finish "br", .instruction "p" "d", .text " ", .comment "e", .finish "memo"] := by
  have h : scan memo = .ok memoEvents := by decide +kernel
  exact ⟨h, (listed_of_scan_eq h).1.mpr rfl, by decide +kernel⟩

end ChunkConfig.Xml
