import ChunkConfig.Proofs.Xml.Placed
import ChunkConfig.Proofs.Xml.RoundTrip

namespace ChunkConfig.Xml

open Text (encode)

/-- Nodes without the text among them. -/
def withoutText (cs : List Node) : List Node :=
  cs.filter (!·.isText)

/-- The bytes of a document, put into an element. -/
def enclose (name : String) (attributes : List Attribute) (source : Bytes) : Bytes :=
  encode (Event.start name attributes).markup ++ (source ++ encode (Event.finish name).markup)

theorem withoutText_joinText (content : String) (cs : List Node) :
    withoutText (Assembly.joinText content cs) = withoutText cs := by
  rcases Assembly.joinText_cases content cs with ⟨before, rest, rfl, hj⟩ | hj
  · rw [hj]
    rfl
  · rw [hj]
    rfl

theorem withoutText_cons_congr {cs ds : List Node} (c : Node)
    (h : withoutText cs = withoutText ds) : withoutText (c :: cs) = withoutText (c :: ds) := by
  unfold withoutText at h ⊢
  rw [List.filter_cons, List.filter_cons, h]

namespace Assembly

variable {name : String} {as : List Attribute} {a b : Assembly} {es fs : List Event}

/-- What is put together within an element, next to what is put together without it. Text outside of
all other elements may differ. -/
def Within (name : String) (as : List Attribute) (a b : Assembly) : Prop :=
  ∃ cs, b = ⟨a.frames ++ [⟨name, as, cs⟩], []⟩ ∧ withoutText cs = withoutText a.top

theorem Within.modify (h : Within name as a b) {f : List Node → List Node}
    (hf : ∀ cs ds, withoutText cs = withoutText ds → withoutText (f cs) = withoutText (f ds)) :
    Within name as (a.modify f) (b.modify f) := by
  obtain ⟨cs, rfl, hcs⟩ := h
  obtain ⟨frames, top⟩ := a
  cases frames with
  | nil => exact ⟨f cs, rfl, hf cs top hcs⟩
  | cons => exact ⟨cs, rfl, hcs⟩

theorem Within.add (h : Within name as a b) (c : Node) : Within name as (a.add c) (b.add c) :=
  h.modify fun _ _ => withoutText_cons_congr c

theorem Within.addText (h : Within name as a b) (content : String) :
    Within name as (a.addText content) (b.addText content) := by
  have hjoin : Within name as (a.modify (joinText content)) (b.modify (joinText content)) :=
    h.modify fun cs ds hcs => by rw [withoutText_joinText, withoutText_joinText, hcs]
  obtain ⟨cs, hb, hcs⟩ := h
  have hopen : b.frames.isEmpty = false := by
    rw [hb, List.isEmpty_eq_false_iff]
    exact List.append_ne_nil_of_right_ne_nil _ (List.cons_ne_nil _ _)
  have hkept : b.addText content = b.modify (joinText content) :=
    if_neg fun hn => Bool.false_ne_true (hopen.symm.trans hn.1)
  rw [hkept, Assembly.addText]
  split
  · next hblank =>
    obtain ⟨frames, top⟩ := a
    obtain rfl : frames = [] := List.isEmpty_iff.mp hblank.1
    rw [hb]
    exact ⟨joinText content cs, rfl, (withoutText_joinText content cs).trans hcs⟩
  · exact hjoin

theorem Within.close (h : Within name as a b) (ha : a.frames ≠ []) :
    Within name as a.close b.close := by
  obtain ⟨cs, rfl, hcs⟩ := h
  obtain ⟨frames, top⟩ := a
  cases frames with
  | nil => exact absurd rfl ha
  | cons f fs =>
    have hrest : Within name as ⟨fs, top⟩ ⟨fs ++ [⟨name, as, cs⟩], []⟩ := ⟨cs, rfl, hcs⟩
    exact hrest.add _

theorem Within.step (h : Within name as a b) {e : Event}
    (he : ∀ n, e = .finish n → (a.frames.map Frame.name).head? = some n) :
    Within name as (a.step e) (b.step e) := by
  cases e with
  | declaration => exact h
  | start n bs =>
    obtain ⟨cs, rfl, hcs⟩ := h
    exact ⟨cs, rfl, hcs⟩
  | finish n =>
    apply h.close
    intro ha
    have hn := he n rfl
    rw [ha] at hn
    cases hn
  | text content | cdata content => exact h.addText content
  | empty | comment | instruction | doctype => exact h.add _

/-- The same events keep to each other, as long as they do not close the element around them. -/
theorem Within.foldl (h : Within name as a b) (hm : Matched (a.frames.map Frame.name) es) :
    Within name as (es.foldl Assembly.step a) (es.foldl Assembly.step b) := by
  induction es generalizing a b with
  | nil => exact h
  | cons e es ih =>
    obtain ⟨he, hes⟩ := hm
    rw [← a.names_step] at hes
    exact ih (h.step he) hes

end Assembly

/-- Events of one document, the second of which may have a mark in front of them. -/
def Marked (es fs : List Event) : Prop :=
  fs = es ∨ fs = .text "\uFEFF" :: es ∨
    ∃ content gs, es = .text content :: gs ∧ fs = .text ("\uFEFF" ++ content) :: gs

section Wrap

variable {name : String} {as : List Attribute} {es fs : List Event} {source : Bytes}

theorem Marked.leftOpen (h : Marked es fs) : leftOpen fs = leftOpen es := by
  rcases h with rfl | rfl | ⟨content, gs, rfl, rfl⟩
  · rfl
  · rfl
  · rfl

theorem Marked.within (h : Marked es fs) (hm : Matched [] es) :
    Assembly.Within name as (es.foldl Assembly.step ⟨[], []⟩)
      (fs.foldl Assembly.step ⟨[⟨name, as, []⟩], []⟩) := by
  rcases h with rfl | rfl | ⟨content, gs, rfl, rfl⟩
  · exact Assembly.Within.foldl ⟨[], rfl, rfl⟩ hm
  · exact Assembly.Within.foldl (a := ⟨[], []⟩) ⟨[.text "\uFEFF"], rfl, rfl⟩ hm
  · -- The text is the first node of the document, so that nothing but text is put together yet.
    have htop : (Assembly.step ⟨[], []⟩ (.text content)).frames = [] ∧
        withoutText (Assembly.step ⟨[], []⟩ (.text content)).top = [] := by
      rw [Assembly.step, Assembly.addText]
      split <;> exact ⟨rfl, rfl⟩
    rw [List.foldl_cons, List.foldl_cons]
    apply Assembly.Within.foldl
    · exact ⟨[.text ("\uFEFF" ++ content)], by rw [htop.1]; rfl, htop.2.symm⟩
    · rw [htop.1]
      exact hm.2

/-- Where the mark at the start of a document is not taken away, it is part of the text. -/
theorem exists_scanFrom_of_scan_eq (h : scan source = .ok es) :
    ∃ fs, scanFrom 0 [] source = .ok fs ∧ Marked es fs := by
  rw [scan] at h
  split at h
  · next hp =>
    obtain ⟨rest, rfl⟩ := List.isPrefixOf_iff_prefix.mp hp
    obtain ⟨fs, hfs, hmark⟩ := exists_scanFrom_mark h 0
    exact ⟨fs, hfs, .inr hmark⟩
  · exact ⟨es, h, .inl rfl⟩

theorem exists_of_readDocument_eq {nodes : List Node}
    (h : readDocument source = .ok (.document nodes)) :
    ∃ es, scan source = .ok es ∧ assemble es = .ok nodes := by
  have hp := eq_ok_of_mapError h
  rw [parse] at hp
  split at hp
  · cases hp
  · next es hes =>
    split at hp
    · cases hp
    · next hn =>
      cases hp
      exact ⟨es, hes, hn⟩

theorem frames_of_assemble_eq {nodes : List Node} (h : assemble es = .ok nodes) :
    (es.foldl Assembly.step ⟨[], []⟩).frames = [] ∧
      nodes = (es.foldl Assembly.step ⟨[], []⟩).top.reverse := by
  simp only [assemble] at h
  split at h
  · next hf => exact ⟨hf, (Except.ok.inj h).symm⟩
  · cases h

theorem scan_enclose (ht : ProperTag name as) (h : scanFrom 0 [] source = .ok fs)
    (hopen : leftOpen fs = []) :
    scan (enclose name as source) = .ok (.start name as :: (fs ++ [.finish name])) := by
  have hstart : (Event.start name as).Readable := ht
  have hfinish : (Event.finish name).Readable := ht.name
  have hmarkup := head?_encode_markup hfinish.enclosed rfl []
  have hend : Scans [name] (encode (Event.finish name).markup ++ []) [.finish name] := by
    refine .cons hfinish.enclosed hfinish.legible rfl ?_ (.nil [])
    rintro _ ⟨⟩
    rfl
  rw [List.append_nil] at hmarkup hend
  have hbody : Scans [name] (source ++ encode (Event.finish name).markup)
      (fs ++ [.finish name]) := by
    intro place
    obtain ⟨next, hn⟩ := scanFrom_append h hmarkup [name] place
    rw [← leftOpen, hopen] at hn
    rw [← List.nil_append [name], hn, List.nil_append, hend]
    rfl
  rw [enclose, scan_eq_scanFrom fun b hb => .inl (head?_encode_markup hstart.enclosed rfl _ b hb)]
  exact Scans.cons hstart.enclosed hstart.legible rfl nofun hbody 0

/-- A document that is read can be put into an element, and what is read from there is the element
with the same nodes in it, apart from text outside of all other elements. -/
theorem exists_readDocument_enclose (ht : ProperTag name as) {nodes : List Node}
    (h : readDocument source = .ok (.document nodes)) :
    ∃ cs, readDocument (enclose name as source) = .ok (.document [.element name as cs]) ∧
      withoutText cs = withoutText nodes := by
  obtain ⟨es, hes, hnodes⟩ := exists_of_readDocument_eq h
  obtain ⟨fs, hfs, hmark⟩ := exists_scanFrom_of_scan_eq hes
  have hopen : leftOpen es = [] := assemble_eq_ok_iff.mp ⟨nodes, hnodes⟩
  have hscan := scan_enclose ht hfs (hmark.leftOpen.trans hopen)
  obtain ⟨cs, hcs, htext⟩ : Assembly.Within name as _ _ :=
    hmark.within (matched_of_scanFrom_eq hes)
  obtain ⟨hframes, rfl⟩ := frames_of_assemble_eq hnodes
  have hfold : (.start name as :: (fs ++ [.finish name])).foldl Assembly.step ⟨[], []⟩ =
      ⟨[], [.element name as cs.reverse]⟩ := by
    rw [List.foldl_cons, List.foldl_append]
    change Assembly.step (fs.foldl Assembly.step ⟨[⟨name, as, []⟩], []⟩) (.finish name) = _
    rw [hcs, hframes]
    rfl
  have hassemble : assemble (.start name as :: (fs ++ [.finish name])) =
      .ok [.element name as cs.reverse] := by
    simp only [assemble, hfold, List.reverse_singleton]
  refine ⟨cs.reverse, ?_, ?_⟩
  · simp only [readDocument, parse, hscan, hassemble, Except.mapError]
  · rw [withoutText, withoutText, List.filter_reverse, List.filter_reverse]
    exact congrArg List.reverse htext

end Wrap

end ChunkConfig.Xml
