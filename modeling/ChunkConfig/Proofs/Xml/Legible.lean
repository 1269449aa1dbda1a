import ChunkConfig.Proofs.Xml.Broken
import ChunkConfig.Proofs.Xml.Stable

namespace ChunkConfig.Xml

open Text (encode encode_append)

section Layout

variable {closed opened real : List String} {e : Event} {es gs : List Event} {rest : Bytes}
  {position indent depth : Nat} {fresh : Bool}

theorem exists_of_scanFrom_line (ht : e.isText = false) (hr : ∀ b ∈ rest.head?, b = ascii '<')
    (h : scanFrom position real (encode (lineBreak indent depth fresh e) ++ rest) = .ok gs) :
    ∃ next fs, scanFrom next real rest = .ok fs := by
  rw [lineBreak_markup _ _ _ ht] at h
  split at h
  · exact ⟨position, gs, h⟩
  · obtain ⟨next, hn⟩ := scanFrom_text (newLine_ne indent (e.lineDepth depth)) hr position real
    rw [escapeText_newLine, h] at hn
    obtain ⟨fs, hfs, -⟩ := exists_of_map_eq_ok hn.symm
    exact ⟨next, fs, hfs⟩

theorem exists_of_scanFrom_markup (he : e.Enclosed) (ht : e.isText = false)
    (h : scanFrom position real (encode (layOut indent depth fresh (e :: es)) ++ rest) = .ok gs) :
    ∃ place f next fs, markup place real e.raw = .ok f ∧
      scanFrom next (f.nest real) (encode (layOut indent (e.depthAfter depth) true es) ++ rest) =
        .ok fs := by
  rw [layOut, encode_append, encode_append, List.append_assoc, List.append_assoc, ht] at h
  obtain ⟨place, fs, h⟩ := exists_of_scanFrom_line ht (head?_encode_markup he ht _) h
  rw [scanFrom_markup he ht] at h
  obtain ⟨f, hf, h⟩ := exists_of_bind_eq_ok h
  obtain ⟨fs, hfs, -⟩ := exists_of_bind_eq_ok h
  exact ⟨place, f, _, fs, hf, hfs⟩

theorem exists_of_scanFrom_text {content : String} (hc : content ≠ "")
    (he : ∀ e ∈ es.head?, e.Enclosed) (ht : ∃ f fs, es = f :: fs ∧ f.isText = false)
    (h : scanFrom position real (encode (layOut indent depth fresh (.text content :: es)) ++ rest) =
      .ok gs) :
    ∃ next fs, scanFrom next real (encode (layOut indent depth false es) ++ rest) = .ok fs := by
  obtain ⟨f, fs, rfl, hf⟩ := ht
  have hnext := head?_encode_layOut_cons indent depth (he f rfl) hf fs rest
  obtain ⟨next, hn⟩ := scanFrom_text hc hnext position real
  have hb : encode "" = [] := rfl
  rw [layOut, lineBreak_text indent depth fresh rfl, encode_append, encode_append, hb,
    List.nil_append, List.append_assoc] at h
  obtain ⟨fs', hfs, -⟩ := exists_of_map_eq_ok (hn.symm.trans h)
  exact ⟨next, fs', hfs⟩

/-- Where all elements are closed in the end, as many were open as there should have been. -/
theorem length_le_of_scanFrom (h : Woven [] opened es)
    (hs : scanFrom position real (encode (layOut indent depth fresh es) ++ rest) = .ok gs) :
    opened.length ≤ real.length := by
  induction es generalizing opened real position depth fresh gs with
  | nil =>
    obtain rfl : opened = [] := h
    exact Nat.zero_le _
  | cons e es ih =>
    obtain ⟨he, -, htext, hes⟩ := h
    cases ht : e.isText with
    | false =>
      -- What is read for something else opens no more elements than were written.
      obtain ⟨place, f, next, fs, hf, hfs⟩ := exists_of_scanFrom_markup he ht hs
      exact length_le_of_markup_eq he ht hf (ih hes hfs)
    | true =>
      cases e with
      | text content =>
        obtain ⟨next, fs, hfs⟩ := exists_of_scanFrom_text he hes.head (htext rfl) hs
        exact ih hes hfs
      | _ => cases ht

/-- Events that are read one after the other, whatever they are read for, are legible when they
close all elements. -/
theorem legible_of_scanFrom (h : Woven [] opened es)
    (hs : scanFrom position opened (encode (layOut indent depth fresh es) ++ rest) = .ok gs) :
    ∀ e ∈ es, e.Legible := by
  induction es generalizing opened position depth fresh gs with
  | nil => exact fun _ he => absurd he List.not_mem_nil
  | cons e es ih =>
    obtain ⟨he, ho, htext, hes⟩ := h
    rw [List.forall_mem_cons]
    cases ht : e.isText with
    | false =>
      obtain ⟨place, f, next, fs, hf, hfs⟩ := exists_of_scanFrom_markup he ht hs
      -- The events behind this one close what is open, so no element can be missing here.
      have hl : e.Legible := legible_of_markup_eq he hf (length_le_of_scanFrom hes hfs)
      obtain rfl : e.reread = f := Except.ok.inj ((markup_raw he hl ht ho place).symm.trans hf)
      rw [e.nest_reread] at hfs
      exact ⟨hl, ih hes hfs⟩
    | true =>
      cases e with
      | text content =>
        obtain ⟨next, fs, hfs⟩ := exists_of_scanFrom_text he hes.head (htext rfl) hs
        exact ⟨trivial, ih hes hfs⟩
      | _ => cases ht

theorem Woven.foldl_nest (h : Woven closed opened es) :
    es.foldl (fun names e => e.nest names) opened = closed := by
  induction es generalizing opened with
  | nil => exact h
  | cons e es ih => exact ih h.2.2.2

theorem foldl_nest_laidEvents (indent depth : Nat) (fresh : Bool) (es : List Event)
    (opened : List String) :
    (laidEvents indent depth fresh es).foldl (fun names e => e.nest names) opened =
      es.foldl (fun names e => e.nest names) opened := by
  induction es generalizing opened depth fresh with
  | nil => rfl
  | cons e es ih =>
    have hb (d : Nat) : (breakEvents indent d fresh).foldl (fun names e => e.nest names) opened =
        opened := by
      rw [breakEvents]
      split <;> rfl
    rw [laidEvents, List.foldl_append, List.foldl_cons, ih, List.foldl_cons]
    split
    · rw [List.foldl_nil, e.nest_reread]
    · rw [hb, e.nest_reread]

end Layout

section Assembly

theorem Assembly.names_modify (a : Assembly) (f : List Node → List Node) :
    (a.modify f).frames.map Frame.name = a.frames.map Frame.name := by
  obtain ⟨frames, top⟩ := a
  cases frames <;> rfl

theorem Assembly.names_step (a : Assembly) (e : Event) :
    (a.step e).frames.map Frame.name = e.nest (a.frames.map Frame.name) := by
  cases e with
  | start | declaration => rfl
  | finish name =>
    obtain ⟨frames, top⟩ := a
    cases frames with
    | nil => rfl
    | cons frame frames => exact Assembly.names_modify ⟨frames, top⟩ _
  | text content | cdata content =>
    rw [Assembly.step, Assembly.addText]
    split
    · rfl
    · exact a.names_modify _
  | empty | comment | instruction | doctype => exact a.names_modify _

theorem Assembly.names_foldl (a : Assembly) (es : List Event) :
    (es.foldl Assembly.step a).frames.map Frame.name =
      es.foldl (fun names e => e.nest names) (a.frames.map Frame.name) := by
  induction es generalizing a with
  | nil => rfl
  | cons e es ih => rw [List.foldl_cons, ih, a.names_step, List.foldl_cons]

theorem exists_assemble_eq {es : List Event}
    (h : es.foldl (fun names e => e.nest names) [] = []) : ∃ nodes, assemble es = .ok nodes := by
  have hf := (Assembly.names_foldl ⟨[], []⟩ es).trans h
  rw [List.map_eq_nil_iff] at hf
  refine ⟨(es.foldl Assembly.step ⟨[], []⟩).top.reverse, ?_⟩
  simp only [assemble, hf]

end Assembly

section Document

/-- Elements that can be cut out of the text in which they are written. They hold further such
elements, and a text at most at their end. -/
inductive Node.Enclosed : Node → Prop
  | elements {name : String} {as : List Attribute} {cs : List Node} (tag : EnclosedTag name as)
    (children : ∀ c ∈ cs, Node.Enclosed c) : Node.Enclosed (.element name as cs)
  | text {name : String} {as : List Attribute} {cs : List Node} (tag : EnclosedTag name as)
    (children : ∀ c ∈ cs, Node.Enclosed c) (content : String) :
    Node.Enclosed (.element name as (cs ++ [.text content]))

variable {closed opened : List String} {rest : List Event}

theorem allEvents_append (cs ds : List Node) :
    allEvents (cs ++ ds) = allEvents cs ++ allEvents ds := by
  induction cs with
  | nil => rfl
  | cons c cs ih => rw [List.cons_append, allEvents, allEvents, ih, List.append_assoc]

theorem mem_allEvents {e : Event} {cs : List Node} : e ∈ allEvents cs ↔ ∃ c ∈ cs, e ∈ c.events := by
  induction cs with
  | nil => simp only [allEvents, List.not_mem_nil, false_and, exists_false]
  | cons c cs ih => simp only [allEvents, List.mem_append, ih, List.mem_cons, exists_eq_or_imp]

theorem Woven.element {name : String} {as : List Attribute} {cs : List Node}
    (tag : EnclosedTag name as) (hr : Woven closed opened rest)
    (hcs : Woven closed (name :: opened) (.finish name :: rest) →
      Woven closed (name :: opened) (allEvents cs ++ .finish name :: rest)) :
    Woven closed opened ((Node.element name as cs).events ++ rest) := by
  rw [Node.events]
  split
  · exact ⟨tag, nofun, nofun, hr⟩
  · rw [List.cons_append, List.cons_append, List.append_assoc]
    refine ⟨tag, nofun, nofun, hcs ⟨tag.name, ?_, nofun, hr⟩⟩
    rintro _ ⟨⟩
    rfl

theorem Woven.allEvents {cs : List Node}
    (hcs : ∀ c ∈ cs, ∀ {opened : List String} {rest : List Event}, Woven closed opened rest →
      Woven closed opened (c.events ++ rest))
    (hr : Woven closed opened rest) : Woven closed opened (allEvents cs ++ rest) := by
  induction cs with
  | nil => exact hr
  | cons c cs ih =>
    rw [Xml.allEvents, List.append_assoc]
    exact hcs c (.head _) (ih fun d hd => hcs d (.tail _ hd))

theorem Node.Enclosed.woven {c : Node} (h : c.Enclosed) :
    ∀ {opened : List String} {rest : List Event}, Woven closed opened rest →
      Woven closed opened (c.events ++ rest) := by
  induction h with
  | elements tag _ ih => exact fun hr => .element tag hr (.allEvents ih)
  | text tag _ content ih =>
    refine fun hr => .element tag hr fun hf => ?_
    rw [allEvents_append, List.append_assoc]
    refine .allEvents ih ?_
    rw [Xml.allEvents, Node.events]
    split
    · exact hf
    · next hb =>
      refine ⟨?_, nofun, fun _ => ⟨_, _, rfl, rfl⟩, hf⟩
      rintro rfl
      exact hb rfl

theorem legible_events_text (content : String) : ∀ e ∈ (Node.text content).events, e.Legible := by
  rw [Node.events]
  split
  · exact fun _ he => absurd he List.not_mem_nil
  · exact List.forall_mem_singleton.mpr trivial

theorem legible_events_element {name : String} {as : List Attribute} {cs : List Node} :
    (∀ e ∈ (Node.element name as cs).events, e.Legible) ↔
      Legible name ∧
        (as = [] → cs.all Node.isBlankText = false → name.toList.getLast? ≠ some '/') ∧
        ∀ c ∈ cs, ∀ e ∈ c.events, e.Legible := by
  rw [Node.events]
  split
  · next hb =>
    have hc : ∀ c ∈ cs, ∀ e ∈ c.events, e.Legible := by
      intro c hc e he
      rw [Node.events_of_isBlankText (List.all_eq_true.mp hb c hc)] at he
      cases he
    rw [List.forall_mem_singleton]
    exact ⟨fun h => ⟨h, fun _ hn => absurd (hb.symm.trans hn) nofun, hc⟩, fun h => h.1⟩
  · next hb =>
    have hm : (∀ e ∈ allEvents cs, e.Legible) ↔ ∀ c ∈ cs, ∀ e ∈ c.events, e.Legible := by
      simp only [mem_allEvents]
      exact ⟨fun h c hc e he => h e ⟨c, hc, he⟩, fun h e ⟨c, hc, he⟩ => h c hc e he⟩
    have hf : (Event.finish name).Legible := trivial
    simp only [List.cons_append, List.forall_mem_cons, List.forall_mem_append, List.not_mem_nil,
      false_implies, implies_true, and_true, hf, hm, Bool.eq_false_iff.mpr hb, true_implies]
    exact and_assoc

theorem Node.Enclosed.exists_events_eq_cons {c : Node} (h : c.Enclosed) :
    ∃ f fs, c.events = f :: fs ∧ f.isText = false := by
  cases h with
  | elements | text =>
    rw [Node.events]
    split
    · exact ⟨_, _, rfl, rfl⟩
    · exact ⟨_, _, rfl, rfl⟩

theorem Woven.headEvents (options : WriteOptions) {es : List Event} (h : Woven closed opened es) :
    Woven closed opened (headEvents options ++ es) := by
  rw [Xml.headEvents]
  split
  · exact ⟨trivial, fun _ => Event.noConfusion, fun ht => absurd ht Bool.false_ne_true, h⟩
  · exact h

theorem legible_headEvents (options : WriteOptions) : ∀ e ∈ headEvents options, e.Legible := by
  rw [headEvents]
  split
  · exact List.forall_mem_singleton.mpr trivial
  · exact fun _ he => absurd he List.not_mem_nil

/-- Elements that are cut out of the text of a document are read from it exactly when all their tags
are legible. -/
theorem exists_readDocument_iff (options : WriteOptions) {cs : List Node}
    (h : ∀ c ∈ cs, c.Enclosed) :
    (∃ node, readDocument (encode (write options (.document cs))) = .ok node) ↔
      ∀ c ∈ cs, ∀ e ∈ c.events, e.Legible := by
  have hall : Woven [] [] (allEvents cs ++ []) := .allEvents (fun c hc => (h c hc).woven) rfl
  rw [List.append_nil] at hall
  have hw : Woven [] [] (headEvents options ++ allEvents cs) := hall.headEvents options
  have hscan := scan_eq_scanFrom (head?_encode_layOut options.indent hw.head
    (head_isText options fun c hc => (h c hc).exists_events_eq_cons))
  have hevents : (∀ c ∈ cs, ∀ e ∈ c.events, e.Legible) ↔
      ∀ e ∈ headEvents options ++ allEvents cs, e.Legible := by
    simp only [List.forall_mem_append, mem_allEvents]
    exact ⟨fun hl => ⟨legible_headEvents options, fun e ⟨c, hc, he⟩ => hl c hc e he⟩,
      fun hl c hc e he => hl.2 e ⟨c, hc, he⟩⟩
  rw [hevents, readDocument, parse, encode_write, hscan]
  constructor
  · rintro ⟨node, hn⟩
    have hp := eq_ok_of_mapError hn
    split at hp
    · cases hp
    · next es hes => exact legible_of_scanFrom hw hes
  · intro hl
    obtain ⟨nodes, hn⟩ : ∃ nodes, assemble (laidEvents options.indent 0 false
        (headEvents options ++ allEvents cs) ++ [.text "\n"]) = .ok nodes := by
      apply exists_assemble_eq
      rw [List.foldl_append, foldl_nest_laidEvents, hw.foldl_nest]
      rfl
    have hs := scans_layOut options.indent 0 false hw hl (scans_lineEnd _) 0
    exact ⟨.document nodes, by simp only [hs, hn, Except.mapError]⟩

end Document

end ChunkConfig.Xml
