import ChunkConfig.Proofs.Xml.Cut

namespace ChunkConfig.Xml

open Text (encode encode_append)

/-- An event whose characters read back as this event. -/
def Event.Readable : Event → Prop
  | declaration => True
  | start name as | empty name as => ProperTag name as
  | finish name => isName name = true
  | text content => content ≠ ""
  | comment content => ¬ ['-', '-', '>'] <:+: content.toList
  | instruction target data =>
    isName target = true ∧ target ≠ "xml" ∧ ¬ ['?', '>'] <:+: data.toList
  | cdata _ | doctype _ => False

/-- An event whose end is found in what is read. -/
def Event.Enclosed : Event → Prop
  | declaration => True
  | start name as | empty name as => EnclosedTag name as
  | finish name => Xml.Enclosed name
  | text content => content ≠ ""
  | comment content => ¬ ['-', '-', '>'] <:+: content.toList
  | instruction target data =>
    isName target = true ∧ target ≠ "xml" ∧ ¬ ['?', '>'] <:+: data.toList
  | cdata _ | doctype _ => False

/-- What an enclosed event needs beyond that to be read back. A slash at the end of a tag without
attributes is no part of a name. -/
def Event.Legible : Event → Prop
  | start name as => Xml.Legible name ∧ (as = [] → name.toList.getLast? ≠ some '/')
  | empty name _ => Xml.Legible name
  | _ => True

theorem Event.Readable.enclosed {e : Event} (h : e.Readable) : e.Enclosed := by
  cases e with
  | start | empty => exact ProperTag.enclosed h
  | finish => exact enclosed_of_isName h
  | _ => exact h

theorem Event.Readable.legible {e : Event} (h : e.Readable) : e.Legible := by
  cases e with
  | start name as =>
    refine ⟨legible_of_isName h.name, fun _ hl => ?_⟩
    exact not_mem_of_isName h.name (d := '/') (by decide) (List.mem_of_getLast? hl)
  | empty => exact legible_of_isName h.name
  | _ => trivial

/-- The event as which the characters of an event are read. The blank before the data of an
instruction is part of what is read. -/
def Event.reread : Event → Event
  | instruction target data => instruction target (" " ++ data)
  | e => e

theorem Event.nest_reread (e : Event) (opened : List String) :
    e.reread.nest opened = e.nest opened := by
  cases e <;> rfl

/-- What stands between the angle brackets of an event. -/
def Event.raw : Event → Bytes
  | declaration => ascii '?' :: (encode "xml version=\"1.0\" encoding=\"UTF-8\"" ++ [ascii '?'])
  | start name as => encode (tagMarkup name as)
  | empty name as => encode (tagMarkup name as) ++ [ascii '/']
  | finish name => ascii '/' :: encode name
  | comment content => commentStart ++ (encode content ++ [ascii '-', ascii '-'])
  | instruction target data => ascii '?' :: (encode (target ++ " " ++ data) ++ [ascii '?'])
  | text _ | cdata _ | doctype _ => []

theorem Event.encode_markup {e : Event} (h : e.Enclosed) (ht : e.isText = false) :
    encode e.markup = ascii '<' :: (e.raw ++ [ascii '>']) := by
  cases e with
  | declaration => rfl
  | start name as =>
    have hl : encode "<" = [ascii '<'] := rfl
    have hg : encode ">" = [ascii '>'] := rfl
    simp only [Event.markup, encode_append, hl, hg, raw, List.cons_append, List.nil_append]
  | empty name as =>
    have hl : encode "<" = [ascii '<'] := rfl
    have hg : encode "/>" = [ascii '/', ascii '>'] := rfl
    simp only [Event.markup, encode_append, hl, hg, raw, List.cons_append, List.nil_append,
      List.append_assoc]
  | finish name =>
    have hl : encode "</" = [ascii '<', ascii '/'] := rfl
    have hg : encode ">" = [ascii '>'] := rfl
    simp only [Event.markup, encode_append, hl, hg, raw, List.cons_append, List.nil_append]
  | comment content =>
    have hl : encode "<!--" = ascii '<' :: commentStart := rfl
    have hg : encode "-->" = [ascii '-', ascii '-', ascii '>'] := rfl
    simp only [Event.markup, encode_append, hl, hg, raw, List.cons_append, List.nil_append,
      List.append_assoc]
  | instruction target data =>
    have hl : encode "<?" = [ascii '<', ascii '?'] := rfl
    have hg : encode "?>" = [ascii '?', ascii '>'] := rfl
    simp only [Event.markup, encode_append, hl, hg, raw, List.cons_append, List.nil_append,
      List.append_assoc]
  | text => cases ht
  | cdata | doctype => exact absurd h id

theorem cutMarkup_tag {b : UInt8} {bs : Bytes} (hb : b ≠ ascii '!') (hq : b ≠ ascii '?')
    (h : (b :: bs).foldlM stepTag none = some none) (rest : Bytes) :
    cutMarkup (b :: bs ++ ascii '>' :: rest) = (.ok (b :: bs), rest) := by
  have hc : cut stepTag none (b :: bs ++ ascii '>' :: rest) = (some (b :: bs), rest) :=
    cut_append h rfl
  have hh (d : Char) (hd : b ≠ ascii d) :
      ¬ (b :: bs ++ ascii '>' :: rest).head? = some (ascii d) :=
    fun he => hd (Option.some.inj he)
  rw [cutMarkup, if_neg (hh _ hb), if_neg (hh _ hq), hc]

theorem cutMarkup_comment {bs raw rest : Bytes}
    (h : cut stepComment (0, 0) (commentStart ++ bs) = (some raw, rest)) :
    cutMarkup (commentStart ++ bs) = (.ok raw, rest) := by
  have hd : ascii '-' ≠ ascii '[' := by decide
  have hs : (commentStart ++ bs).head? = some (ascii '!') := rfl
  have hi : (commentStart ++ bs)[1]? = some (ascii '-') := rfl
  simp only [cutMarkup, hs, hi, h, if_true, if_neg hd]

theorem cutMarkup_instruction {bs raw rest : Bytes}
    (h : cut stepInstruction false (ascii '?' :: bs) = (some raw, rest)) :
    cutMarkup (ascii '?' :: bs) = (.ok raw, rest) := by
  have hq : some (ascii '?') ≠ some (ascii '!') := by decide
  simp only [cutMarkup, List.head?_cons, if_neg hq, if_true, h]

theorem EnclosedTag.exists_eq_cons {name : String} {as : List Attribute}
    (h : EnclosedTag name as) :
    ∃ b bs, encode (tagMarkup name as) = b :: bs ∧ b ≠ ascii '!' ∧ b ≠ ascii '?' ∧
      (b = ascii '/' ↔ name.toList.head? = some '/') := by
  obtain ⟨b, rest, hb, hx, hq⟩ := h.name.exists_eq_cons
  refine ⟨b, _, by rw [encode_tagMarkup, hb, List.cons_append], hx, hq, ?_⟩
  rw [← Text.head?_encode_iff (by decide), hb, List.head?_cons, Option.some_inj]
  exact Iff.rfl

theorem instruction_raw {target : String} (data : String) (h : isName target = true) :
    (∀ b ∈ encode target, (!isSpace b) = true) ∧
      ∀ b ∈ (encode (" " ++ data)).head?, (!isSpace b) = false := by
  refine ⟨fun b hb => ?_, ?_⟩
  · rw [isSpace_of_mem_encode_name h hb]
    rfl
  · rw [encode_append]
    rintro b ⟨⟩
    decide

theorem not_infix_instruction {target data : String} (h : isName target = true)
    (hd : ¬ ['?', '>'] <:+: data.toList) :
    ¬ [ascii '?', ascii '>'] <:+: encode (target ++ " " ++ data) := by
  intro hi
  have hc : ['?', '>'] <:+: (target ++ " " ++ data).toList :=
    Text.infix_of_map_toUInt8 (forall_mem_of_all (by decide)) hi
  have hb : " ".toList = [' '] := rfl
  rw [String.toList_append, String.toList_append, hb] at hc
  refine hd (infix_of_infix_append ?_ hc)
  rw [List.mem_append, not_or]
  exact ⟨not_mem_of_isName h (by decide), by decide⟩

/-- The end of what an event writes is found, whatever follows. -/
theorem Event.cutMarkup_raw {e : Event} (h : e.Enclosed) (ht : e.isText = false) (rest : Bytes) :
    cutMarkup (e.raw ++ ascii '>' :: rest) = (.ok e.raw, rest) := by
  cases e with
  | declaration => rfl
  | start name as =>
    obtain ⟨b, bs, he, hx, hq, -⟩ := EnclosedTag.exists_eq_cons h
    rw [raw, he]
    exact cutMarkup_tag hx hq (he ▸ h.foldlM_stepTag) rest
  | empty name as =>
    obtain ⟨b, bs, he, hx, hq, -⟩ := EnclosedTag.exists_eq_cons h
    have hs : (b :: bs ++ [ascii '/']).foldlM stepTag none = some none := by
      rw [foldlM_concat, ← he, h.foldlM_stepTag]
      rfl
    rw [raw, he]
    exact cutMarkup_tag hx hq hs rest
  | finish name =>
    have hs : stepTag none (ascii '/') = some none := by decide
    rw [raw]
    refine cutMarkup_tag (by decide) (by decide) ?_ rest
    rw [List.foldlM_cons, hs]
    exact foldlM_stepTag_name h.toUncut
  | comment content =>
    have hi : ¬ commentEnd <:+: encode content :=
      fun hi => h (Text.infix_of_map_toUInt8 (forall_mem_of_all (by decide)) hi)
    have hc := cut_comment hi rest
    rw [List.append_assoc] at hc
    rw [raw, List.append_assoc]
    exact cutMarkup_comment hc
  | instruction target data =>
    have hi := not_infix_instruction h.1 h.2.2
    have hh : (encode (target ++ " " ++ data)).head? ≠ some (ascii '>') := by
      obtain ⟨b, bs, hb⟩ := encode_name_eq_cons h.1
      rw [encode_append, encode_append, hb, List.cons_append, List.cons_append, List.head?_cons,
        Ne, Option.some_inj]
      exact ne_of_mem_encode_name h.1 (by decide) b (hb ▸ .head _)
    have hc := cut_instruction hi hh rest
    rw [List.cons_append] at hc
    rw [raw, List.cons_append]
    exact cutMarkup_instruction hc
  | text => cases ht
  | cdata | doctype => exact absurd h id

theorem decodeContent_encode (s : String) : decodeContent (encode s) = .ok s := by
  rw [decodeContent, decodeRaw_encode]
  rfl

theorem endTag_encode (position : Nat) {name : String} (h : Enclosed name)
    (opened : List String) :
    endTag position (name :: opened) (encode name) = .ok (.finish name) := by
  have hr : ((encode name).reverse.dropWhile isSpace).reverse = encode name := by
    have hs : ∀ b ∈ (encode name).reverse.head?, isSpace b = false := fun b hb =>
      h.isSpace_last b (List.head?_reverse.symm.trans hb)
    have hd : ([] ++ (encode name).reverse).dropWhile isSpace = (encode name).reverse :=
      dropWhile_span (fun _ hb => by cases hb) hs
    rw [List.nil_append] at hd
    rw [hd, List.reverse_reverse]
  simp only [endTag, hr, ite_self, decodeRaw_encode, Except.toOption, if_true]

theorem markup_end (position : Nat) (opened : List String) (raw : Bytes) :
    markup position opened (ascii '/' :: raw) = endTag position opened raw := by
  rw [markup, List.head?_cons, if_neg (by decide), if_neg (by decide), if_pos rfl, List.tail_cons]

theorem markup_tag {b : UInt8} {bs : Bytes} (hb : b ≠ ascii '!') (hq : b ≠ ascii '?')
    (hs : b ≠ ascii '/') (position : Nat) (opened : List String) :
    markup position opened (b :: bs) = tag (b :: bs) := by
  have hh {d : Char} (hd : b ≠ ascii d) : ¬ (b :: bs).head? = some (ascii d) :=
    fun he => hd (Option.some.inj he)
  rw [markup, if_neg (hh hb), if_neg (hh hq), if_neg (hh hs)]

theorem markup_comment (position : Nat) (opened : List String) (content : String) :
    markup position opened (Event.raw (.comment content)) = .ok (.comment content) := by
  have hl : (encode content ++ [ascii '-', ascii '-']).take
      ((encode content ++ [ascii '-', ascii '-']).length - 2) = encode content := by
    rw [List.length_append]
    exact List.take_left
  have hm : markup position opened (Event.raw (.comment content)) =
      .comment <$> decodeContent ((encode content ++ [ascii '-', ascii '-']).take
        ((encode content ++ [ascii '-', ascii '-']).length - 2)) := rfl
  rw [hm, hl, decodeContent_encode]
  rfl

theorem markup_instruction (position : Nat) (opened : List String) {target : String}
    (data : String) (ht : isName target = true) (hx : target ≠ "xml") :
    markup position opened (Event.raw (.instruction target data)) =
      .ok (.instruction target (" " ++ data)) := by
  obtain ⟨hspan, hend⟩ := instruction_raw data ht
  have hn : encode target ≠ "xml".toList.map ascii := by
    have he : "xml".toList.map ascii = encode "xml" := by decide
    rwa [he, Ne, Text.encode_inj]
  have hs : encode (target ++ " " ++ data) = encode target ++ encode (" " ++ data) := by
    rw [String.append_assoc, encode_append]
  have hm : markup position opened (Event.raw (.instruction target data)) =
      Xml.instruction position (encode (target ++ " " ++ data) ++ [ascii '?']) := rfl
  rw [hm, Xml.instruction, if_neg (by simp), List.dropLast_concat, hs]
  simp only [takeWhile_span hspan hend, dropWhile_span hspan hend, if_neg hn,
    decodeContent_encode]
  rfl

theorem markup_raw {e : Event} (h : e.Enclosed) (hl : e.Legible) (ht : e.isText = false)
    {opened : List String} (ho : ∀ name, e = .finish name → opened.head? = some name)
    (position : Nat) : markup position opened e.raw = .ok e.reread := by
  cases e with
  | declaration => rfl
  | start name as =>
    obtain ⟨b, bs, he, hx, hq, hs⟩ := EnclosedTag.exists_eq_cons h
    rw [Event.raw, he, markup_tag hx hq (mt hs.mp hl.1.first), ← he]
    exact tag_start h hl.1 hl.2
  | empty name as =>
    obtain ⟨b, bs, he, hx, hq, hs⟩ := EnclosedTag.exists_eq_cons h
    rw [Event.raw, he, List.cons_append, markup_tag hx hq (mt hs.mp hl.first),
      ← List.cons_append, ← he]
    exact tag_empty h hl
  | finish name =>
    obtain ⟨opened, rfl⟩ := List.head?_eq_some_iff.mp (ho name rfl)
    exact (markup_end position _ _).trans (endTag_encode position h opened)
  | comment content => exact markup_comment position opened content
  | instruction target data => exact markup_instruction position opened data h.1 h.2.1
  | text => cases ht
  | cdata | doctype => exact absurd h id

/-- Bytes that read as events, wherever they stand in a document in which the elements `opened` are
open. -/
def Scans (opened : List String) (input : Bytes) (events : List Event) : Prop :=
  ∀ position, scanFrom position opened input = .ok events

theorem Scans.nil (opened : List String) : Scans opened [] [] :=
  fun _ => by rw [scanFrom]

section Step

variable {e : Event} {opened : List String} {rest : Bytes} {es : List Event}

/-- What an enclosed event writes is read as one piece of markup. -/
theorem scanFrom_markup (he : e.Enclosed) (ht : e.isText = false) (position : Nat)
    (opened : List String) (rest : Bytes) :
    scanFrom position opened (encode e.markup ++ rest) = do
      let f ← markup position opened e.raw
      return f :: (← scanFrom (position + e.raw.length + 2) (f.nest opened) rest) := by
  rw [Event.encode_markup he ht, List.cons_append, List.append_assoc, List.singleton_append,
    scanFrom, if_pos rfl]
  simp only [Event.cutMarkup_raw he ht, Except.mapError]
  rfl

theorem Scans.cons (he : e.Enclosed) (hl : e.Legible) (ht : e.isText = false)
    (ho : ∀ name, e = .finish name → opened.head? = some name)
    (h : Scans (e.nest opened) rest es) :
    Scans opened (encode e.markup ++ rest) (e.reread :: es) := by
  intro position
  rw [scanFrom_markup he ht, markup_raw he hl ht ho]
  change scanFrom _ (e.reread.nest opened) rest >>= _ = _
  rw [e.nest_reread, h]
  rfl

theorem scanFrom_text {content : String} (hc : content ≠ "")
    (hr : ∀ b ∈ rest.head?, b = ascii '<') (position : Nat) (opened : List String) :
    ∃ next, scanFrom position opened (encode (Text.escapeText content) ++ rest) =
      (.text content :: ·) <$> scanFrom next opened rest := by
  have hd : decodeText (encode (Text.escapeText content)) = .ok content :=
    decodeText_encode (Text.expand_escapeText content)
  obtain ⟨b, bs, hb⟩ : ∃ b bs, encode (Text.escapeText content) = b :: bs := by
    cases hs : encode (Text.escapeText content) with
    | cons b bs => exact ⟨b, bs, rfl⟩
    | nil =>
      rw [hs] at hd
      exact absurd (Except.ok.inj hd).symm hc
  have hl : ∀ c ∈ b :: bs, c ≠ ascii '<' := hb ▸
    Text.ne_of_mem_encode (by decide) (Text.lt_not_mem_escapeText content)
  have hs : ∀ c ∈ bs, decide (c ≠ ascii '<') = true :=
    fun c hc => decide_eq_true (hl c (.tail _ hc))
  have he : ∀ c ∈ rest.head?, decide (c ≠ ascii '<') = false :=
    fun c hc => decide_eq_false fun hn => hn (hr c hc)
  refine ⟨position + (b :: bs).length, ?_⟩
  rw [hb, List.cons_append, scanFrom, if_neg (hl b (.head _)), takeWhile_span hs he,
    dropWhile_span hs he]
  simp only [← hb, hd, Except.mapError]
  rw [map_eq_pure_bind]
  rfl

theorem Scans.text {content : String} (hc : content ≠ "") (hr : ∀ b ∈ rest.head?, b = ascii '<')
    (h : Scans opened rest es) :
    Scans opened (encode (Text.escapeText content) ++ rest) (.text content :: es) := by
  intro position
  obtain ⟨next, hn⟩ := scanFrom_text hc hr position opened
  rw [hn, h]
  rfl

end Step

end ChunkConfig.Xml
