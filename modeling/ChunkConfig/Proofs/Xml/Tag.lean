import ChunkConfig.Proofs.Xml.Name
import ChunkConfig.Xml.Layout

namespace ChunkConfig.Xml

open Text (encode encode_append)

/-- A quoted attribute value, closed by its quote. -/
def quotedBytes (value : String) : Bytes :=
  ascii '"' :: (encode (Text.escapeAttribute value) ++ [ascii '"'])

theorem encode_attribute (a : Attribute) :
    encode a.markup = ascii ' ' :: (encode a.name ++ ascii '=' :: quotedBytes a.value) := by
  have hb : encode " " = [ascii ' '] := rfl
  have he : encode "=\"" = [ascii '=', ascii '"'] := rfl
  have hq : encode "\"" = [ascii '"'] := rfl
  simp only [Attribute.markup, encode_append, hb, he, hq, quotedBytes, List.cons_append,
    List.nil_append, List.append_assoc]

theorem encode_join (ss : List String) : encode (String.join ss) = ss.flatMap encode := by
  induction ss with
  | nil => rfl
  | cons s ss ih => rw [String.join_cons, encode_append, ih, List.flatMap_cons]

theorem ne_quote_of_mem_value {value : String} {b : UInt8}
    (hb : b ∈ encode (Text.escapeAttribute value)) : b ≠ ascii '"' :=
  Text.ne_of_mem_encode (by decide) (Text.quote_not_mem_escapeAttribute value) b hb

theorem cutValue_quotedBytes (size : Nat) (value : String) (rest : Bytes) :
    cutValue size (quotedBytes value ++ rest) =
      (.ok (encode (Text.escapeAttribute value)), rest) := by
  have hv : ∀ b ∈ encode (Text.escapeAttribute value), decide (b ≠ ascii '"') = true :=
    fun b hb => decide_eq_true (ne_quote_of_mem_value hb)
  have hr : ∀ b ∈ (ascii '"' :: rest).head?, decide (b ≠ ascii '"') = false := by
    rintro b ⟨⟩
    exact decide_eq_false fun h => h rfl
  simp only [quotedBytes, List.cons_append, List.append_assoc, List.nil_append, cutValue,
    true_or, if_true, dropWhile_span hv hr, takeWhile_span hv hr, List.isEmpty_cons,
    Bool.false_eq_true, if_false, List.tail_cons]

theorem decodeAttribute_encode (a : Attribute) :
    decodeAttribute (encode a.name) (encode (Text.escapeAttribute a.value)) = .ok a := by
  simp only [decodeAttribute, decodeRaw_encode,
    decodeText_encode (Text.expand_escapeAttribute a.value)]

theorem inKey_of_mem_encode_name {s : String} (h : isName s = true) {b : UInt8}
    (hb : b ∈ encode s) : inKey b = true := by
  have he : b ≠ ascii '=' := ne_of_mem_encode_name h (by decide) b hb
  simp only [inKey, isSpace_of_mem_encode_name h hb, decide_eq_true he, Bool.not_false,
    Bool.and_true]

theorem attributes_cons (size : Nat) (earlier : List (Bytes × Nat)) {a : Attribute} (rest : Bytes)
    (hn : isName a.name = true) (he : earlier.lookup (encode a.name) = none) :
    ∃ position, attributes size earlier (encode a.markup ++ rest) =
      (a :: ·) <$> attributes size ((encode a.name, position) :: earlier) rest := by
  obtain ⟨b, key, hk⟩ := encode_name_eq_cons hn
  have hb : isSpace b = false := isSpace_of_mem_encode_name hn (hk ▸ .head _)
  have hkey : ∀ c ∈ key, inKey c = true :=
    fun c hc => inKey_of_mem_encode_name hn (hk ▸ .tail _ hc)
  have hend : ∀ c ∈ (ascii '=' :: (quotedBytes a.value ++ rest)).head?, inKey c = false := by
    rintro c ⟨⟩
    decide
  have hspace : isSpace (ascii ' ') = true := by decide
  have hequals : (ascii '=' :: (quotedBytes a.value ++ rest)).dropWhile isSpace =
      ascii '=' :: (quotedBytes a.value ++ rest) := rfl
  have hquote : (quotedBytes a.value ++ rest).dropWhile isSpace =
      quotedBytes a.value ++ rest := rfl
  refine ⟨size - ((key ++ ascii '=' :: (quotedBytes a.value ++ rest)).length + 1), ?_⟩
  rw [encode_attribute, List.cons_append, attributes, if_pos hspace, hk, List.cons_append,
    List.cons_append, attributes, hb, if_neg Bool.false_ne_true, List.append_assoc,
    List.cons_append, takeWhile_span hkey hend, dropWhile_span hkey hend, hequals]
  simp only [checkEquals, List.head?_cons, if_true, checkNew, ← hk, he, List.tail_cons, hquote,
    cutValue_quotedBytes]
  change decodeAttribute _ _ >>= _ = _
  rw [decodeAttribute_encode, map_eq_pure_bind]
  rfl

theorem lookup_eq_none_of_ne {earlier : List (Bytes × Nat)} {key k : Bytes} {position : Nat}
    (h : earlier.lookup k = none) (hne : k ≠ key) :
    ((key, position) :: earlier).lookup k = none := by
  rw [List.lookup_cons, beq_eq_false_iff_ne.mpr hne]
  exact h

theorem attributes_encode (size : Nat) (earlier : List (Bytes × Nat)) {as : List Attribute}
    (hn : ∀ a ∈ as, isName a.name = true) (hd : (as.map Attribute.name).Nodup)
    (he : ∀ a ∈ as, earlier.lookup (encode a.name) = none) :
    attributes size earlier (as.flatMap fun a => encode a.markup) = .ok as := by
  induction as generalizing earlier with
  | nil => rw [List.flatMap_nil, attributes]
  | cons a as ih =>
    rw [List.map_cons, List.nodup_cons] at hd
    obtain ⟨position, h⟩ := attributes_cons size earlier
      (as.flatMap fun a => encode a.markup) (hn a (.head _)) (he a (.head _))
    rw [List.flatMap_cons, h, ih]
    · rfl
    · intro c hc
      exact hn c (.tail _ hc)
    · exact hd.2
    · intro c hc
      refine lookup_eq_none_of_ne (he c (.tail _ hc)) fun h => hd.1 ?_
      rw [← Text.encode_inj.mp h]
      exact List.mem_map_of_mem hc

/-- The name and the attributes of a tag that can be read back. -/
structure ProperTag (name : String) (as : List Attribute) : Prop where
  name : isName name = true
  names : ∀ a ∈ as, isName a.name = true
  distinct : (as.map Attribute.name).Nodup

theorem ProperTag.of_names {name : String} {as : List Attribute} (tag : String)
    (names : List String) (ht : name = tag) (hm : as.map Attribute.name = names)
    (h : isName tag = true ∧ names.all isName = true ∧ names.Nodup) : ProperTag name as where
  name := ht ▸ h.1
  names a ha := List.all_eq_true.mp h.2.1 a.name (hm ▸ List.mem_map_of_mem ha)
  distinct := hm ▸ h.2.2

/-- The name and the attributes of a tag that is cut off where it ends. -/
structure EnclosedTag (name : String) (as : List Attribute) : Prop where
  name : Enclosed name
  names : ∀ a ∈ as, isName a.name = true
  distinct : (as.map Attribute.name).Nodup

theorem ProperTag.enclosed {name : String} {as : List Attribute} (h : ProperTag name as) :
    EnclosedTag name as :=
  ⟨enclosed_of_isName h.name, h.names, h.distinct⟩

theorem Enclosed.tag {name : String} (h : Enclosed name) : EnclosedTag name [] :=
  ⟨h, nofun, List.Pairwise.nil⟩

theorem encode_tagMarkup (name : String) (as : List Attribute) :
    encode (tagMarkup name as) = encode name ++ as.flatMap fun a => encode a.markup := by
  rw [tagMarkup, encode_append, encode_join, List.flatMap_map]

theorem tagMarkup_nil (name : String) : tagMarkup name [] = name :=
  String.append_empty

theorem getLast?_tagMarkup {name : String} {as : List Attribute}
    (h : as = [] → name.toList.getLast? ≠ some '/') :
    (encode (tagMarkup name as)).getLast? ≠ some (ascii '/') := by
  intro hl
  rcases List.eq_nil_or_concat as with rfl | ⟨as, a, rfl⟩
  · rw [tagMarkup_nil] at hl
    exact h rfl ((Text.getLast?_encode_iff (by decide)).mp hl)
  · have hq : encode a.markup =
        encode (" " ++ a.name ++ "=\"" ++ Text.escapeAttribute a.value) ++ [ascii '"'] :=
      encode_append _ _
    rw [encode_tagMarkup, List.concat_eq_append, List.flatMap_append, List.flatMap_singleton, hq,
      ← List.append_assoc, ← List.append_assoc, List.getLast?_concat] at hl
    exact absurd hl (by decide)

theorem attributes_head (as : List Attribute) :
    ∀ b ∈ (as.flatMap fun a => encode a.markup).head?, (!isSpace b) = false := by
  cases as with
  | nil => exact fun _ h => by cases h
  | cons a as =>
    rw [List.flatMap_cons, encode_attribute, List.cons_append]
    rintro b ⟨⟩
    decide

theorem EnclosedTag.read {name : String} {as : List Attribute} (h : EnclosedTag name as)
    (hl : Legible name) :
    decodeRaw ((encode (tagMarkup name as)).takeWhile (!isSpace ·)) = .ok name ∧
      ∀ size, attributes size [] ((encode (tagMarkup name as)).dropWhile (!isSpace ·)) =
        .ok as := by
  have hn : ∀ b ∈ encode name, (!isSpace b) = true := by
    intro b hb
    rw [unbroken_iff.mp hl.unbroken b hb]
    rfl
  rw [encode_tagMarkup, takeWhile_span hn (attributes_head as),
    dropWhile_span hn (attributes_head as)]
  exact ⟨decodeRaw_encode name,
    fun size => attributes_encode size [] h.names h.distinct fun _ _ => rfl⟩

/-- Without attributes, a slash at the end of the name would close the element. -/
theorem tag_start {name : String} {as : List Attribute} (h : EnclosedTag name as)
    (hl : Legible name) (he : as = [] → name.toList.getLast? ≠ some '/') :
    tag (encode (tagMarkup name as)) = .ok (.start name as) := by
  obtain ⟨hname, has⟩ := h.read hl
  simp only [tag, getLast?_tagMarkup he, if_false, hname, has]

theorem tag_empty {name : String} {as : List Attribute} (h : EnclosedTag name as)
    (hl : Legible name) :
    tag (encode (tagMarkup name as) ++ [ascii '/']) = .ok (.empty name as) := by
  obtain ⟨hname, has⟩ := h.read hl
  simp only [tag, List.getLast?_concat, if_true, List.dropLast_concat, hname, has]

end ChunkConfig.Xml
