import ChunkConfig.Proofs.Xml.Assembly

namespace ChunkConfig.Xml

mutual

/-- A node without the blank text below it. -/
def Node.tidied : Node → Node
  | .element name as cs => .element name as (tidiedAll cs)
  | c => c

def tidiedAll : List Node → List Node
  | [] => []
  | c :: cs => if c.isBlankText then tidiedAll cs else c.tidied :: tidiedAll cs

end

namespace Node

theorem isBlankText_laid (indent depth : Nat) (c : Node) :
    (c.laid indent depth).isBlankText = c.isBlankText := by
  cases c <;> rfl

end Node

theorem tidiedAll_breakNodes_append (indent depth : Nat) (fresh : Bool) (cs : List Node) :
    tidiedAll (breakNodes indent depth fresh ++ cs) = tidiedAll cs := by
  rw [breakNodes]
  split
  · rfl
  · rw [List.singleton_append, tidiedAll, Node.isBlankText, if_pos (allBlank_newLine indent depth)]

theorem tidiedAll_of_blank {cs : List Node} (h : cs.all Node.isBlankText = true) :
    tidiedAll cs = [] := by
  induction cs with
  | nil => rfl
  | cons c cs ih =>
    rw [List.all_cons, Bool.and_eq_true] at h
    rw [tidiedAll, if_pos h.1, ih h.2]

mutual

/-- Layout adds nothing but blank text. -/
theorem Node.tidied_laid (indent : Nat) :
    (c : Node) → ∀ depth, (c.laid indent depth).tidied = c.tidied
  | .element name as cs, depth => by
    rw [Node.laid, Node.tidied, Node.tidied]
    split
    · next h => rw [tidiedAll_of_blank h, tidiedAll]
    · rw [tidiedAll_laidAll indent cs]
  | .document _, _ | .fragment _, _ | .attr _, _ | .text _, _ | .comment _, _
  | .instruction .., _ | .notationName _, _ | .other _, _ => rfl

theorem tidiedAll_laidAll (indent : Nat) :
    (cs : List Node) → ∀ depth fresh, tidiedAll (laidAll indent depth fresh cs) = tidiedAll cs
  | [], depth, fresh => by
    rw [laidAll, ← List.append_nil (breakNodes indent (depth - 1) fresh),
      tidiedAll_breakNodes_append]
  | c :: cs, depth, fresh => by
    rw [laidAll, tidiedAll]
    split
    · exact tidiedAll_laidAll indent cs depth fresh
    · next hb =>
      have hl : ¬ (c.laid indent depth).isBlankText = true := by rwa [c.isBlankText_laid]
      have hc : tidiedAll (c.laid indent depth :: laidAll indent depth (!c.isText) cs) =
          c.tidied :: tidiedAll cs := by
        rw [tidiedAll, if_neg hl, Node.tidied_laid indent c, tidiedAll_laidAll indent cs]
      split
      · exact hc
      · rw [tidiedAll_breakNodes_append, hc]

end

theorem tidiedAll_map_laid (indent depth : Nat) (cs : List Node) :
    tidiedAll (cs.map fun c => c.laid indent depth) = tidiedAll cs := by
  induction cs with
  | nil => rfl
  | cons c cs ih =>
    rw [List.map_cons, tidiedAll, tidiedAll, Node.isBlankText_laid, Node.tidied_laid, ih]

end ChunkConfig.Xml
