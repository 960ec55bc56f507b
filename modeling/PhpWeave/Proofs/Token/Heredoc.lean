import PhpWeave.Proofs.Token.Front

set_option autoImplicit false

/-!
The head of a heredoc, taken apart: blanks, an opening mark or none, the label, the same mark again
and a line break. A head is read exactly where a text begins with such pieces.
-/

namespace PhpWeave.Lexeme

/-- The pieces of a heredoc head. -/
structure HeadParts (head : Head) where
  indent : Text
  mark : Text
  ending : Text
  blank : ∀ c ∈ indent, isIndent c = true
  quoting : mark = [] ∨ mark = ['\''] ∨ mark = ['"']
  begins : startsWhere isNameStart head.label = true
  named : ∀ c ∈ head.label, isNameChar c = true
  breaks : ending = ['\n'] ∨ ending = ['\r', '\n']
  length_eq : head.length =
    (indent ++ (mark ++ (head.label ++ (mark ++ ending)))).length

def HeadParts.spelling {head : Head} (parts : HeadParts head) : Text :=
  parts.indent ++ (parts.mark ++ (head.label ++ (parts.mark ++ parts.ending)))

private theorem split_at_mark (text : Text) :
    let mark := (text.takeWhile fun c => c == '\'' || c == '"').take 1
    (mark = [] ∨ mark = ['\''] ∨ mark = ['"']) ∧ text = mark ++ text.drop mark.length := by
  cases text with
  | nil => exact ⟨.inl rfl, rfl⟩
  | cons c rest =>
      by_cases quote : (c == '\'' || c == '"') = true
      · have read : ((c :: rest).takeWhile fun c => c == '\'' || c == '"').take 1 = [c] := by
          simp [quote]
        rw [read]
        refine ⟨.inr ?_, rfl⟩
        simp only [Bool.or_eq_true, beq_iff_eq] at quote
        rcases quote with rfl | rfl
        · exact .inl rfl
        · exact .inr rfl
      · have read : ((c :: rest).takeWhile fun c => c == '\'' || c == '"').take 1 = [] := by
          simp [quote]
        rw [read]
        exact ⟨.inl rfl, rfl⟩

theorem split_at_lineBreak {text : Text} (breaks : lineBreak text ≠ 0) :
    ∃ ending rest, text = ending ++ rest ∧ (ending = ['\n'] ∨ ending = ['\r', '\n']) ∧
      lineBreak text = ending.length := by
  unfold lineBreak at breaks ⊢
  split at breaks
  · next rest => exact ⟨['\n'], rest, rfl, .inl rfl, rfl⟩
  · next rest => exact ⟨['\r', '\n'], rest, rfl, .inr rfl, rfl⟩
  · exact absurd rfl breaks

theorem nameStart_notIndent (c : Char) (begins : isNameStart c = true) :
    isIndent c = false := by
  apply eq_false_of_ne_true
  intro blank
  simp only [isIndent, Bool.or_eq_true, beq_iff_eq] at blank
  rcases blank with rfl | rfl <;> exact absurd begins (by decide)

private theorem nameStart_notQuote (c : Char) (begins : isNameStart c = true) :
    (c == '\'' || c == '"') = false := by
  apply eq_false_of_ne_true
  intro quote
  simp only [Bool.or_eq_true, beq_iff_eq] at quote
  rcases quote with rfl | rfl <;> exact absurd begins (by decide)

namespace HeadParts

variable {head : Head}

theorem label_ne_nil (parts : HeadParts head) : head.label ≠ [] := by
  intro empty
  have begins := parts.begins
  rw [empty] at begins
  cases begins

private theorem indent_stops (parts : HeadParts head) (rest : Text) :
    startsWhere isIndent (parts.mark ++ (head.label ++ rest)) = false := by
  rcases parts.quoting with none | single | double
  · rw [none, List.nil_append, startsWhere_append rest parts.label_ne_nil]
    exact startsWhere_mono nameStart_notIndent parts.begins
  · rw [single]
    rfl
  · rw [double]
    rfl

private theorem mark_isQuote (parts : HeadParts head) :
    ∀ c ∈ parts.mark, (c == '\'' || c == '"') = true := by
  intro c member
  rcases parts.quoting with none | single | double
  · rw [none] at member
    cases member
  · rw [single, List.mem_singleton] at member
    rw [member]
    rfl
  · rw [double, List.mem_singleton] at member
    rw [member]
    rfl

private theorem mark_read (parts : HeadParts head) (rest : Text) :
    ((parts.mark ++ (head.label ++ rest)).takeWhile fun c => c == '\'' || c == '"').take 1 =
      parts.mark := by
  have stops : startsWhere (fun c => c == '\'' || c == '"') (head.label ++ rest) = false := by
    rw [startsWhere_append rest parts.label_ne_nil]
    exact startsWhere_mono nameStart_notQuote parts.begins
  rw [takeWhile_append_stop parts.mark_isQuote stops]
  rcases parts.quoting with none | single | double
  · rw [none]
    rfl
  · rw [single]
    rfl
  · rw [double]
    rfl

theorem label_stops (parts : HeadParts head) (rest : Text) :
    startsWhere isNameChar (parts.mark ++ (parts.ending ++ rest)) = false := by
  rcases parts.quoting with none | single | double
  · rw [none]
    rcases parts.breaks with line | line <;> rw [line] <;> rfl
  · rw [single]
    rfl
  · rw [double]
    rfl

theorem lineBreak_read (parts : HeadParts head) (rest : Text) :
    lineBreak (parts.ending ++ rest) = parts.ending.length := by
  rcases parts.breaks with line | line <;> rw [line] <;> rfl

/-- A head is read where its pieces stand. -/
theorem heredocHead?_eq (parts : HeadParts head) (rest : Text) :
    heredocHead? (parts.spelling ++ rest) = some head := by
  have flat : parts.spelling ++ rest =
      parts.indent ++ (parts.mark ++ (head.label ++ (parts.mark ++ (parts.ending ++ rest)))) := by
    simp only [spelling, List.append_assoc]
  have indentRead : (parts.spelling ++ rest).takeWhile isIndent = parts.indent := by
    rw [flat]
    exact takeWhile_append_stop parts.blank (parts.indent_stops _)
  have labelRead : (head.label ++ (parts.mark ++ (parts.ending ++ rest))).takeWhile isNameChar =
      head.label := takeWhile_append_stop parts.named (parts.label_stops rest)
  have marked : parts.mark.isPrefixOf (parts.mark ++ (parts.ending ++ rest)) = true :=
    List.isPrefixOf_iff_prefix.mpr (List.prefix_append _ _)
  have long : parts.ending.length ≠ 0 := by
    rcases parts.breaks with line | line <;> rw [line] <;> decide
  have length := parts.length_eq
  simp only [List.length_append] at length
  simp only [heredocHead?, run, indentRead]
  simp only [flat, List.drop_left, parts.mark_read, labelRead, parts.begins, marked, Bool.and_self,
    if_true, parts.lineBreak_read, if_neg long]
  rw [show parts.indent.length + parts.mark.length + head.label.length + parts.mark.length +
    parts.ending.length = head.length by omega]

end HeadParts

/-- Where a head is read, its pieces stand. -/
theorem headParts_of_heredocHead? {text : Text} {head : Head}
    (found : heredocHead? text = some head) :
    ∃ (parts : HeadParts head) (rest : Text), text = parts.spelling ++ rest := by
  have indentSplit := split_at_run isIndent text
  simp only [heredocHead?] at found
  generalize text.drop (run isIndent text) = marked at found indentSplit
  have markSplit := split_at_mark marked
  generalize (marked.takeWhile fun c => c == '\'' || c == '"').take 1 = mark at found markSplit
  obtain ⟨quoting, markSplit⟩ := markSplit
  generalize marked.drop mark.length = named at found markSplit
  have labelSplit := split_at_run isNameChar named
  have labelChars : ∀ c ∈ named.takeWhile isNameChar, isNameChar c = true :=
    List.all_eq_true.mp List.all_takeWhile
  change named = named.takeWhile isNameChar ++ named.drop (named.takeWhile isNameChar).length
    at labelSplit
  generalize named.takeWhile isNameChar = label at found labelSplit labelChars
  generalize named.drop label.length = closed at found labelSplit
  split at found
  · next valid =>
      obtain ⟨begins, marksAgain⟩ := Bool.and_eq_true_iff.mp valid
      have closedSplit : mark ++ closed.drop mark.length = closed :=
        List.prefix_iff_eq_append.mp (List.isPrefixOf_iff_prefix.mp marksAgain)
      split at found
      · cases found
      · next breaks =>
          obtain ⟨ending, rest, endingSplit, line, lineLength⟩ := split_at_lineBreak breaks
          rw [lineLength] at found
          cases found
          refine ⟨⟨text.takeWhile isIndent, mark, ending, List.all_eq_true.mp List.all_takeWhile,
            quoting, begins, labelChars, line, ?_⟩, rest, ?_⟩
          · simp only [List.length_append, run]
            omega
          · refine indentSplit.trans ?_
            rw [markSplit, labelSplit, ← closedSplit, endingSplit]
            simp only [HeadParts.spelling, List.append_assoc]
  · cases found

theorem heredocHead?_length_le {text : Text} {head : Head} (found : heredocHead? text = some head) :
    head.length ≤ text.length := by
  obtain ⟨parts, rest, rfl⟩ := headParts_of_heredocHead? found
  rw [parts.length_eq]
  exact (List.prefix_append parts.spelling rest).length_le

theorem heredocHead?_named {text : Text} {head : Head} (found : heredocHead? text = some head) :
    head.label ≠ [] ∧ ∀ c ∈ head.label, isNameChar c = true := by
  obtain ⟨parts, rest, rfl⟩ := headParts_of_heredocHead? found
  exact ⟨parts.label_ne_nil, parts.named⟩

theorem heredocHead?_label {text : Text} {head : Head} (found : heredocHead? text = some head) :
    head.label ≠ [] ∧ '\n' ∉ head.label := by
  obtain ⟨filled, named⟩ := heredocHead?_named found
  exact ⟨filled, fun member => absurd (named _ member) (by decide)⟩

theorem heredocBody_cons (label : Text) (lineStart : Bool) (c : Char) (rest : Text) :
    heredocBody label lineStart (c :: rest) =
      (if lineStart then heredocEnd? label (c :: rest) else none).getD
        (1 + heredocBody label (c == '\n') rest) := by
  rw [heredocBody]
  split
  · next found => rw [found, Option.getD_some]
  · next found => rw [found, Option.getD_none]

end PhpWeave.Lexeme
