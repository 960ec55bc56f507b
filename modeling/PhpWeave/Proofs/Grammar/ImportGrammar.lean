import PhpWeave.Proofs.Grammar.Native
import PhpWeave.Proofs.Text.Pieces
import PhpWeave.Proofs.Token.Symbol

set_option autoImplicit false

/-!
The grammar of import statements, and the reader of clauses judged by it. A derivation says what a
part of a statement is made of and what it imports. The reader takes the longest part that it can
and leaves the rest, so soundness is told with what is left, and completeness for a part with
something behind it that cannot belong to it.
-/

namespace PhpWeave.Import

/-! ### The grammar -/

/-- The last part of a name that backslashes separate. -/
def LastSegment (name short : Text) : Prop :=
  '\\' ∉ short ∧ (name = short ∨ ∃ front, name = front ++ '\\' :: short)

/-- The name that a token stands for: its text without the backslashes in front. -/
structure NameOf (token : Token) (name : Text) : Prop where
  kind : token.kind = .identifier ∨ token.kind = .qualifiedName ∨ token.kind = .fullyQualifiedName
  text : ∃ count, token.text = List.replicate count '\\' ++ name
  bare : ∀ rest, name ≠ '\\' :: rest

def IsAlias (token : Token) : Prop :=
  token.kind.isIdentifierLike = true ∧ '\\' ∉ token.text

/-- `name ("as" alias)?` -/
inductive Aliased : List Token → Text → Text → Prop where
  | plain {token : Token} {name short : Text} (names : NameOf token name)
      (last : LastSegment name short) : Aliased [token] short name
  | renamed {token word given : Token} {name : Text} (names : NameOf token name)
      (isAs : word.kind = .kwAs) (isAlias : IsAlias given) :
      Aliased [token, word, given] given.text name

def IsKind (token : Token) : Prop := token.kind = .kwFunction ∨ token.isWord "const" = true

/-- `kind?` in front of the rest. Such a word always stands for the kind, never for a name. -/
inductive AfterKind : List Token → List Token → Prop where
  | given {word : Token} {rest : List Token} (isKind : IsKind word) : AfterKind (word :: rest) rest
  | absent {rest : List Token} (noKind : ∀ word ∈ rest.head?, ¬ IsKind word) : AfterKind rest rest

/-- `part ("," part)*` -/
inductive Listed (part : List Token → List (Text × Text) → Prop) :
    List Token → List (Text × Text) → Prop where
  | one {tokens : List Token} {entries : List (Text × Text)} (only : part tokens entries) :
      Listed part tokens entries
  | more {front back : List Token} {comma : Token} {entries rest : List (Text × Text)}
      (first : part front entries) (isComma : comma.kind = .comma) (later : Listed part back rest) :
      Listed part (front ++ comma :: back) (entries ++ rest)

/-- `kind? name ("as" alias)?` in a group, the name prefixed by that of the group. -/
inductive Member (base : Text) : List Token → List (Text × Text) → Prop where
  | mk {tokens : List Token} {token : Token} {rest : List Token} {short name : Text}
      (kind : AfterKind tokens (token :: rest)) (aliased : Aliased (token :: rest) short name)
      (relative : token.kind ≠ .fullyQualifiedName) :
      Member base tokens [(short, base ++ '\\' :: name)]

/-- What stands between the braces of a group: nothing, or members with a comma behind the last one
or none. -/
inductive Group (base : Text) : List Token → List (Text × Text) → Prop where
  | empty : Group base [] []
  | members {tokens : List Token} {entries : List (Text × Text)}
      (all : Listed (Member base) tokens entries) : Group base tokens entries
  | trailing {tokens : List Token} {comma : Token} {entries : List (Text × Text)}
      (all : Listed (Member base) tokens entries) (isComma : comma.kind = .comma) :
      Group base (tokens ++ [comma]) entries

/-- `name ("as" alias)?` or `name "\" "{" group "}"` -/
inductive Clause : List Token → List (Text × Text) → Prop where
  | name {tokens : List Token} {short name : Text} (aliased : Aliased tokens short name) :
      Clause tokens [(short, name)]
  | group {token mark opening closing : Token} {inner : List Token} {base : Text}
      {entries : List (Text × Text)} (names : NameOf token base) (isMark : mark.kind = .separator)
      (opens : opening.kind = .openBrace) (closes : closing.kind = .closeBrace)
      (members : Group base inner entries) :
      Clause (token :: mark :: opening :: (inner ++ [closing])) entries

/-- `kind? clause ("," clause)*` -/
inductive Statement : List Token → List (Text × Text) → Prop where
  | mk {tokens rest : List Token} {entries : List (Text × Text)} (kind : AfterKind tokens rest)
      (clauses : Listed Clause rest entries) : Statement tokens entries

/-- Tokens that come from scans. -/
def Scanned (tokens : List Token) : Prop :=
  ∀ token ∈ tokens, ∃ mode source, token ∈ scan mode source

theorem Scanned.mono {tokens rest : List Token} (scanned : Scanned tokens) (fewer : rest ⊆ tokens) :
    Scanned rest := fun token member => scanned token (fewer member)

/-! ### Words -/

theorem not_isKind_of_brace {token : Token} (scanned : ∃ mode source, token ∈ scan mode source)
    (isBrace : token.kind = .closeBrace) : ¬ IsKind token := by
  obtain ⟨mode, source, member⟩ := scanned
  have text : token.text = ['\x7d'] := by
    refine Scan.spelled_scan mode source token (List.mem_toArray.mpr member) '\x7d' ?_
    rw [isBrace]
    rfl
  rintro (isFunction | isConst)
  · rw [isBrace] at isFunction
    cases isFunction
  · rw [Token.isWord, text] at isConst
    revert isConst
    decide

theorem exists_lastSegment (name : Text) : ∃ short, LastSegment name short := by
  induction name with
  | nil => exact ⟨[], List.not_mem_nil, .inl rfl⟩
  | cons c rest ih =>
      obtain ⟨short, single, rfl | ⟨front, rfl⟩⟩ := ih
      · by_cases isMark : c = '\\'
        · exact ⟨rest, single, .inr ⟨[], by rw [isMark]; rfl⟩⟩
        · refine ⟨c :: rest, ?_, .inl rfl⟩
          intro member
          rcases List.mem_cons.mp member with same | later
          · exact isMark same.symm
          · exact single later
      · exact ⟨short, single, .inr ⟨c :: front, rfl⟩⟩

theorem LastSegment.eq {name short : Text} (last : LastSegment name short) :
    lastSegment name = short := by
  obtain ⟨single, rfl | ⟨front, rfl⟩⟩ := last
  · rw [lastSegment, Text.splitAt_of_not_mem single]
    rfl
  · rw [lastSegment, Text.splitAt_append, Text.splitAt_of_not_mem single, List.getLast?_append]
    rfl

theorem lastSegment_last (name : Text) : LastSegment name (lastSegment name) := by
  obtain ⟨short, last⟩ := exists_lastSegment name
  rw [last.eq]
  exact last

theorem dropLeadingSeparators_replicate (count : Nat) {name : Text}
    (bare : ∀ rest, name ≠ '\\' :: rest) :
    Text.dropLeadingSeparators (List.replicate count '\\' ++ name) = name := by
  have none (c : Char) (member : c ∈ List.replicate count '\\') : (c == '\\') = true :=
    beq_iff_eq.mpr (List.eq_of_mem_replicate member)
  rw [Text.dropLeadingSeparators, List.dropWhile_append_of_pos none]
  cases name with
  | nil => rfl
  | cons c rest =>
      refine List.dropWhile_cons_of_neg ?_
      rw [beq_iff_eq]
      exact fun isMark => bare rest (isMark ▸ rfl)

theorem bare_of_scan {token : Token} (scanned : ∃ mode source, token ∈ scan mode source)
    (isOne : token.kind = .identifier ∨ token.kind = .qualifiedName) :
    ∀ rest, token.text ≠ '\\' :: rest := by
  obtain ⟨mode, source, member⟩ := scanned
  have word := worded_scan mode source token (List.mem_toArray.mpr member)
    (by rcases isOne with isOne | isOne <;> rw [isOne] <;> rfl)
  have begins := word.2 (by rcases isOne with isOne | isOne <;> rw [isOne] <;> decide)
  intro rest same
  rw [same, Lexeme.startsWhere] at begins
  exact absurd begins (by decide)

theorem NameOf.read {token : Token} {name : Text} (names : NameOf token name)
    (scanned : ∃ mode source, token ∈ scan mode source) : name? token = some name := by
  obtain ⟨count, text⟩ := names.text
  have whole (isOne : token.kind = .identifier ∨ token.kind = .qualifiedName) :
      token.text = name := by
    cases count with
    | zero => exact text
    | succ count => exact absurd text (bare_of_scan scanned isOne _)
  unfold name?
  rcases names.kind with isOne | isOne | isOne
  · rw [isOne, whole (.inl isOne)]
  · rw [isOne, whole (.inr isOne)]
  · rw [isOne, text, dropLeadingSeparators_replicate count names.bare]

theorem nameOf_of_name? {token : Token} {name : Text} (read : name? token = some name)
    (scanned : ∃ mode source, token ∈ scan mode source) : NameOf token name := by
  unfold name? at read
  split at read
  · next isOne =>
      cases read
      exact ⟨.inl isOne, ⟨0, rfl⟩, bare_of_scan scanned (.inl isOne)⟩
  · next isOne =>
      cases read
      exact ⟨.inr (.inl isOne), ⟨0, rfl⟩, bare_of_scan scanned (.inr isOne)⟩
  · next isOne =>
      cases read
      refine ⟨.inr (.inr isOne), ⟨(token.text.takeWhile (· == '\\')).length, ?_⟩, ?_⟩
      · have marks : token.text.takeWhile (· == '\\') =
            List.replicate (token.text.takeWhile (· == '\\')).length '\\' :=
          List.eq_replicate_of_mem fun c member =>
            beq_iff_eq.mp (List.all_eq_true.mp List.all_takeWhile c member)
        rw [← marks]
        exact List.takeWhile_append_dropWhile.symm
      · intro rest same
        have head := List.head?_dropWhile_not (· == '\\') token.text
        rw [Text.dropLeadingSeparators] at same
        rw [same] at head
        exact Bool.noConfusion (show ('\\' == '\\') = false from head)
  · cases read

/-! ### Parts of a statement -/

theorem dropKind_of_after {tokens rest : List Token} (after : AfterKind tokens rest) :
    dropKind tokens = rest := by
  cases after with
  | given isKind =>
      rw [dropKind, if_pos]
      rcases isKind with isFunction | isConst
      · rw [decide_eq_true isFunction, Bool.true_or]
      · rw [isConst, Bool.or_true]
  | absent noKind =>
      cases tokens with
      | nil => rfl
      | cons word tokens =>
          rw [dropKind, if_neg]
          intro either
          refine noKind word rfl ?_
          rcases Bool.or_eq_true_iff.mp either with isFunction | isConst
          · exact .inl (of_decide_eq_true isFunction)
          · exact .inr isConst

theorem afterKind_dropKind (tokens : List Token) : AfterKind tokens (dropKind tokens) := by
  cases tokens with
  | nil => exact .absent fun _ none => by cases none
  | cons word tokens =>
      by_cases isKind : IsKind word
      · have after : AfterKind (word :: tokens) tokens := .given isKind
        rw [dropKind_of_after after]
        exact after
      · have after : AfterKind (word :: tokens) (word :: tokens) := .absent fun other same => by
          cases same
          exact isKind
        rw [dropKind_of_after after]
        exact after

theorem AfterKind.append {tokens rest : List Token} {token : Token}
    (after : AfterKind tokens (token :: rest)) (more : List Token) :
    AfterKind (tokens ++ more) (token :: (rest ++ more)) := by
  cases after with
  | given isKind => exact .given isKind
  | absent noKind => exact .absent fun word same => noKind word same

theorem AfterKind.split {tokens front more : List Token} {token : Token}
    (after : AfterKind tokens (token :: (front ++ more))) :
    ∃ whole, tokens = whole ++ more ∧ AfterKind whole (token :: front) := by
  cases after with
  | @given word _ isKind => exact ⟨word :: token :: front, rfl, .given isKind⟩
  | absent noKind => exact ⟨token :: front, rfl, .absent fun word same => noKind word same⟩

/-- A name is read with its alias when no `as` stands behind it. -/
theorem Aliased.read {front : List Token} {short name : Text} (aliased : Aliased front short name)
    (scanned : Scanned front) {rest : List Token} (ends : ∀ mark ∈ rest.head?, mark.kind ≠ .kwAs) :
    ∃ token tail given, front = token :: tail ∧ name? token = some name ∧
      givenAlias? (tail ++ rest) = some (given, rest) ∧ given.getD (lastSegment name) = short ∧
      ∀ mark ∈ tail.head?, mark.kind = .kwAs := by
  cases aliased with
  | @plain token _ _ names last =>
      refine ⟨token, [], none, rfl, names.read (scanned token List.mem_cons_self), ?_, last.eq,
        fun _ none => by cases none⟩
      cases rest with
      | nil => rfl
      | cons mark rest =>
          rw [List.nil_append]
          unfold givenAlias?
          exact if_neg (ends mark rfl)
  | @renamed token word given _ names isAs isAlias =>
      refine ⟨token, [word, given], some given.text, rfl,
        names.read (scanned token List.mem_cons_self), ?_, rfl, fun mark same => by
          cases same
          exact isAs⟩
      have allowed : (given.kind.isIdentifierLike && !given.text.contains '\\') = true := by
        rw [isAlias.1, Bool.true_and, Bool.not_eq_true', List.contains_eq_mem]
        exact decide_eq_false isAlias.2
      change givenAlias? (word :: given :: rest) = some (some given.text, rest)
      simp only [givenAlias?, if_pos isAs, if_pos allowed]

theorem aliased_of_read {token : Token} {tokens rest : List Token} {name : Text}
    {given : Option Text} (names : NameOf token name)
    (read : givenAlias? tokens = some (given, rest)) :
    ∃ front, tokens = front ++ rest ∧
      Aliased (token :: front) (given.getD (lastSegment name)) name := by
  unfold givenAlias? at read
  split at read
  · cases read
    exact ⟨[], rfl, .plain names (lastSegment_last name)⟩
  · next word behind =>
      split at read
      · next isAs =>
          split at read
          · cases read
          · next alias_ behind =>
              split at read
              · next allowed =>
                  cases read
                  obtain ⟨like, single⟩ := Bool.and_eq_true_iff.mp allowed
                  rw [Bool.not_eq_true', List.contains_eq_mem, decide_eq_false_iff_not] at single
                  exact ⟨[word, alias_], rfl, .renamed names isAs ⟨like, single⟩⟩
              · cases read
      · cases read
        exact ⟨[], rfl, .plain names (lastSegment_last name)⟩

/-! ### Groups -/

theorem Group.cons {base : Text} {front back : List Token} {comma : Token}
    {entries more : List (Text × Text)} (first : Member base front entries)
    (isComma : comma.kind = .comma) (later : Group base back more) :
    Group base (front ++ comma :: back) (entries ++ more) := by
  cases later with
  | empty =>
      rw [List.append_nil]
      exact .trailing (.one first) isComma
  | members all => exact .members (.more first isComma all)
  | @trailing tokens last _ all isLast =>
      have listed := Listed.more first isComma all
      have whole := Group.trailing listed isLast
      rw [List.append_assoc, List.cons_append] at whole
      exact whole

theorem Group.uncons {base : Text} {tokens : List Token} {entries : List (Text × Text)}
    (group : Group base tokens entries) :
    tokens = [] ∧ entries = [] ∨ Member base tokens entries ∨
      ∃ front comma back first more, tokens = front ++ comma :: back ∧ entries = first ++ more ∧
        Member base front first ∧ comma.kind = .comma ∧ Group base back more := by
  cases group with
  | empty => exact .inl ⟨rfl, rfl⟩
  | members all =>
      cases all with
      | one only => exact .inr (.inl only)
      | more first isComma later =>
          exact .inr (.inr ⟨_, _, _, _, _, rfl, rfl, first, isComma, .members later⟩)
  | @trailing _ last _ all isLast =>
      cases all with
      | one only =>
          exact .inr (.inr
            ⟨_, last, [], _, [], rfl, (List.append_nil _).symm, only, isLast, .empty⟩)
      | more first isComma later =>
          refine .inr (.inr ⟨_, _, _, _, _, ?_, rfl, first, isComma, .trailing later isLast⟩)
          rw [List.append_assoc, List.cons_append]

/-- One turn of the reader of a group, when a member stands in front. -/
theorem members?_member {base : Text} {front : List Token} {entries : List (Text × Text)}
    (member : Member base front entries) (scanned : Scanned front) {mark : Token}
    (ends : mark.kind ≠ .kwAs) (fuel : Nat) (rest : List Token) :
    members? base (fuel + 1) (front ++ mark :: rest) =
      if mark.kind = .comma then (members? base fuel rest).map fun more =>
        (entries ++ more.1, more.2)
      else if mark.kind = .closeBrace then some (entries, rest) else none := by
  obtain ⟨kind, aliased, relative⟩ := member
  rename_i token tail short name
  obtain ⟨first, others, rfl⟩ : ∃ first others, front = first :: others := by
    cases kind with
    | given isKind => exact ⟨_, _, rfl⟩
    | absent noKind => exact ⟨_, _, rfl⟩
  have suffix : token :: tail <:+ first :: others := dropKind_of_after kind ▸ dropKind_suffix _
  have noAs : ∀ head ∈ (mark :: rest).head?, head.kind ≠ .kwAs := by
    intro head isHead
    cases isHead
    exact ends
  obtain ⟨other, behind, given, same, isName, read, short, -⟩ :=
    aliased.read (scanned.mono suffix.subset) noAs
  cases same
  have noBrace : first.kind ≠ .closeBrace := by
    cases kind with
    | given isKind =>
        exact fun isBrace =>
          not_isKind_of_brace (scanned first List.mem_cons_self) isBrace isKind
    | absent noKind =>
        intro isBrace
        rw [name?, isBrace] at isName
        cases isName
  have dropped := dropKind_of_after (kind.append (mark :: rest))
  rw [List.cons_append] at dropped ⊢
  rw [members?, if_neg noBrace, dropped]
  simp only [if_neg relative, isName, read, short, Option.bind_eq_bind, Option.bind_some]
  split
  · cases members? base fuel rest <;> rfl
  · rfl

/-- The reader of a group reads what is a group, through the brace behind it. -/
theorem members?_complete {base : Text} {closing : Token} (closes : closing.kind = .closeBrace)
    (rest : List Token) {fuel : Nat} :
    ∀ {inner : List Token} {entries : List (Text × Text)}, Group base inner entries →
      Scanned inner → inner.length < fuel →
      members? base fuel (inner ++ closing :: rest) = some (entries, rest) := by
  induction fuel with
  | zero => exact fun _ _ enough => absurd enough (Nat.not_lt_zero _)
  | succ fuel ih =>
      intro inner entries group scanned enough
      have noAs : closing.kind ≠ .kwAs := closes ▸ TokenKind.noConfusion
      have noComma : closing.kind ≠ .comma := closes ▸ TokenKind.noConfusion
      rcases group.uncons with ⟨rfl, rfl⟩ | only | ⟨front, comma, back, first, more, rfl, rfl, one,
        isComma, later⟩
      · rw [List.nil_append, members?, if_pos closes]
      · rw [members?_member only scanned noAs, if_neg noComma, if_pos closes]
      · have scannedFront := scanned.mono (List.subset_append_left front (comma :: back))
        have scannedBack := (scanned.mono (List.subset_append_right front _)).mono
          (List.subset_cons_self comma back)
        rw [List.length_append, List.length_cons] at enough
        rw [List.append_assoc, List.cons_append, members?_member one scannedFront
          (isComma ▸ TokenKind.noConfusion), if_pos isComma, ih later scannedBack (by omega)]
        rfl

/-- What the reader of a group reads is a group and the brace behind it. -/
theorem members?_sound {base : Text} {fuel : Nat} :
    ∀ {tokens rest : List Token} {entries : List (Text × Text)}, Scanned tokens →
      members? base fuel tokens = some (entries, rest) →
      ∃ inner closing, tokens = inner ++ closing :: rest ∧ closing.kind = .closeBrace ∧
        Group base inner entries := by
  induction fuel with
  | zero => intro tokens rest entries _ read; cases read
  | succ fuel ih =>
      intro tokens rest entries scanned read
      cases tokens with
      | nil => cases read
      | cons token behind =>
          rw [members?] at read
          split at read
          · next closes =>
              cases read
              exact ⟨[], token, rfl, closes, .empty⟩
          · split at read
            · cases read
            · next member afterKind dropped =>
                have after := afterKind_dropKind (token :: behind)
                have fewer := scanned.mono (dropKind_suffix (token :: behind)).subset
                rw [dropped] at after fewer
                split at read
                · cases read
                · next relative =>
                    simp only [Option.bind_eq_bind, Option.bind_eq_some_iff] at read
                    obtain ⟨inner, isInner, ⟨given, afterAlias⟩, aliasRead, read⟩ := read
                    have names := nameOf_of_name? isInner (fewer member List.mem_cons_self)
                    obtain ⟨front, rfl, aliased⟩ := aliased_of_read names aliasRead
                    obtain ⟨whole, cut, kind⟩ := after.split
                    have one : Member base whole [_] := .mk kind aliased relative
                    rw [cut] at scanned ⊢
                    cases afterAlias with
                    | nil => cases read
                    | cons mark afterMark =>
                        simp only at read
                        split at read
                        · next isComma =>
                            simp only [Option.bind_eq_some_iff] at read
                            obtain ⟨⟨more, last⟩, others, read⟩ := read
                            cases read
                            have fewer : Scanned afterMark := fun token among =>
                              scanned token (List.mem_append_right _ (List.mem_cons_of_mem _ among))
                            obtain ⟨inside, closing, rfl, closes, group⟩ := ih fewer others
                            refine ⟨whole ++ mark :: inside, closing, ?_, closes,
                              group.cons one isComma⟩
                            rw [List.append_assoc, List.cons_append]
                        · split at read
                          · next closes =>
                              cases read
                              exact ⟨whole, mark, rfl, closes, .members (.one one)⟩
                          · cases read

/-! ### Clauses -/

theorem clause?_name {token : Token} {base : Text} (isName : name? token = some base)
    {tokens : List Token} (noMark : ∀ mark ∈ tokens.head?, mark.kind ≠ .separator) :
    clause? (token :: tokens) = (givenAlias? tokens).map fun read =>
      ([(read.1.getD (lastSegment base), base)], read.2) := by
  cases tokens with
  | nil => simp only [clause?, isName, Option.bind_eq_bind, Option.bind_some, givenAlias?,
      Option.map_some, Option.getD_none]
  | cons mark tokens =>
      simp only [clause?, isName, Option.bind_eq_bind, Option.bind_some, if_neg (noMark mark rfl)]
      cases givenAlias? (mark :: tokens) <;> rfl

theorem clause?_complete {front : List Token} {entries : List (Text × Text)}
    (clause : Clause front entries) (scanned : Scanned front) {rest : List Token}
    (ends : ∀ mark ∈ rest.head?, mark.kind = .comma) :
    clause? (front ++ rest) = some (entries, rest) := by
  cases clause with
  | name aliased =>
      have noAs : ∀ mark ∈ rest.head?, mark.kind ≠ .kwAs := fun mark same => by
        rw [ends mark same]
        exact TokenKind.noConfusion
      obtain ⟨token, tail, given, rfl, isName, read, rfl, isAs⟩ := aliased.read scanned noAs
      have noMark : ∀ mark ∈ (tail ++ rest).head?, mark.kind ≠ .separator := by
        intro mark same
        cases tail with
        | nil =>
            rw [ends mark same]
            exact TokenKind.noConfusion
        | cons word tail =>
            rw [isAs mark same]
            exact TokenKind.noConfusion
      rw [List.cons_append, clause?_name isName noMark, read]
      rfl
  | @group token mark opening closing inner base _ names isMark opens closes members =>
      have isName := names.read (scanned token List.mem_cons_self)
      have fewer : Scanned inner := fun other among => scanned other (by simp [among])
      have enough : inner.length < (inner ++ closing :: rest).length + 1 := by
        rw [List.length_append]
        omega
      have read := members?_complete closes rest members fewer enough
      simp only [List.cons_append, List.append_assoc, List.nil_append, clause?, isName,
        Option.bind_eq_bind, Option.bind_some, if_pos isMark, if_pos opens, read]

theorem clause?_sound {tokens rest : List Token} {entries : List (Text × Text)}
    (scanned : Scanned tokens) (read : clause? tokens = some (entries, rest)) :
    ∃ front, tokens = front ++ rest ∧ Clause front entries := by
  cases tokens with
  | nil => cases read
  | cons token tokens =>
      have isScanned := scanned token List.mem_cons_self
      have named {base : Text} (isName : name? token = some base)
          (noMark : ∀ mark ∈ tokens.head?, mark.kind ≠ .separator) :
          ∃ front, token :: tokens = front ++ rest ∧ Clause front entries := by
        rw [clause?_name isName noMark, Option.map_eq_some_iff] at read
        obtain ⟨⟨given, afterAlias⟩, aliasRead, same⟩ := read
        cases same
        obtain ⟨front, rfl, aliased⟩ := aliased_of_read (nameOf_of_name? isName isScanned) aliasRead
        exact ⟨token :: front, rfl, .name aliased⟩
      cases isName : name? token with
      | none =>
          simp only [clause?, isName, Option.bind_eq_bind, Option.bind_none, reduceCtorEq] at read
      | some base =>
          cases tokens with
          | nil => exact named isName fun _ none => by cases none
          | cons mark behind =>
              by_cases isMark : mark.kind = .separator
              · simp only [clause?, isName, Option.bind_eq_bind, Option.bind_some,
                  if_pos isMark] at read
                split at read
                · next opening inside =>
                    split at read
                    · next opens =>
                        have fewer : Scanned inside := fun other among =>
                          scanned other (by simp [among])
                        obtain ⟨inner, closing, rfl, closes, group⟩ := members?_sound fewer read
                        refine ⟨token :: mark :: opening :: (inner ++ [closing]), by simp,
                          .group (nameOf_of_name? isName isScanned) isMark opens closes group⟩
                    · cases read
                · cases read
              · exact named isName fun other same => by
                  cases same
                  exact isMark

theorem clauses?_complete {tokens : List Token} {entries : List (Text × Text)}
    (listed : Listed Clause tokens entries) :
    Scanned tokens → ∀ fuel, tokens.length < fuel → clauses? fuel tokens = some entries := by
  induction listed with
  | one only =>
      intro scanned fuel enough
      obtain ⟨fuel, rfl⟩ :=
        Nat.exists_eq_add_one_of_ne_zero (Nat.ne_of_gt (Nat.zero_lt_of_lt enough))
      have nothing : ∀ mark ∈ ([] : List Token).head?, mark.kind = .comma :=
        fun _ none => by cases none
      have read := clause?_complete only scanned nothing
      rw [List.append_nil] at read
      simp only [clauses?, read, Option.bind_eq_bind, Option.bind_some]
  | @more front back comma entries rest first isComma later ih =>
      intro scanned fuel enough
      obtain ⟨fuel, rfl⟩ :=
        Nat.exists_eq_add_one_of_ne_zero (Nat.ne_of_gt (Nat.zero_lt_of_lt enough))
      have scannedFront := scanned.mono (List.subset_append_left front (comma :: back))
      have scannedBack := (scanned.mono (List.subset_append_right front _)).mono
        (List.subset_cons_self comma back)
      have ends : ∀ mark ∈ (comma :: back).head?, mark.kind = .comma := by
        intro mark same
        cases same
        exact isComma
      have read := clause?_complete first scannedFront ends
      rw [List.length_append, List.length_cons] at enough
      have others := ih scannedBack fuel (by omega)
      simp only [clauses?, read, Option.bind_eq_bind, Option.bind_some, if_pos isComma, others]

theorem clauses?_sound {fuel : Nat} :
    ∀ {tokens : List Token} {entries : List (Text × Text)}, Scanned tokens →
      clauses? fuel tokens = some entries → Listed Clause tokens entries := by
  induction fuel with
  | zero => intro tokens entries _ read; cases read
  | succ fuel ih =>
      intro tokens entries scanned read
      simp only [clauses?, Option.bind_eq_bind, Option.bind_eq_some_iff] at read
      obtain ⟨⟨first, rest⟩, clauseRead, read⟩ := read
      obtain ⟨front, rfl, clause⟩ := clause?_sound scanned clauseRead
      cases rest with
      | nil =>
          cases read
          rw [List.append_nil]
          exact .one clause
      | cons mark behind =>
          simp only at read
          split at read
          · next isComma =>
              simp only [Option.bind_eq_some_iff] at read
              obtain ⟨more, others, read⟩ := read
              cases read
              have fewer := (scanned.mono (List.subset_append_right front _)).mono
                (List.subset_cons_self mark behind)
              exact .more clause isComma (ih fewer others)
          · cases read

/-! ### Tokens of statements -/

def IsPart (token : Token) : Prop :=
  IsKind token ∨ token.kind.isIdentifierLike = true ∨
    token.kind ∈ [TokenKind.comma, .separator, .openBrace, .closeBrace]

theorem isPart_of_mark {token : Token} {kind : TokenKind} (isOne : token.kind = kind)
    (mark : kind ∈ [TokenKind.comma, .separator, .openBrace, .closeBrace]) : IsPart token :=
  .inr (.inr (isOne ▸ mark))

theorem NameOf.isPart {token : Token} {name : Text} (names : NameOf token name) : IsPart token := by
  rcases names.kind with isOne | isOne | isOne
  · exact .inr (.inl (by rw [isOne]; rfl))
  · exact .inr (.inl (by rw [isOne]; rfl))
  · exact .inr (.inl (by rw [isOne]; rfl))

theorem Aliased.isPart {tokens : List Token} {short name : Text}
    (aliased : Aliased tokens short name) : ∀ token ∈ tokens, IsPart token := by
  cases aliased with
  | plain names last => exact List.forall_mem_singleton.mpr names.isPart
  | renamed names isAs isAlias =>
      refine List.forall_mem_cons.mpr ⟨names.isPart, List.forall_mem_cons.mpr ⟨?_, ?_⟩⟩
      · exact .inr (.inl (by rw [isAs]; rfl))
      · exact List.forall_mem_singleton.mpr (.inr (.inl isAlias.1))

theorem AfterKind.isPart {tokens rest : List Token} (after : AfterKind tokens rest)
    (others : ∀ token ∈ rest, IsPart token) : ∀ token ∈ tokens, IsPart token := by
  cases after with
  | given isKind => exact List.forall_mem_cons.mpr ⟨.inl isKind, others⟩
  | absent noKind => exact others

theorem Listed.isPart {part : List Token → List (Text × Text) → Prop}
    (each : ∀ tokens entries, part tokens entries → ∀ token ∈ tokens, IsPart token)
    {tokens : List Token} {entries : List (Text × Text)} (listed : Listed part tokens entries) :
    ∀ token ∈ tokens, IsPart token := by
  induction listed with
  | one only => exact each _ _ only
  | more first isComma later ih =>
      refine List.forall_mem_append.mpr ⟨each _ _ first, List.forall_mem_cons.mpr ⟨?_, ih⟩⟩
      exact isPart_of_mark isComma (by decide)

theorem Group.isPart {base : Text} {tokens : List Token} {entries : List (Text × Text)}
    (group : Group base tokens entries) : ∀ token ∈ tokens, IsPart token := by
  have member (tokens : List Token) (entries : List (Text × Text))
      (member : Member base tokens entries) : ∀ token ∈ tokens, IsPart token := by
    obtain ⟨kind, aliased, -⟩ := member
    exact kind.isPart aliased.isPart
  cases group with
  | empty => exact fun _ none => by cases none
  | members all => exact all.isPart member
  | trailing all isComma =>
      refine List.forall_mem_append.mpr ⟨all.isPart member, List.forall_mem_singleton.mpr ?_⟩
      exact isPart_of_mark isComma (by decide)

theorem Clause.isPart {tokens : List Token} {entries : List (Text × Text)}
    (clause : Clause tokens entries) : ∀ token ∈ tokens, IsPart token := by
  cases clause with
  | name aliased => exact aliased.isPart
  | group names isMark opens closes members =>
      have closing := List.forall_mem_singleton.mpr (isPart_of_mark closes (by decide))
      have inside := List.forall_mem_append.mpr ⟨members.isPart, closing⟩
      exact List.forall_mem_cons.mpr ⟨names.isPart, List.forall_mem_cons.mpr
        ⟨isPart_of_mark isMark (by decide), List.forall_mem_cons.mpr
          ⟨isPart_of_mark opens (by decide), inside⟩⟩⟩

theorem isPart_of_read {tokens : List Token} (scanned : Scanned tokens)
    {entries : List (Text × Text)} (read : read? tokens = some entries) :
    ∀ token ∈ tokens, IsPart token := by
  have fewer := scanned.mono (dropKind_suffix tokens).subset
  exact (afterKind_dropKind tokens).isPart
    ((clauses?_sound fewer read).isPart fun _ _ clause => clause.isPart)

/-! ### Equivalence -/

/-- Exactly the statements of the grammar are read, each with what it imports. -/
theorem read_iff_statement {significant : List Token} (scanned : Scanned significant)
    (entries : List (Text × Text)) :
    read? significant = some entries ↔ Statement significant entries := by
  have after := afterKind_dropKind significant
  have fewer := scanned.mono (dropKind_suffix significant).subset
  constructor
  · intro read
    exact .mk after (clauses?_sound fewer read)
  · rintro ⟨kind, clauses⟩
    rw [← dropKind_of_after kind] at clauses
    have enough := (dropKind_suffix significant).length_le
    exact clauses?_complete clauses fewer _ (Nat.lt_succ_of_le enough)

/-- A group with a comma too many, and a name with a backslash too many behind it. Without its brace
the text is no statement. -/
theorem read_iff_statement_group :
    ∃ significant, Token.textOf significant = "functionA\\\x7bBasC,constD\\E,\x7d,\\F\\G".toList ∧
      Statement significant [("C".toList, "A\\B".toList), ("E".toList, "A\\D\\E".toList),
        ("G".toList, "F\\G".toList)] ∧
      ∀ entries, ¬ Statement (significant.take 10) entries := by
  have scanned (source : Text) : Scanned ((scan .php source).filter Tokens.isSignificant) :=
    fun token member => ⟨.php, source, (List.mem_filter.mp member).1⟩
  let source := "function A\\\x7bB as C, const D\\E,\x7d, \\F\\G".toList
  let significant := (scan .php source).filter Tokens.isSignificant
  have cut : Scanned (significant.take 10) :=
    (scanned source).mono (List.take_subset 10 significant)
  refine ⟨significant, by decide +kernel, ?_, fun entries statement => ?_⟩
  · exact (read_iff_statement (scanned source) _).mp (by decide +kernel)
  · have read := (read_iff_statement cut entries).mpr statement
    have fails : read? (significant.take 10) = none := by decide +kernel
    rw [fails] at read
    cases read

end PhpWeave.Import
