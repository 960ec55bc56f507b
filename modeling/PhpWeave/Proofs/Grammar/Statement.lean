import PhpWeave.Proofs.Grammar.Nodes

set_option autoImplicit false

/-!
Where statements end and begin. The text of an import is a whole statement: it ends in a semicolon,
and no parenthesis stands in it, for no clause has one. The header of a namespace or a function ends
in a semicolon or a brace, behind which statements begin.
-/

namespace PhpWeave

def TokenKind.isParen : TokenKind → Bool
  | .openParen | .closeParen => true
  | _ => false

namespace Import

def LeavesParens (tokens rest : List Token) : Prop :=
  ∀ token ∈ tokens, token.kind.isParen = true → token.isWord "const".toList = false → token ∈ rest

theorem LeavesParens.refl (tokens : List Token) : LeavesParens tokens tokens :=
  fun _ member _ _ => member

theorem LeavesParens.trans {tokens middle rest : List Token} (left : LeavesParens tokens middle)
    (right : LeavesParens middle rest) : LeavesParens tokens rest :=
  fun token member paren word => right token (left token member paren word) paren word

theorem LeavesParens.cons {token : Token} {tokens rest : List Token}
    (other : token.kind.isParen = false) (later : LeavesParens tokens rest) :
    LeavesParens (token :: tokens) rest := by
  intro one member paren word
  rcases List.mem_cons.mp member with rfl | among
  · rw [other] at paren
    cases paren
  · exact later one among paren word

theorem isParen_of_eq {kind other : TokenKind} (same : kind = other)
    (plain : other.isParen = false) : kind.isParen = false := same ▸ plain

theorem dropKind_parens (tokens : List Token) : LeavesParens tokens (dropKind tokens) := by
  cases tokens with
  | nil => exact .refl []
  | cons token rest =>
      rw [dropKind]
      split
      · next isKind =>
          intro one member paren word
          rcases List.mem_cons.mp member with rfl | among
          · rw [word, Bool.or_false] at isKind
            rw [of_decide_eq_true isKind] at paren
            cases paren
          · exact among
      · exact .refl _

theorem name?_parens {token : Token} {name : Text} (read : name? token = some name) :
    token.kind.isParen = false := by
  unfold name? at read
  split at read
  · next kind => rw [kind]; rfl
  · next kind => rw [kind]; rfl
  · next kind => rw [kind]; rfl
  · cases read

theorem givenAlias?_parens {tokens rest : List Token} {given : Option Text}
    (read : givenAlias? tokens = some (given, rest)) : LeavesParens tokens rest := by
  unfold givenAlias? at read
  split at read
  · cases read
    exact .refl []
  · split at read
    · next isAs =>
        split at read
        · cases read
        · next token after =>
            split at read
            · next like =>
                cases read
                refine .cons (isParen_of_eq isAs rfl) (.cons ?_ (.refl _))
                have named := (Bool.and_eq_true_iff.mp like).1
                cases kind : token.kind <;> rw [kind] at named <;> first | rfl | cases named
            · cases read
    · cases read
      exact .refl _

theorem members?_parens {base : Text} {fuel : Nat} {tokens rest : List Token}
    {entries : List (Text × Text)} (read : members? base fuel tokens = some (entries, rest)) :
    LeavesParens tokens rest := by
  induction fuel generalizing tokens entries rest with
  | zero => cases read
  | succ fuel ih =>
      cases tokens with
      | nil => cases read
      | cons token tail =>
          rw [members?] at read
          split at read
          · next closes =>
              cases read
              exact .cons (isParen_of_eq closes rfl) (.refl _)
          · split at read
            · cases read
            · next member afterKind dropped =>
                have front : LeavesParens (token :: tail) (member :: afterKind) :=
                  dropped ▸ dropKind_parens _
                split at read
                · cases read
                · simp only [Option.bind_eq_bind, Option.bind_eq_some_iff] at read
                  obtain ⟨inner, isInner, ⟨given, afterAlias⟩, aliased, read⟩ := read
                  have later := front.trans
                    (.cons (name?_parens isInner) (givenAlias?_parens aliased))
                  cases afterAlias with
                  | nil => cases read
                  | cons mark afterMark =>
                      simp only at read
                      split at read
                      · next comma =>
                          simp only [Option.bind_eq_some_iff] at read
                          obtain ⟨⟨more, last⟩, others, read⟩ := read
                          cases read
                          exact later.trans (.cons (isParen_of_eq comma rfl) (ih others))
                      · split at read
                        · next closes =>
                            cases read
                            exact later.trans (.cons (isParen_of_eq closes rfl) (.refl _))
                        · cases read

theorem clause?_parens {tokens rest : List Token} {entries : List (Text × Text)}
    (read : clause? tokens = some (entries, rest)) : LeavesParens tokens rest := by
  cases tokens with
  | nil => cases read
  | cons token tail =>
      simp only [clause?, Option.bind_eq_bind, Option.bind_eq_some_iff] at read
      obtain ⟨base, isBase, read⟩ := read
      refine .cons (name?_parens isBase) ?_
      cases tail with
      | nil =>
          cases read
          exact .refl []
      | cons mark afterMark =>
          simp only at read
          split at read
          · next separates =>
              cases afterMark with
              | nil => cases read
              | cons brace afterBrace =>
                  simp only at read
                  split at read
                  · next opens =>
                      exact .cons (isParen_of_eq separates rfl)
                        (.cons (isParen_of_eq opens rfl) (members?_parens read))
                  · cases read
          · simp only [Option.bind_eq_some_iff] at read
            obtain ⟨⟨given, afterAlias⟩, aliased, read⟩ := read
            cases read
            exact givenAlias?_parens aliased

theorem clauses?_parens {fuel : Nat} {tokens : List Token} {entries : List (Text × Text)}
    (read : clauses? fuel tokens = some entries) : LeavesParens tokens [] := by
  induction fuel generalizing tokens entries with
  | zero => cases read
  | succ fuel ih =>
      simp only [clauses?, Option.bind_eq_bind, Option.bind_eq_some_iff] at read
      obtain ⟨⟨first, rest⟩, clause, read⟩ := read
      refine (clause?_parens clause).trans ?_
      cases rest with
      | nil => exact .refl []
      | cons mark afterMark =>
          simp only at read
          split at read
          · next comma =>
              simp only [Option.bind_eq_some_iff] at read
              obtain ⟨more, others, -⟩ := read
              exact .cons (isParen_of_eq comma rfl) (ih others)
          · cases read

theorem read?_parens {tokens : List Token} {entries : List (Text × Text)}
    (read : read? tokens = some entries) {token : Token} (member : token ∈ tokens)
    (noConst : token.isWord "const".toList = false) : token.kind.isParen = false := by
  refine eq_false_of_ne_true fun paren => ?_
  exact absurd (((dropKind_parens tokens).trans (clauses?_parens read)) token member paren noConst)
    List.not_mem_nil

end Import
namespace Tokens.IsImport

variable {tokens : Tokens} {first last : Nat} (isImport : tokens.IsImport first last)
include isImport

theorem range : ∃ word mark : Token, word.kind = .kwUse ∧ mark.kind = .semicolon ∧
    (tokens.extract first (last + 1)).toList =
      word :: ((tokens.extract (first + 1) last).toList ++ [mark]) := by
  obtain ⟨word, here, isUse⟩ := kindAt_eq_some.mp isImport.word
  obtain ⟨mark, there, isSemicolon⟩ := kindAt_eq_some.mp isImport.ends
  obtain ⟨within, rfl⟩ := Array.getElem?_eq_some_iff.mp here
  obtain ⟨inside, rfl⟩ := Array.getElem?_eq_some_iff.mp there
  have order := isImport.order
  have split : tokens.extract first (first + 1) ++ tokens.extract (first + 1) last = _ :=
    Array.extract_append_extract
  rw [Nat.min_eq_left (Nat.le_succ first), Nat.max_eq_right order,
    Array.extract_succ_right (Nat.lt_succ_self first) within,
    Array.extract_empty_of_stop_le_start (Nat.le_refl first)] at split
  refine ⟨_, _, isUse, isSemicolon, ?_⟩
  rw [Array.extract_succ_right (Nat.lt_succ_of_lt order) inside, ← split, Array.toList_push,
    Array.toList_append]
  rfl

theorem code (tagged : Tagged tokens) :
    ∀ token ∈ (tokens.extract first (last + 1)).toList, token.kind.isMarkup = false := by
  obtain ⟨word, here, isUse⟩ := kindAt_eq_some.mp isImport.word
  obtain ⟨mark, there, isSemicolon⟩ := kindAt_eq_some.mp isImport.ends
  refine Untagged.code (tagged.code (fun token found => ?_) fun index behind before token found
    closes => ?_)
  · rw [here, Option.some.injEq] at found
    rw [← found, isUse]
    rfl
  · rcases Nat.lt_or_ge index last with early | late
    · exact isImport.untagged index behind early token found closes
    · rw [Nat.le_antisymm (Nat.le_of_lt_succ before) late, there, Option.some.injEq] at found
      rw [← found, isSemicolon] at closes
      cases closes

theorem plain (spelled : Spelled tokens) :
    ∀ token ∈ (tokens.extract first (last + 1)).toList, token.kind.isParen = false := by
  obtain ⟨word, mark, isUse, isSemicolon, range⟩ := isImport.range
  obtain ⟨entries, read⟩ := Option.isSome_iff_exists.mp isImport.read
  intro token member
  rw [range] at member
  rcases List.mem_cons.mp member with rfl | behind
  · rw [isUse]
    rfl
  rcases List.mem_append.mp behind with within | ends
  · refine eq_false_of_ne_true fun paren => ?_
    have known : token ∈ tokens := by
      rw [Array.toList_extract] at within
      exact Array.mem_toList_iff.mp (List.mem_of_mem_drop (List.mem_of_mem_take within))
    obtain ⟨noTrivia, noConst⟩ : token.kind.isTrivia = false ∧
        token.isWord "const".toList = false := by
      cases kind : token.kind <;> rw [kind] at paren <;> cases paren
      · rw [Token.isWord, spelled token known '(' (by rw [kind]; rfl)]
        exact ⟨rfl, by decide⟩
      · rw [Token.isWord, spelled token known ')' (by rw [kind]; rfl)]
        exact ⟨rfl, by decide⟩
    have significant : token ∈
        (tokens.extract (first + 1) last).toList.filter isSignificant := by
      refine List.mem_filter.mpr ⟨within, ?_⟩
      rw [isSignificant, noTrivia]
      rfl
    rw [Import.read?_parens read significant noConst] at paren
    cases paren
  · rw [List.mem_singleton.mp ends, isSemicolon]
    rfl

end Tokens.IsImport

structure Fragment.IsStatement (code : Text) : Prop where
  ends : (scan .php code).getLast?.map Token.kind = some .semicolon
  plain : ∀ token ∈ scan .php code, token.kind.isParen = false

namespace Scan

theorem Alike.isParen {forgot : Bool} {token found : Token} (alike : Alike forgot token found) :
    found.kind.isParen = token.kind.isParen ∧
      (found.kind == .semicolon) = (token.kind == .semicolon) := by
  rcases alike.kind with same | ⟨-, member, word⟩
  · rw [same]
    exact ⟨rfl, rfl⟩
  · have all : ∀ entry ∈ TokenKind.keywords, entry.2.isParen = false ∧
        (entry.2 == .semicolon) = false := by decide
    rw [member, word]
    rcases TokenKind.ofWord_cases token.text with plain | among
    · rw [plain]
      exact ⟨rfl, rfl⟩
    · exact all _ among

theorem isStatement_of_isImport {source : Text} {first last : Nat}
    (isImport : Tokens.IsImport (scan .html source).toArray first last) :
    Fragment.IsStatement (Tokens.textBetween (scan .html source).toArray first (last + 1)) := by
  have plain := isImport.plain (spelled_scan .html source)
  have code := isImport.code (tagged_scan .html source)
  have whole : tokensFrom (State.start .html) source = (scan .html source).toArray.toList := rfl
  rw [Tokens.split_at _ first (last + 1)] at whole
  have alike := tokensFrom_alike (State.start .php) (tokensFrom_resume whole).2 code rfl _
    (Bool.and_not_self _).symm
  rw [← scan_eq] at alike
  have parens := map_eq_of_forall₂ (alike.imp fun _ _ same => same.isParen.1.symm)
  have semicolons := map_eq_of_forall₂ (alike.imp fun _ _ same => same.isParen.2.symm)
  constructor
  · obtain ⟨word, mark, -, isSemicolon, range⟩ := isImport.range
    have last := congrArg List.getLast? semicolons
    rw [range, List.getLast?_map, List.getLast?_map, List.getLast?_cons, List.getLast?_concat,
      Option.getD_some, Option.map_some, beq_of_eq isSemicolon, ← range] at last
    obtain ⟨found, among, ends⟩ := Option.map_eq_some_iff.mp last.symm
    rw [Tokens.textBetween, among, Option.map_some, eq_of_beq ends]
  · intro found member
    obtain ⟨token, among, same⟩ := List.mem_map.mp (parens ▸ List.mem_map_of_mem member)
    rw [← same]
    exact plain token among

end Scan

namespace Tree

/-- Every node of a file but the file is one that an event reports. -/
theorem reported_of_parse {listLines : Bool} {source : Text} {tree : Tree}
    (parsed : parse listLines source = .ok tree) {id : Nat} (inside : id < tree.size)
    (other : id ≠ root) : ∃ node : Node, node.Reported (scan .html source).toArray ∧
      (tree.node id).origin = node.origin := by
  obtain ⟨events, read, origins⟩ := origins_of_parse parsed
  obtain ⟨number, rfl⟩ := Nat.exists_eq_succ_of_ne_zero other
  have found := origins_getElem? inside
  rw [origins, Nat.succ_eq_add_one, List.getElem?_cons_succ, List.getElem?_map,
    Option.map_eq_some_iff] at found
  obtain ⟨node, among, same⟩ := found
  obtain ⟨event, member, isNode⟩ := List.mem_filterMap.mp (List.mem_of_getElem? among)
  have reported := Reader.reported_eventsOf read event member
  refine ⟨node, ?_, same.symm⟩
  cases event with
  | leaf one first last =>
      cases isNode
      exact reported
  | enter one first last =>
      cases isNode
      exact reported
  | leave close last => cases isNode
  | yields => cases isNode
  | imports entries => cases isNode

theorem isStatement_of_parse {listLines : Bool} {source : Text} {tree : Tree}
    (parsed : parse listLines source = .ok tree) {id : Nat}
    (isOne : (tree.node id).kind = .imports) : Fragment.IsStatement (tree.node id).body := by
  have inside : id < tree.size := by
    by_contra outside
    rw [node_of_size_le (Nat.le_of_not_lt outside)] at isOne
    cases isOne
  have other : id ≠ root := by
    rintro rfl
    have isFile := ((placed_of_parse parsed inside).file).mpr rfl
    rw [isOne] at isFile
    cases isFile
  obtain ⟨node, reported, same⟩ := reported_of_parse parsed inside other
  have kind : (tree.node id).kind = node.kind := congrArg Prod.fst same
  have body : (tree.node id).body = node.body := congrArg (fun origin => origin.2.1) same
  obtain ⟨first, last, text, isImport⟩ := reported.statement (kind ▸ isOne)
  rw [body, text]
  exact Scan.isStatement_of_isImport isImport

end Tree

/-! ### Headers -/

theorem Tokens.getLast?_textBetween {tokens : Tokens} (spelled : Spelled tokens)
    {first last : Nat} (order : first ≤ last) {kind : TokenKind}
    (ends : tokens.kindAt last = some kind) {symbol : Char}
    (isOne : Scan.punctuation? symbol = some kind) :
    (tokens.textBetween first (last + 1)).getLast? = some symbol := by
  obtain ⟨token, here, rfl⟩ := kindAt_eq_some.mp ends
  rw [textBetween_succ order here, spelled token (Array.mem_of_getElem? here) symbol isOne,
    List.getLast?_concat]

theorem Reader.scopeHeader_ends {tokens : Tokens} {count index last : Nat} {collected name : Text}
    (header : scopeHeader tokens count index collected = some (last, name)) :
    index ≤ last ∧
      (tokens.kindAt last = some .semicolon ∨ tokens.kindAt last = some .openBrace) := by
  induction count generalizing index collected with
  | zero => cases header
  | succ count ih =>
      rw [scopeHeader] at header
      split at header
      · cases header
      · next token here =>
          have further {collected : Text}
              (later : scopeHeader tokens count (index + 1) collected = some (last, name)) :=
            And.imp_left Nat.le_of_succ_le (ih later)
          split at header
          · next ends =>
              cases header
              rw [Tokens.kindAt, here, Option.map_some, Option.some.injEq, Option.some.injEq]
              exact ⟨Nat.le_refl _, ends⟩
          · split at header
            · exact further header
            · split at header
              · exact further header
              · cases header

namespace Tree

/-- The header of a namespace, and of a function with children, ends where a statement begins. -/
theorem header_of_parse {listLines : Bool} {source : Text} {tree : Tree}
    (parsed : parse listLines source = .ok tree) {id : Nat} (filled : tree.children id ≠ [])
    (block : (tree.node id).kind = .scope ∨ (tree.node id).kind = .function) :
    (tree.node id).body.getLast? = some '\x7b' ∨ (tree.node id).body.getLast? = some ';' := by
  have spelled := Scan.spelled_scan .html source
  have inside : id < tree.size := by
    by_contra outside
    rw [Tree.children, node_of_size_le (Nat.le_of_not_lt outside)] at filled
    exact filled rfl
  rcases block with isScope | isFunction
  · have other : id ≠ root := by
      rintro rfl
      have isFile := ((placed_of_parse parsed inside).file).mpr rfl
      rw [isScope] at isFile
      cases isFile
    obtain ⟨node, reported, same⟩ := reported_of_parse parsed inside other
    have kind : (tree.node id).kind = node.kind := congrArg Prod.fst same
    have body : (tree.node id).body = node.body := congrArg (fun origin => origin.2.1) same
    obtain ⟨first, count, last, text, header⟩ := reported.scope (kind ▸ isScope)
    obtain ⟨order, ends⟩ := Reader.scopeHeader_ends header
    rw [body, text]
    rcases ends with semicolon | brace
    · exact .inr (Tokens.getLast?_textBetween spelled (Nat.le_of_succ_le order) semicolon rfl)
    · exact .inl (Tokens.getLast?_textBetween spelled (Nat.le_of_succ_le order) brace rfl)
  · have hasBody : (tree.node id).flags.hasBody = true := by
      have open_ := not_isLeaf_of_parse parsed inside filled
      rw [Node.isLeaf, isFunction] at open_
      simpa using open_
    obtain ⟨-, whole, stretches, parts, -, made⟩ := made_of_parse parsed
    have part : Part.body id ∈ stretches.map Stretch.part := by
      rw [parts]
      exact body_mem_tour_of_preorder (whole ▸ List.mem_range.mpr inside)
    obtain ⟨stretch, member, isBody⟩ := List.mem_map.mp part
    obtain ⟨last, order, stop, brace, -⟩ :=
      ((made stretch member).fits id isBody).braced isFunction hasBody
    have text := (made stretch member).text
    rw [isBody, stop] at text
    rw [show (tree.node id).body = _ from text]
    exact .inl (Tokens.getLast?_textBetween spelled order (eq_of_beq brace) rfl)

end Tree
end PhpWeave
