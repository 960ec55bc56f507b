import PhpWeave.Proofs.Token.Front
import PhpWeave.Proofs.Weave.Blocks
import PhpWeave.Proofs.Weave.Retention

set_option autoImplicit false

/-!
Trees that an isolation leaves as they are. In their levels stand tags that do not print, imports,
namespaces and functions with a name; and of plain code directives, the braces that close their
blocks, and line feeds. An isolation finds the same of each again.
-/

namespace PhpWeave

open PhpWeave.Tree

/-! ### Line feeds -/

namespace Text

def IsBlank (text : Text) : Prop := ∀ c ∈ text, c = '\n'

theorem isBlank_newlinesOnly (text : Text) : IsBlank (newlinesOnly text) :=
  fun _ member => eq_of_beq (List.mem_filter.mp member).2

theorem IsBlank.newlinesOnly_eq {text : Text} (blank : IsBlank text) : newlinesOnly text = text :=
  List.filter_eq_self.mpr fun c member => beq_iff_eq.mpr (blank c member)

end Text

namespace Scan

theorem shapes_of_closing {state : State} (php : state.mode = .php) (closes : Bool) :
    (tokensFrom state (if closes then ['\x7d'] else [])).map shape =
      if closes then [(.closeBrace, ['\x7d'])] else [] := by
  cases closes with
  | false => rfl
  | true =>
      have token : tokensFrom state (['\x7d'] ++ []) = _ :=
        tokensFrom_lexeme php (List.cons_ne_nil _ _) rfl
      rw [if_pos rfl, ← List.append_nil ['\x7d'], token]
      rfl

theorem shapes_of_blank {blank : Text} (isBlank : Text.IsBlank blank) (closes : Bool) :
    (scan .php (blank ++ if closes then ['\x7d'] else [])).map shape =
      (if blank = [] then [] else [(.whitespace, blank)]) ++
        if closes then [(.closeBrace, ['\x7d'])] else [] := by
  rw [scan_eq]
  cases blank with
  | nil => exact shapes_of_closing rfl closes
  | cons c rest =>
      have spaces : ∀ d ∈ c :: rest, Lexeme.isSpace d = true := by
        intro d member
        rw [isBlank d member]
        rfl
      have stops : Lexeme.startsWhere Lexeme.isSpace (if closes then ['\x7d'] else []) = false := by
        cases closes <;> rfl
      have length : Lexeme.run Lexeme.isSpace (c :: rest ++ if closes then ['\x7d'] else []) =
          (c :: rest).length :=
        congrArg List.length (Lexeme.takeWhile_append_stop spaces stops)
      have lexeme : phpLexeme false (c :: rest ++ if closes then ['\x7d'] else []) =
          (.whitespace, (c :: rest).length) := by
        rw [← length]
        exact if_pos (spaces c List.mem_cons_self)
      have php : (State.start .php).mode = .php := rfl
      rw [tokensFrom_lexeme php (List.cons_ne_nil c rest) lexeme, List.map_cons,
        shapes_of_closing ?_ closes, if_neg (List.cons_ne_nil c rest)]
      · rfl
      · rfl

end Scan

structure Node.IsRest (node : Node) (closes : Bool) : Prop where
  editable : node.isEditable = true
  body : ∃ blank, Text.IsBlank blank ∧ node.body = blank ++ if closes then ['\x7d'] else []

namespace Node.IsRest

variable {node : Node} {closes : Bool} (isRest : node.IsRest closes)
include isRest

theorem shapes : ∃ front : List (TokenKind × Text), (∀ entry ∈ front, entry.1 = .whitespace) ∧
    (scan .php node.body).map Scan.shape =
      front ++ if closes then [(.closeBrace, ['\x7d'])] else [] := by
  obtain ⟨blank, isBlank, body⟩ := isRest.body
  refine ⟨_, ?_, body ▸ Scan.shapes_of_blank isBlank closes⟩
  intro entry member
  split at member
  · cases member
  · rw [List.mem_singleton.mp member]

theorem kinds : ∃ front : List TokenKind, (∀ kind ∈ front, kind = .whitespace) ∧
    (scan .php node.body).map Token.kind = front ++ if closes then [.closeBrace] else [] := by
  obtain ⟨front, white, shapes⟩ := isRest.shapes
  refine ⟨front.map Prod.fst, ?_, ?_⟩
  · intro kind member
    obtain ⟨entry, among, rfl⟩ := List.mem_map.mp member
    exact white entry among
  · have kinds := congrArg (List.map Prod.fst) shapes
    rw [List.map_map, List.map_append] at kinds
    refine kinds.trans ?_
    cases closes <;> rfl

theorem braces : node.braces = if closes then [.closeBrace] else [] := by
  obtain ⟨front, white, kinds⟩ := isRest.kinds
  have none : front.filter TokenKind.isBrace = [] := by
    refine List.filter_eq_nil_iff.mpr fun kind member => ?_
    rw [white kind member]
    decide
  rw [Node.braces, isRest.editable, if_pos rfl, Token.bracesOf, kinds, List.filter_append, none]
  cases closes <;> rfl

theorem isDirective : node.isDirective = false := by
  obtain ⟨front, white, shapes⟩ := isRest.shapes
  cases first : (scan .php node.body).find? Tokens.isSignificant with
  | none => rw [Node.isDirective, first, Option.map_none, Option.getD_none, Bool.and_false]
  | some token =>
      apply Node.not_isDirective first
      have among := List.mem_map_of_mem (f := Scan.shape) (List.mem_of_find?_eq_some first)
      rw [shapes] at among
      rcases List.mem_append.mp among with early | isLast
      · have isOne := List.find?_some first
        rw [Tokens.isSignificant, show token.kind = .whitespace from white _ early] at isOne
        cases isOne
      · split at isLast
        · have text : token.text = ['\x7d'] := congrArg Prod.snd (List.mem_singleton.mp isLast)
          rw [text]
          decide
        · cases isLast

theorem ends : ∀ token ∈ (scan .php node.body).dropLast,
    token.kind ≠ .openBrace ∧ token.kind ≠ .closeBrace := by
  obtain ⟨front, white, kinds⟩ := isRest.kinds
  intro token member
  have among : token.kind ∈ front := by
    have early := List.mem_map_of_mem (f := Token.kind) member
    rw [List.map_dropLast, kinds] at early
    cases closes with
    | true => rwa [if_pos rfl, List.dropLast_concat] at early
    | false =>
        rw [if_neg Bool.false_ne_true, List.append_nil] at early
        exact List.dropLast_subset _ early
  rw [white _ among]
  decide

theorem last :
    (scan .php node.body).getLast?.map Token.kind = some .closeBrace ↔ closes = true := by
  obtain ⟨front, white, kinds⟩ := isRest.kinds
  rw [← List.getLast?_map, kinds]
  cases closes with
  | true => simp
  | false =>
      rw [if_neg Bool.false_ne_true, List.append_nil]
      refine iff_of_false (fun isLast => ?_) Bool.false_ne_true
      cases white _ (List.mem_of_getLast? isLast)

theorem last_ne : (scan .php node.body).getLast?.map Token.kind ≠ some .openBrace := by
  obtain ⟨front, white, kinds⟩ := isRest.kinds
  rw [← List.getLast?_map, kinds]
  intro isLast
  rcases List.mem_append.mp (List.mem_of_getLast? isLast) with early | late
  · cases white _ early
  · split at late
    · cases List.mem_singleton.mp late
    · cases late

end Node.IsRest

namespace Isolation

def Stands (tree : Tree) (id : NodeId) : Prop :=
  ¬ IsPlain (tree.node id) ∧ (fateByKind tree id = .keep ∨ (tree.node id).kind = .scope)

inductive Steady (tree : Tree) : List Bool → List NodeId → Prop where
  | nil (blocks : List Bool) : Steady tree blocks []
  | other {blocks : List Bool} {id : NodeId} {rest : List NodeId} (stands : Stands tree id)
      (steady : Steady tree blocks rest) : Steady tree blocks (id :: rest)
  | piece {blocks : List Bool} {id : NodeId} {rest : List NodeId}
      (editable : (tree.node id).isEditable = true) (tidy : Tidy tree id)
      (same : leftOf tree blocks id = (tree.node id).body)
      (steady : Steady tree (bracesBehind tree blocks id) rest) : Steady tree blocks (id :: rest)

section Rest

variable {tree : Tree} {id : NodeId} {closes : Bool} (isRest : (tree.node id).IsRest closes)
include isRest

theorem tidy_of_rest : Tidy tree id where
  ends := isRest.ends
  noClose := by
    intro directive
    rw [tree.isDirective_eq, isRest.isDirective] at directive
    cases directive

theorem bracesBehind_of_rest (blocks : List Bool) :
    bracesBehind tree blocks id = if closes then blocks.tail else blocks := by
  have last : lastKind? tree id = some .closeBrace ↔ closes = true := isRest.last
  have noOpen : lastKind? tree id ≠ some .openBrace := isRest.last_ne
  rw [bracesBehind, if_pos isRest.editable]
  split
  · next isOne => exact absurd isOne noOpen
  · next isOne => rw [if_pos (last.mp isOne)]
  · next _ other => rw [if_neg fun both => other (last.mpr both)]

theorem leftOf_of_rest {blocks : List Bool} (isOpen : closes = true → blocks.head? = some true) :
    leftOf tree blocks id = (tree.node id).body := by
  have other : ¬ tree.isDirective id = true := by
    rw [tree.isDirective_eq, isRest.isDirective]
    exact Bool.false_ne_true
  have last : lastKind? tree id = some .closeBrace ↔ closes = true := isRest.last
  obtain ⟨blank, isBlank, body⟩ := isRest.body
  rw [leftOf, if_neg other]
  cases closes with
  | true =>
      rw [if_pos ⟨last.mpr rfl, isOpen rfl⟩, body, if_pos rfl, Text.newlinesOnly,
        List.filter_append, show blank.filter (· == '\n') = blank from isBlank.newlinesOnly_eq,
        show ['\x7d'].filter (· == '\n') = [] from rfl, List.append_nil]
  | false =>
      rw [if_neg fun both => Bool.false_ne_true (last.mp both.1), body, if_neg Bool.false_ne_true,
        List.append_nil, List.append_nil]
      exact isBlank.newlinesOnly_eq

end Rest

section Again

variable {tree new : Tree} {feeds : Nat}

/-- What an isolation leaves all of keeps its text. -/
theorem texts_of_steady (lined : tree.Lined feeds) (after : new.Ascending)
    (size : tree.size ≤ new.size) {level : Nat} {depth : Depth} {blocks : List Bool}
    {ids children : List Nat} (settles : Settles tree new depth ids children)
    (among : ∀ id ∈ ids, id ∈ tree.children level) (steady : Steady tree blocks ids)
    (tallies : Tallies depth blocks) :
    List.Forall₂ (fun id child => (tree.node id).kind = .scope ∧ child = id ∨
      tree.nodeText id = new.nodeText child) ids children := by
  induction settles generalizing blocks with
  | nil depth => exact .nil
  | @cons depth id child rest later becomes settles ih =>
      have inside := (lined.linked.ascending.children level id (among id List.mem_cons_self)).2
      have others (other : Nat) (listed : other ∈ rest) := among other (.tail _ listed)
      cases steady with
      | other stands steady =>
          have still : (fate tree depth id).2 = depth := by rw [fate_of_not_plain stands.1]
          refine .cons ?_ (ih others steady (by rw [still]; exact tallies))
          rcases stands.2 with keeps | isScope
          · rw [fate_of_not_plain stands.1] at becomes
            simp only [keeps] at becomes
            obtain ⟨rfl, agrees⟩ := becomes
            exact .inr (nodeText_of_agrees lined.linked after size inside agrees).symm
          · rw [fate_of_scope isScope] at becomes
            exact .inl ⟨isScope, becomes.1⟩
      | piece editable tidy same steady =>
          obtain ⟨behind, outcome⟩ := tidy.fate editable tallies
          refine .cons (.inr ?_) (ih others steady behind)
          have isCode := (isPlain_of_isEditable editable).1
          have text := nodeText_of_bare lined inside isCode
          rw [outcome] at becomes
          rcases leftOf_cases tree blocks id with ⟨fated, left⟩ | ⟨fated, left⟩ | ⟨fated, left⟩
          · rw [fated] at becomes
            obtain ⟨rfl, agrees⟩ := becomes
            exact (nodeText_of_agrees lined.linked after size inside agrees).symm
          · rw [fated] at becomes
            rw [IsPut.nodeText after becomes, text, ← left, same]
          · rw [fated] at becomes
            rw [IsPut.nodeText after becomes, text, ← left, same]

/-- An isolation leaves a file as it is in which it leaves all of every level. -/
theorem source_isolate_of_steady (lined : tree.Lined feeds)
    (steady : ∀ level, LevelUnder tree root level → Steady tree [] (tree.children level)) :
    (isolate tree).source = tree.source := by
  have texts : Text.ByParts fun left right : Text => left = right :=
    ⟨fun _ => rfl, fun front back => by rw [front, back]⟩
  refine (text_level lined texts (fun level isLevel => ?_) (.here root)).symm
  exact texts_of_steady lined (lined_isolate lined).linked.ascending (size_isolate lined)
    (settles_isolate lined isLevel) (fun _ member => member) (steady level isLevel) ⟨0, rfl⟩

end Again

end Isolation

end PhpWeave
