import PhpWeave.Proofs.Weave.Retelling

set_option autoImplicit false

/-!
The blocks of plain code. A brace of a piece opens or closes a block of the construct around it, and
of an open block it matters whether a directive opened it. A piece has no brace but at its end,
unless an import statement was given up in it, which is nothing that begins a directive.
-/

namespace PhpWeave

namespace TokenKind

def isBrace (kind : TokenKind) : Bool := kind = .openBrace || kind = .closeBrace

/-- The blocks that are open behind a brace, innermost first: for each one whether a directive
opened it. -/
def blocksBehind (directive : Bool) (blocks : List Bool) (kind : TokenKind) : List Bool :=
  if kind = .openBrace then directive :: blocks else blocks.tail

theorem blocksBehind_false {blocks : List Bool} (none : true ∉ blocks) (kind : TokenKind) :
    true ∉ kind.blocksBehind false blocks := by
  unfold blocksBehind
  split
  · simp [none]
  · exact fun member => none (List.mem_of_mem_tail member)

theorem not_declare_of_use {word : Text} (isUse : ofWord word = .kwUse) :
    Text.sameWord word "declare".toList = false := by
  by_contra same
  rw [Bool.not_eq_false, Text.sameWord, beq_iff_eq] at same
  rw [ofWord, same] at isUse
  revert isUse
  decide

end TokenKind

def Token.bracesOf (tokens : List Token) : List TokenKind :=
  (tokens.map Token.kind).filter TokenKind.isBrace

theorem Token.bracesOf_append (left right : List Token) :
    bracesOf (left ++ right) = bracesOf left ++ bracesOf right := by
  rw [bracesOf, List.map_append, List.filter_append]
  rfl

theorem Token.bracesOf_eq_nil {tokens : List Token}
    (none : ∀ token ∈ tokens, token.kind.isBrace = false) : bracesOf tokens = [] := by
  refine List.filter_eq_nil_iff.mpr fun kind among => ?_
  obtain ⟨token, member, rfl⟩ := List.mem_map.mp among
  rw [none token member]
  exact Bool.false_ne_true

namespace Node

/-- The braces of a piece of plain code. Those of other nodes do not count. -/
def braces (node : Node) : List TokenKind :=
  if node.isEditable then Token.bracesOf (scan .php node.body) else []

def isDirective (node : Node) : Bool :=
  node.isEditable && (((scan .php node.body).find? Tokens.isSignificant).map
    fun token => token.isWord "declare").getD false

/-- The blocks that are open behind a node. -/
def blocksBehind (blocks : List Bool) (node : Node) : List Bool :=
  node.braces.foldl (TokenKind.blocksBehind node.isDirective) blocks

def EndsAtBrace (node : Node) : Prop :=
  ∀ token ∈ (scan .php node.body).dropLast, token.kind.isBrace = false

/-- A piece of plain code has no brace but at its end, unless it is no directive and none of the
blocks in front of it is one's. -/
def Ordered (blocks : List Bool) (node : Node) : Prop :=
  node.isEditable = true → node.EndsAtBrace ∨ node.isDirective = false ∧ true ∉ blocks

variable {node : Node} {blocks : List Bool}

theorem braces_of_fixed (fixed : node.isEditable = false) : node.braces = [] := by
  rw [braces, fixed]
  rfl

theorem blocksBehind_of_fixed (fixed : node.isEditable = false) :
    node.blocksBehind blocks = blocks := by
  rw [blocksBehind, braces_of_fixed fixed]
  rfl

theorem ordered_of_fixed (fixed : node.isEditable = false) : node.Ordered blocks := by
  intro editable
  rw [fixed] at editable
  cases editable

theorem not_isDirective {token : Token}
    (first : (scan .php node.body).find? Tokens.isSignificant = some token)
    (other : Text.sameWord token.text "declare".toList = false) : node.isDirective = false := by
  rw [isDirective, first, Option.map_some, Option.getD_some, Token.isWord, other, Bool.and_false]

theorem blocksBehind_of_not_directive (other : node.isDirective = false) (none : true ∉ blocks) :
    true ∉ node.blocksBehind blocks := by
  unfold blocksBehind
  rw [other]
  generalize node.braces = braces
  induction braces generalizing blocks with
  | nil => exact none
  | cons kind rest ih => exact ih (TokenKind.blocksBehind_false none kind)

end Node

theorem Tokens.find?_toList (tokens : Tokens) :
    tokens.toList.find? Tokens.isSignificant =
      (tokens.nextSignificant 0).bind fun index => tokens[index]? := by
  cases search : tokens.nextSignificant 0 with
  | none =>
      refine List.find?_eq_none.mpr fun token member => ?_
      obtain ⟨index, inside, rfl⟩ := List.mem_iff_getElem.mp member
      have here : tokens[0 + index]? = some tokens.toList[index] := by
        rw [Nat.zero_add, ← Array.getElem?_toList, List.getElem?_eq_getElem inside]
      rw [Tokens.firstFrom_none search here]
      exact Bool.false_ne_true
  | some found =>
      obtain ⟨-, token, here, isOne⟩ := Tokens.firstFrom_some search
      rw [Option.bind_some, here]
      obtain ⟨inside, there⟩ := List.getElem?_eq_some_iff.mp
        (Array.getElem?_toList.trans here)
      apply List.find?_eq_some_iff_getElem.mpr
      refine ⟨isOne, found, inside, there, fun other before => ?_⟩
      rw [Tokens.firstFrom_before search other (Nat.zero_le other) before tokens.toList[other]]
      · rfl
      · rw [← Array.getElem?_toList, List.getElem?_eq_getElem]

theorem Tree.isDirective_eq (tree : Tree) (id : NodeId) :
    tree.isDirective id = (tree.node id).isDirective := by
  rw [Tree.isDirective, Node.isDirective, ← Tokens.find?_toList]
  rfl

namespace Tree

/-- The blocks that are open behind some nodes in turn. -/
def blocksBehind (tree : Tree) (ids : List Nat) : List Bool :=
  ids.foldl (fun blocks id => (tree.node id).blocksBehind blocks) []

theorem blocksBehind_snoc (tree : Tree) (ids : List Nat) (id : Nat) :
    tree.blocksBehind (ids ++ [id]) = (tree.node id).blocksBehind (tree.blocksBehind ids) :=
  List.foldl_append

theorem blocksBehind_congr {old new : Tree} {ids : List Nat}
    (same : ∀ id ∈ ids, ∀ blocks,
      (new.node id).blocksBehind blocks = (old.node id).blocksBehind blocks) :
    new.blocksBehind ids = old.blocksBehind ids :=
  List.foldl_ext _ _ _ fun blocks id member => same id member blocks

end Tree

/-! ### Events -/

namespace Event

def blocks : List (List Bool) → Event → List (List Bool)
  | here :: outer, .leaf node _ _ => node.blocksBehind here :: outer
  | ledger, .enter _ _ _ => [] :: ledger
  | ledger, .leave _ _ => ledger.tail
  | ledger, _ => ledger

@[simp]
theorem blocks_enter (ledger : List (List Bool)) (node : Node) (first last : Nat) :
    blocks ledger (.enter node first last) = [] :: ledger := by
  simp [blocks]

@[simp]
theorem blocks_leave (ledger : List (List Bool)) (close : Text) (last : Nat) :
    blocks ledger (.leave close last) = ledger.tail := by
  simp [blocks]

@[simp]
theorem blocks_yields (ledger : List (List Bool)) : blocks ledger .yields = ledger := by
  simp [blocks]

@[simp]
theorem blocks_imports (ledger : List (List Bool)) (entries : List (Text × Text)) :
    blocks ledger (.imports entries) = ledger := by
  simp [blocks]

def Ordered : List (List Bool) → Event → Prop
  | here :: _, .leaf node _ _ => node.Ordered here
  | [], .leaf _ _ _ => True
  | _, .enter _ _ _ | _, .leave _ _ | _, .yields | _, .imports _ => True

def AllOrdered : List (List Bool) → List Event → Prop
  | _, [] => True
  | ledger, event :: rest => event.Ordered ledger ∧ AllOrdered (event.blocks ledger) rest

theorem allOrdered_append {ledger : List (List Bool)} {front back : List Event} :
    AllOrdered ledger (front ++ back) ↔
      AllOrdered ledger front ∧ AllOrdered (front.foldl blocks ledger) back := by
  induction front generalizing ledger with
  | nil => simp [AllOrdered]
  | cons event front ih => rw [List.cons_append, AllOrdered, AllOrdered, ih, and_assoc]; rfl

end Event

def blocksOf (events : List Event) : List (List Bool) := events.foldl Event.blocks [[]]

theorem blocksOf_append (front back : List Event) :
    blocksOf (front ++ back) = back.foldl Event.blocks (blocksOf front) := List.foldl_append

/-! ### Pieces -/

section Pieces

variable {forgot : Bool} {range found : List Token}

theorem Scan.Alike.isBrace {token again : Token} (alike : Alike forgot token again) :
    again.kind.isBrace = token.kind.isBrace ∧
      (token.kind.isBrace = true → again.kind = token.kind) := by
  rcases alike.kind with same | ⟨-, isName, word⟩
  · exact ⟨congrArg TokenKind.isBrace same, fun _ => same⟩
  · have never := TokenKind.ofWord_isSymbol token.text
    rw [← word] at never
    have plain : again.kind.isBrace = false := by
      cases kind : again.kind <;> rw [kind] at never <;> first | rfl | cases never
    rw [isName, plain]
    exact ⟨rfl, fun isOne => by cases isOne⟩

open Scan

theorem bracesOf_of_alike (alike : List.Forall₂ (Alike forgot) range found) :
    Token.bracesOf found = Token.bracesOf range := by
  induction alike with
  | nil => rfl
  | @cons token again range found first _ ih =>
      obtain ⟨same, kind⟩ := first.isBrace
      have here : Token.bracesOf [again] = Token.bracesOf [token] := by
        cases isOne : token.kind.isBrace with
        | true => simp [Token.bracesOf, kind isOne]
        | false => simp [Token.bracesOf, same.trans isOne, isOne]
      have both := congrArg₂ (fun left right => left ++ right) here ih
      rw [← Token.bracesOf_append, ← Token.bracesOf_append] at both
      exact both

theorem forall_dropLast_of_alike (alike : List.Forall₂ (Alike forgot) range found)
    (none : ∀ token ∈ range.dropLast, token.kind.isBrace = false) :
    ∀ token ∈ found.dropLast, token.kind.isBrace = false := by
  induction alike with
  | nil => exact none
  | @cons token again range found first rest ih =>
      cases rest with
      | nil => exact fun _ member => by cases member
      | cons second later =>
          rw [List.dropLast_cons_cons] at none ⊢
          obtain ⟨here, others⟩ := List.forall_mem_cons.mp none
          exact List.forall_mem_cons.mpr ⟨first.isBrace.1.trans here, ih others⟩

theorem find?_of_alike (alike : List.Forall₂ (Alike forgot) range found) :
    (found.find? Tokens.isSignificant).map Token.text =
      (range.find? Tokens.isSignificant).map Token.text := by
  induction alike with
  | nil => rfl
  | @cons token again range found first _ ih =>
      have same : Tokens.isSignificant again = Tokens.isSignificant token := by
        rw [Tokens.isSignificant, Tokens.isSignificant, first.isArrow.1]
      rw [List.find?_cons, List.find?_cons, same]
      split
      · rw [Option.map_some, Option.map_some, first.text]
      · exact ih

end Pieces

def Strays (tokens : List Token) : Prop :=
  ∃ token, tokens.find? Tokens.isSignificant = some token ∧ token.kind = .kwUse ∧
    TokenKind.ofWord token.text = .kwUse

/-- Some tokens have no brace, or they begin with the word of an import statement and no block of a
directive is open in front of them. -/
def Harmless (blocks : List Bool) (tokens : List Token) : Prop :=
  (∀ token ∈ tokens, token.kind.isBrace = false) ∨ Strays tokens ∧ true ∉ blocks

theorem isBrace_of_trivia {token : Token} (isTrivia : Tokens.isSignificant token = false) :
    token.kind.isBrace = false := by
  unfold Tokens.isSignificant at isTrivia
  cases kind : token.kind <;> rw [kind] at isTrivia <;> first | rfl | cases isTrivia

theorem Strays.append {front : List Token} (strays : Strays front) (rest : List Token) :
    Strays (front ++ rest) := by
  obtain ⟨token, found, isUse⟩ := strays
  exact ⟨token, by rw [List.find?_append, found]; rfl, isUse⟩

theorem Harmless.front {blocks : List Bool} {front rest : List Token}
    (harmless : Harmless blocks (front ++ rest)) : Harmless blocks front := by
  rcases harmless with none | ⟨⟨token, found, isUse⟩, noDirective⟩
  · exact .inl fun token member => none token (List.mem_append_left _ member)
  · rw [List.find?_append] at found
    cases first : front.find? Tokens.isSignificant with
    | none =>
        have trivia := List.find?_eq_none.mp first
        exact .inl fun token member =>
          isBrace_of_trivia (Bool.eq_false_iff.mpr (trivia token member))
    | some other =>
        rw [first] at found
        cases found
        exact .inr ⟨⟨token, first, isUse⟩, noDirective⟩

def TokenKind.counted (braces : Nat) (kind : TokenKind) : Nat :=
  if kind = .openBrace then braces + 1 else braces - 1

def Counts (blocks : List Bool) (braces : Nat) : Prop :=
  ∀ depth : Nat, blocks[depth]? = some true → depth < braces

theorem Counts.behind {blocks : List Bool} {braces : Nat} (counts : Counts blocks braces)
    (directive : Bool) (kinds : List TokenKind) :
    Counts (kinds.foldl (TokenKind.blocksBehind directive) blocks)
      (kinds.foldl TokenKind.counted braces) := by
  induction kinds generalizing blocks braces with
  | nil => exact counts
  | cons kind kinds ih =>
      refine ih fun depth isOpen => ?_
      unfold TokenKind.blocksBehind at isOpen
      unfold TokenKind.counted
      split at isOpen
      · next opens =>
          rw [if_pos opens]
          cases depth with
          | zero => exact Nat.succ_pos _
          | succ depth => exact Nat.succ_lt_succ (counts depth isOpen)
      · next closes =>
          rw [if_neg closes]
          rw [List.getElem?_tail] at isOpen
          exact Nat.lt_sub_of_add_lt (counts (depth + 1) isOpen)

theorem Counts.of_none {blocks : List Bool} (none : true ∉ blocks) (braces : Nat) :
    Counts blocks braces := fun _ isOpen => absurd (List.mem_of_getElem? isOpen) none

end PhpWeave
