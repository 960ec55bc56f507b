import PhpWeave.Proofs.Weave.BlockOrder
import PhpWeave.Proofs.Weave.Standing

set_option autoImplicit false

/-!
The braces that an isolation leaves. In each level those of the plain code are left that belong to
the blocks of directives. Where all braces were properly nested, these are too, and a second
isolation finds the same ones again.
-/

namespace PhpWeave

open PhpWeave.Tree

namespace TokenKind

/-- The number of open blocks behind some braces; none when a brace closes none. -/
def openBehind : Nat → List TokenKind → Option Nat
  | count, [] => some count
  | count, kind :: rest =>
    if kind = .openBrace then openBehind (count + 1) rest
    else if count = 0 then none else openBehind (count - 1) rest

/-- Every brace that opens a block has one that closes it, and the other way round. -/
def Nested (kinds : List TokenKind) : Prop := openBehind 0 kinds = some 0

instance (kinds : List TokenKind) : Decidable (Nested kinds) :=
  inferInstanceAs (Decidable (_ = _))

/-- Those braces among some of one piece that belong to the blocks of directives. -/
def ownBraces (directive : Bool) : List Bool → List TokenKind → List TokenKind
  | _, [] => []
  | blocks, kind :: rest =>
    (if (if kind = .openBrace then directive else blocks.headD false) then [kind] else []) ++
      ownBraces directive (kind.blocksBehind directive blocks) rest

theorem openBehind_append (count : Nat) (front back : List TokenKind) :
    openBehind count (front ++ back) =
      (openBehind count front).bind fun inner => openBehind inner back := by
  induction front generalizing count with
  | nil => rfl
  | cons kind front ih =>
      rw [List.cons_append, openBehind, openBehind]
      split
      · exact ih _
      · split
        · rfl
        · exact ih _

/-- Where a brace closes none of directives but one that is open, the braces of directives do. -/
theorem openBehind_ownBraces (directive : Bool) {blocks : List Bool} {kinds : List TokenKind}
    {count : Nat} (nested : openBehind blocks.length kinds = some count) :
    (kinds.foldl (blocksBehind directive) blocks).length = count ∧
      openBehind (blocks.count true) (ownBraces directive blocks kinds) =
        some ((kinds.foldl (blocksBehind directive) blocks).count true) := by
  induction kinds generalizing blocks with
  | nil => exact ⟨Option.some.inj nested, rfl⟩
  | cons kind rest ih =>
      rw [openBehind] at nested
      rw [ownBraces, List.foldl_cons, openBehind_append]
      by_cases opens : kind = .openBrace
      · have behind : kind.blocksBehind directive blocks = directive :: blocks := if_pos opens
        rw [if_pos opens, ← List.length_cons (a := directive)] at nested
        rw [behind, if_pos opens]
        obtain ⟨length, own⟩ := ih nested
        refine ⟨length, ?_⟩
        rw [← own]
        cases directive with
        | true => simp [openBehind, opens]
        | false => simp [openBehind]
      · have behind : kind.blocksBehind directive blocks = blocks.tail := if_neg opens
        rw [if_neg opens] at nested
        rw [behind, if_neg opens]
        cases blocks with
        | nil => cases nested
        | cons block blocks =>
            obtain ⟨length, own⟩ := ih nested
            refine ⟨length, ?_⟩
            rw [List.tail_cons, ← own]
            cases block with
            | true => simp [openBehind, opens]
            | false => simp [openBehind]

end TokenKind

def Node.ownBraces (blocks : List Bool) (node : Node) : List TokenKind :=
  TokenKind.ownBraces node.isDirective blocks node.braces

namespace Tree

/-- The braces of the plain code among some nodes. -/
def bracesOf (tree : Tree) (ids : List NodeId) : List TokenKind :=
  ids.flatMap fun id => (tree.node id).braces

/-- For each of some nodes in turn the braces that belong to the blocks of directives. -/
def ownBraces (tree : Tree) : List Bool → List NodeId → List (List TokenKind)
  | _, [] => []
  | blocks, id :: rest =>
    (tree.node id).ownBraces blocks ::
      tree.ownBraces ((tree.node id).blocksBehind blocks) rest

theorem openBehind_ownBraces (tree : Tree) {blocks : List Bool} {ids : List NodeId} {count : Nat}
    (nested : TokenKind.openBehind blocks.length (tree.bracesOf ids) = some count) :
    ∃ behind : List Bool, behind.length = count ∧
      TokenKind.openBehind (blocks.count true) (tree.ownBraces blocks ids).flatten =
        some (behind.count true) := by
  induction ids generalizing blocks with
  | nil => exact ⟨blocks, Option.some.inj nested, rfl⟩
  | cons id rest ih =>
      rw [bracesOf, List.flatMap_cons, TokenKind.openBehind_append] at nested
      obtain ⟨inner, here, later⟩ := Option.bind_eq_some_iff.mp nested
      obtain ⟨length, own⟩ := TokenKind.openBehind_ownBraces (tree.node id).isDirective here
      rw [← length] at later
      obtain ⟨behind, size, others⟩ := ih later
      refine ⟨behind, size, ?_⟩
      rw [ownBraces, List.flatten_cons, TokenKind.openBehind_append, Node.ownBraces, own,
        Option.bind_some]
      exact others

end Tree

namespace Isolation

variable {tree new : Tree} {id child : NodeId} {depth : Depth} {blocks : List Bool}

/-! ### Pieces with braces at their ends -/

theorem braces_of_ends (editable : (tree.node id).isEditable = true)
    (ends : ∀ token ∈ (scan .php (tree.node id).body).dropLast,
      token.kind ≠ .openBrace ∧ token.kind ≠ .closeBrace) :
    (tree.node id).braces = (lastKind? tree id).toList.filter TokenKind.isBrace := by
  rw [Node.braces, editable, if_pos rfl, lastKind?]
  rcases List.eq_nil_or_concat (scan .php (tree.node id).body) with none | ⟨front, last, split⟩
  · rw [none]
    rfl
  · rw [split, List.concat_eq_append, List.dropLast_concat] at ends
    have none : Token.bracesOf front = [] := Token.bracesOf_eq_nil fun token member => by
      simp [TokenKind.isBrace, ends token member]
    rw [split, List.concat_eq_append, Token.bracesOf_append, none, List.nil_append,
      List.getLast?_concat]
    rfl

theorem bracesBehind_eq (editable : (tree.node id).isEditable = true)
    (ends : ∀ token ∈ (scan .php (tree.node id).body).dropLast,
      token.kind ≠ .openBrace ∧ token.kind ≠ .closeBrace) :
    bracesBehind tree blocks id = (tree.node id).blocksBehind blocks := by
  rw [bracesBehind, if_pos editable, Node.blocksBehind, braces_of_ends editable ends,
    ← tree.isDirective_eq]
  split
  · next last => rw [last]; rfl
  · next last => rw [last]; rfl
  · next noOpen noClose =>
      cases last : lastKind? tree id with
      | none => rfl
      | some kind =>
          have quiet : kind.isBrace = false := by
            simp only [TokenKind.isBrace, Bool.or_eq_false_iff, decide_eq_false_iff_not]
            exact ⟨fun same => noOpen (by rw [last, same]),
              fun same => noClose (by rw [last, same])⟩
          simp [quiet]

def ownBlocks (blocks : List Bool) : List Bool := blocks.filter fun directive => directive

theorem ownBlocks_of_none (none : true ∉ blocks) : ownBlocks blocks = [] :=
  List.filter_eq_nil_iff.mpr fun _ member isOwn => none (isOwn ▸ member)

theorem begunAt_of_none (none : true ∉ blocks) (base : Int) : begunAt base blocks = [] := by
  induction blocks with
  | nil => rfl
  | cons block rest ih =>
      obtain ⟨here, later⟩ := not_or.mp (List.mem_cons.not.mp none)
      rw [begunAt, if_neg fun isOwn => here isOwn.symm, ih later]

theorem ownBraces_of_none (none : true ∉ blocks) (kinds : List TokenKind) :
    TokenKind.ownBraces false blocks kinds = [] := by
  induction kinds generalizing blocks with
  | nil => rfl
  | cons kind rest ih =>
      have head : blocks.headD false = false := by
        cases blocks with
        | nil => rfl
        | cons _ blocks => exact Bool.eq_false_iff.mpr fun isOwn => none (isOwn ▸ .head _)
      rw [TokenKind.ownBraces, head, ite_self, ih (TokenKind.blocksBehind_false none kind)]
      rfl

theorem brace_cases (last : Option TokenKind) :
    last = some .openBrace ∨ last = some .closeBrace ∨
      last.toList.filter TokenKind.isBrace = [] := by
  cases last with
  | none => exact .inr (.inr rfl)
  | some kind =>
      by_cases isBrace : kind.isBrace = true
      · simp only [TokenKind.isBrace, Bool.or_eq_true, decide_eq_true_eq] at isBrace
        rcases isBrace with rfl | rfl
        · exact .inl rfl
        · exact .inr (.inl rfl)
      · exact .inr (.inr (List.filter_eq_nil_iff.mpr fun other member => by
          rw [Option.mem_toList.mp member |> Option.some.inj |>.symm]
          exact isBrace))

/-- What becomes of a piece of plain code, told by its braces. -/
inductive Outcome (tree : Tree) (blocks : List Bool) (id : NodeId) : Fate → Prop where
  | keep (directive : tree.isDirective id = true) (tidy : Tidy tree id)
      (own : (tree.node id).ownBraces blocks = (tree.node id).braces)
      (behind : ownBlocks ((tree.node id).blocksBehind blocks) =
        (tree.node id).blocksBehind (ownBlocks blocks)) : Outcome tree blocks id .keep
  | close (outer : List Bool) (isOpen : blocks = true :: outer)
      (own : (tree.node id).ownBraces blocks = [.closeBrace])
      (behind : (tree.node id).blocksBehind blocks = outer) : Outcome tree blocks id .closeDirective
  | clear (own : (tree.node id).ownBraces blocks = [])
      (behind : ownBlocks ((tree.node id).blocksBehind blocks) = ownBlocks blocks) :
      Outcome tree blocks id .clear

section Tidy

variable (editable : (tree.node id).isEditable = true) (tidy : Tidy tree id)
include editable tidy

theorem ownBraces_of_tidy {directive : Bool} (own : tree.isDirective id = directive) :
    (tree.node id).ownBraces blocks = TokenKind.ownBraces directive blocks
      ((lastKind? tree id).toList.filter TokenKind.isBrace) := by
  rw [Node.ownBraces, braces_of_ends editable tidy.ends, ← tree.isDirective_eq, own]

theorem blocksBehind_of_tidy {directive : Bool} (own : tree.isDirective id = directive) :
    (tree.node id).blocksBehind blocks =
      ((lastKind? tree id).toList.filter TokenKind.isBrace).foldl
        (TokenKind.blocksBehind directive) blocks := by
  rw [Node.blocksBehind, braces_of_ends editable tidy.ends, ← tree.isDirective_eq, own]

theorem outcome_of_directive (own : tree.isDirective id = true) (blocks : List Bool) :
    Outcome tree blocks id .keep := by
  have braces := braces_of_ends editable tidy.ends
  rcases brace_cases (lastKind? tree id) with last | last | none
  · apply Outcome.keep own tidy
    · rw [ownBraces_of_tidy editable tidy own, braces, last]
      rfl
    · rw [blocksBehind_of_tidy editable tidy own, blocksBehind_of_tidy editable tidy own, last]
      rfl
  · exact absurd last (tidy.noClose own)
  · apply Outcome.keep own tidy
    · rw [ownBraces_of_tidy editable tidy own, braces, none]
      rfl
    · rw [blocksBehind_of_tidy editable tidy own, blocksBehind_of_tidy editable tidy own, none]
      rfl

theorem outcome_of_close (own : tree.isDirective id = false)
    (last : lastKind? tree id = some .closeBrace) {outer : List Bool} :
    Outcome tree (true :: outer) id .closeDirective := by
  apply Outcome.close outer rfl
  · rw [ownBraces_of_tidy editable tidy own, last]
    rfl
  · rw [blocksBehind_of_tidy editable tidy own, last]
    rfl

theorem outcome_of_clear (own : tree.isDirective id = false)
    (stays : lastKind? tree id = some .closeBrace → blocks.head? ≠ some true) :
    Outcome tree blocks id .clear := by
  rcases brace_cases (lastKind? tree id) with last | last | none
  · apply Outcome.clear
    · rw [ownBraces_of_tidy editable tidy own, last]
      rfl
    · rw [blocksBehind_of_tidy editable tidy own, last]
      rfl
  · -- The block that is closed is none of a directive.
    have inner : blocks.headD false = false ∧ ownBlocks blocks.tail = ownBlocks blocks := by
      cases blocks with
      | nil => exact ⟨rfl, rfl⟩
      | cons block outer =>
          cases block with
          | true => exact absurd rfl (stays last)
          | false => exact ⟨rfl, rfl⟩
    apply Outcome.clear
    · rw [ownBraces_of_tidy editable tidy own, last]
      change (if blocks.headD false = true then _ else _) ++ _ = _
      rw [inner.1]
      rfl
    · rw [blocksBehind_of_tidy editable tidy own, last]
      exact inner.2
  · apply Outcome.clear
    · rw [ownBraces_of_tidy editable tidy own, none]
      rfl
    · rw [blocksBehind_of_tidy editable tidy own, none]
      rfl

theorem outcome_of_tidy (blocks : List Bool) :
    Outcome tree blocks id (fateBehind tree blocks id) := by
  unfold fateBehind
  by_cases own : tree.isDirective id = true
  · rw [if_pos own]
    exact outcome_of_directive editable tidy own blocks
  · have other := eq_false_of_ne_true own
    rw [if_neg own]
    by_cases closes : lastKind? tree id = some .closeBrace ∧ blocks.head? = some true
    · rw [if_pos closes]
      obtain ⟨last, isOpen⟩ := closes
      obtain ⟨outer, rfl⟩ := List.head?_eq_some_iff.mp isOpen
      exact outcome_of_close editable tidy other last
    · rw [if_neg closes]
      exact outcome_of_clear editable tidy other fun last isOpen => closes ⟨last, isOpen⟩

end Tidy

/-- A piece becomes what its braces say, and the depth tells of the blocks behind it. -/
theorem outcome_of_ordered (editable : (tree.node id).isEditable = true)
    (tallies : Tallies depth blocks) (ordered : (tree.node id).Ordered blocks)
    (noClose : tree.isDirective id = true → .closeBrace ∉ (tree.node id).braces) :
    Tallies (fate tree depth id).2 ((tree.node id).blocksBehind blocks) ∧
      Outcome tree blocks id (fate tree depth id).1 := by
  rcases ordered editable with atEnd | ⟨other, none⟩
  · have ends : ∀ token ∈ (scan .php (tree.node id).body).dropLast,
        token.kind ≠ .openBrace ∧ token.kind ≠ .closeBrace := by
      intro token member
      have quiet := atEnd token member
      simpa [TokenKind.isBrace] using quiet
    have tidy : Tidy tree id := ⟨ends, fun directive last => noClose directive (by
      rw [braces_of_ends editable ends, last]
      exact List.mem_cons_self)⟩
    obtain ⟨behind, fated⟩ := tidy.fate editable tallies
    rw [bracesBehind_eq editable ends] at behind
    exact ⟨behind, fated ▸ outcome_of_tidy editable tidy blocks⟩
  · obtain ⟨base, rfl⟩ := tallies
    have notDirective : ¬ tree.isDirective id = true := by
      rw [tree.isDirective_eq, other]
      exact Bool.false_ne_true
    have behind := Node.blocksBehind_of_not_directive other none
    rw [fate_of_not_directive (isPlain_of_isEditable editable) notDirective,
      begunAt_of_none none]
    refine ⟨⟨base + blocks.length + braceBalance (tree.node id).body -
      ((tree.node id).blocksBehind blocks).length, ?_⟩, .clear ?_ ?_⟩
    · rw [begunAt_of_none behind, Int.sub_add_cancel]
      rfl
    · rw [Node.ownBraces, other, ownBraces_of_none none]
    · rw [ownBlocks_of_none behind, ownBlocks_of_none none]

/-! ### What is left of a level -/

structure Rests (tree new : Tree) (blocks : List Bool) (id child : NodeId) : Prop where
  braces : (new.node child).braces = (tree.node id).ownBraces blocks
  steady : ∀ rest, Steady new (ownBlocks ((tree.node id).blocksBehind blocks)) rest →
    Steady new (ownBlocks blocks) (child :: rest)

theorem IsPut.isRest {code blank : Text} (isPut : IsPut tree new child code)
    (isBlank : Text.IsBlank blank) {closes : Bool}
    (same : code = blank ++ if closes then ['\x7d'] else []) : (new.node child).IsRest closes where
  editable := isPut.property Node.isEditable fun _ => rfl
  body := ⟨blank, isBlank, (isPut.property Node.body fun _ => rfl).trans same⟩

theorem IsPut.isRest_of_newlines {code : Text}
    (isPut : IsPut tree new child (Text.newlinesOnly code)) : (new.node child).IsRest false :=
  isPut.isRest (Text.isBlank_newlinesOnly code) (List.append_nil _).symm

theorem rests_of_rest {closes : Bool} (isRest : (new.node child).IsRest closes)
    (own : (tree.node id).ownBraces blocks = if closes then [.closeBrace] else [])
    (isOpen : closes = true → (ownBlocks blocks).head? = some true)
    (behind : ownBlocks ((tree.node id).blocksBehind blocks) =
      if closes then (ownBlocks blocks).tail else ownBlocks blocks) :
    Rests tree new blocks id child where
  braces := isRest.braces.trans own.symm
  steady := fun rest steady => by
    refine .piece isRest.editable (tidy_of_rest isRest) (leftOf_of_rest isRest isOpen) ?_
    rw [bracesBehind_of_rest isRest, ← behind]
    exact steady

theorem rests_of_outcome {fated : Fate} (editable : (tree.node id).isEditable = true)
    (outcome : Outcome tree blocks id fated) (becomes : Becomes tree new id child fated) :
    Rests tree new blocks id child := by
  cases outcome with
  | keep directive tidy own behind =>
      obtain ⟨rfl, agrees⟩ := becomes
      have here := agrees child (.inl rfl)
      have still : (new.node child).isEditable = true :=
        (here.property Node.isEditable fun _ => rfl).trans editable
      have body : (new.node child).body = (tree.node child).body :=
        here.property Node.body fun _ => rfl
      have word : new.isDirective child = true := by
        rw [new.isDirective_eq, here.property Node.isDirective fun _ => rfl, ← tree.isDirective_eq]
        exact directive
      have last : lastKind? new child = lastKind? tree child := by rw [lastKind?, body, lastKind?]
      have tidyNew : Tidy new child :=
        ⟨by rw [body]; exact tidy.ends, fun _ => by rw [last]; exact tidy.noClose directive⟩
      constructor
      · rw [own]
        exact here.property Node.braces fun _ => rfl
      · intro rest steady
        refine .piece still tidyNew (if_pos word) ?_
        rw [bracesBehind_eq still tidyNew.ends,
          Node.blocksBehind_congr (still.trans editable.symm) body,
          ← behind]
        exact steady
  | close outer isOpen own behind =>
      have isRest : (new.node child).IsRest true :=
        IsPut.isRest becomes (Text.isBlank_newlinesOnly _) rfl
      refine rests_of_rest isRest own (fun _ => by rw [isOpen]; rfl) ?_
      rw [behind, isOpen]
      rfl
  | clear own behind =>
      exact rests_of_rest (IsPut.isRest_of_newlines becomes) own (fun none => by cases none) behind

theorem not_isPlain_congr (same : (new.node child).unlinked = (tree.node id).unlinked)
    (plain : ¬ IsPlain (tree.node id)) : ¬ IsPlain (new.node child) := by
  unfold IsPlain at plain ⊢
  rw [Node.property_eq Node.kind (fun _ => rfl) same,
    Node.property_eq Node.flags (fun _ => rfl) same,
    Node.property_eq Node.isTag (fun _ => rfl) same]
  exact plain

section Other

variable (plain : ¬ IsPlain (tree.node id))
include plain

theorem not_editable_of_other : (tree.node id).isEditable = false :=
  eq_false_of_ne_true fun editable => plain (isPlain_of_isEditable editable)

theorem ownBraces_of_other : (tree.node id).ownBraces blocks = [] := by
  rw [Node.ownBraces, Node.braces_of_fixed (not_editable_of_other plain)]
  rfl

theorem blocksBehind_of_other : (tree.node id).blocksBehind blocks = blocks :=
  Node.blocksBehind_of_fixed (not_editable_of_other plain)

theorem rests_of_stands (still : (new.node child).isEditable = false) (stands : Stands new child) :
    Rests tree new blocks id child := by
  constructor
  · rw [ownBraces_of_other plain, Node.braces_of_fixed still]
  · intro rest steady
    rw [blocksBehind_of_other plain] at steady
    exact .other stands steady

theorem rests_of_same (same : (new.node child).unlinked = (tree.node id).unlinked)
    (stays : fateByKind new child = .keep ∨ (new.node child).kind = .scope) :
    Rests tree new blocks id child := by
  have still := (Node.property_eq Node.isEditable (fun _ => rfl) same).trans
    (not_editable_of_other plain)
  exact rests_of_stands plain still ⟨not_isPlain_congr same plain, stays⟩

theorem rests_of_silence (isTag : (tree.node id).isTag = true)
    (silent : (new.node child).unlinked =
      { tree.node id with body := silentTag (tree.node id).body }.unlinked) :
    Rests tree new blocks id child := by
  have tagNew : (new.node child).isTag = true :=
    (Node.property_eq Node.isTag (fun _ => rfl) silent).trans (isTag_silentTag isTag _)
  have body : (new.node child).body = silentTag (tree.node id).body :=
    Node.property_eq Node.body (fun _ => rfl) silent
  have still : (new.node child).isEditable = false := Bool.eq_false_iff.mpr fun editable => by
    rw [not_isTag_of_isEditable editable] at tagNew
    cases tagNew
  refine rests_of_stands plain still ⟨fun plainNew => plainNew.2.2 tagNew, .inl ?_⟩
  simp only [fateByKind, kind_of_isTag tagNew, tagNew, if_true, body]
  rfl

theorem rests_of_other (becomes : Becomes tree new id child (fate tree depth id).1) :
    Rests tree new blocks id child := by
  rw [fate_of_not_plain plain] at becomes
  cases fated : fateByKind tree id with
  | keep =>
      simp only [fated] at becomes
      obtain ⟨rfl, agrees⟩ := becomes
      have here := (agrees child (.inl rfl)).2
      have same := congrArg Prod.fst (fate_congr here {})
      rw [fate_of_not_plain (not_isPlain_congr here plain), fate_of_not_plain plain] at same
      exact rests_of_same plain here (.inl (same.trans fated))
  | descend =>
      have descends : (fate tree depth id).1 = .descend := by
        rw [fate_of_not_plain plain]
        exact fated
      simp only [fated] at becomes
      obtain ⟨rfl, here⟩ := becomes
      have isScope := (Node.property_eq Node.kind (fun _ => rfl) here).trans
        (scope_of_descend descends)
      exact rests_of_same plain here (.inr isScope)
  | silence =>
      obtain ⟨isTag, -⟩ := fateByKind_silence fated
      simp only [fated] at becomes
      obtain ⟨rfl, -, here⟩ := becomes
      exact rests_of_silence plain isTag here
  | clear =>
      simp only [fated] at becomes
      apply rests_of_rest (IsPut.isRest_of_newlines becomes) (ownBraces_of_other plain)
      · intro none
        cases none
      · rw [blocksBehind_of_other plain]
        rfl
  | closeDirective => exact absurd fated (fateByKind_ne_closeDirective id)

end Other

theorem rests_of_settles {settled : Depth} {feeds level : Nat} (lined : tree.Lined feeds)
    (code : ∀ id < tree.size, (tree.node id).kind = .code →
      (tree.node id).isEditable = true ∨ (tree.node id).flags.inPhp = false ∨
        (tree.node id).isTag = true)
    (orderly : tree.Orderly)
    (noClose : ∀ id ∈ tree.children level, tree.isDirective id = true →
      .closeBrace ∉ (tree.node id).braces)
    {front ids children : List Nat} (split : tree.children level = front ++ ids)
    (settles : Settles tree new settled ids children)
    (tallies : Tallies settled (tree.blocksBehind front)) :
    children.map (fun child => (new.node child).braces) =
        tree.ownBraces (tree.blocksBehind front) ids ∧
      Steady new (ownBlocks (tree.blocksBehind front)) children := by
  induction settles generalizing front with
  | nil depth => exact ⟨rfl, .nil _⟩
  | @cons depth id child rest later becomes settles ih =>
      have member : id ∈ tree.children level := by
        rw [split]
        exact List.mem_append_right _ List.mem_cons_self
      have inside := (lined.linked.ascending.children level id member).2
      have further : tree.children level = (front ++ [id]) ++ rest := by
        rw [split, List.append_assoc, List.singleton_append]
      obtain ⟨behind, rests⟩ : Tallies (fate tree depth id).2 (tree.blocksBehind (front ++ [id])) ∧
          Rests tree new (tree.blocksBehind front) id child := by
        rw [tree.blocksBehind_snoc]
        by_cases plain : IsPlain (tree.node id)
        · have editable := (isPlain_iff (code id inside)).mp plain
          obtain ⟨behind, outcome⟩ := outcome_of_ordered editable tallies
            (orderly level front id rest split) (noClose id member)
          exact ⟨behind, rests_of_outcome editable outcome becomes⟩
        · rw [fate_of_not_plain plain, blocksBehind_of_other plain]
          exact ⟨tallies, rests_of_other plain becomes⟩
      obtain ⟨braces, steady⟩ := ih further behind
      rw [tree.blocksBehind_snoc] at braces steady
      rw [List.map_cons, braces, rests.braces]
      exact ⟨rfl, rests.steady later steady⟩

/-- In each level all braces are properly nested, and no directive has a closing one. -/
def Nests (tree : Tree) : Prop :=
  ∀ level ∈ tree.preorder root, IsLevel tree level →
    TokenKind.Nested (tree.bracesOf (tree.children level)) ∧
      ∀ id ∈ tree.children level, tree.isDirective id = true → .closeBrace ∉ (tree.node id).braces

instance (tree : Tree) : Decidable (Nests tree) :=
  inferInstanceAs (Decidable (∀ level ∈ tree.preorder root, _))

section Parsed

variable {listLines : Bool} {source : Text} {tree : Tree}
  (parsed : parse listLines source = .ok tree)
include parsed

theorem isLevel_iff (level : NodeId) :
    IsLevel tree level ↔ LevelUnder (isolate tree) root level := by
  have lined := (native_of_parse parsed).lined
  constructor
  · exact fun isLevel => (level_isolate lined (levelUnder_of_parse parsed isLevel)).1
  · intro isLevel
    rcases (levelUnder_of_isolate lined isLevel).last_cases with isRoot | ⟨outer, -, -, isScope⟩
    · exact .inl isRoot
    · exact .inr isScope

variable (nests : Nests tree)
include nests

theorem rests_of_parse {level : NodeId} (isLevel : IsLevel tree level) :
    ((isolate tree).children level).map (fun child => ((isolate tree).node child).braces) =
        tree.ownBraces [] (tree.children level) ∧
      Steady (isolate tree) [] ((isolate tree).children level) := by
  have lined := (native_of_parse parsed).lined
  exact rests_of_settles lined (fun _ inside isCode => code_of_parse parsed inside isCode)
    (orderly_of_parse parsed) (nests level (mem_preorder_of_isLevel parsed isLevel) isLevel).2
    (List.nil_append _).symm (settles_isolate lined (levelUnder_of_parse parsed isLevel)) ⟨0, rfl⟩

/-- What an isolation leaves of the braces, for every source with a tree in which the braces of the
plain code are properly nested, level by level, and no directive has a closing one. The levels are
the same. In each, every child has those of its braces left that belong to the block of a directive,
so the braces that are left are properly nested again; and a second isolation changes no text. -/
theorem nested_of_parse :
    (∀ level, IsLevel tree level ↔ LevelUnder (isolate tree) root level) ∧
      (∀ level, IsLevel tree level →
        TokenKind.Nested ((isolate tree).bracesOf ((isolate tree).children level)) ∧
          ((isolate tree).children level).map (fun child => ((isolate tree).node child).braces) =
            tree.ownBraces [] (tree.children level)) ∧
      (isolate (isolate tree)).source = (isolate tree).source := by
  refine ⟨isLevel_iff parsed, fun level isLevel => ?_, ?_⟩
  · have own := (rests_of_parse parsed nests isLevel).1
    have nested := (nests level (mem_preorder_of_isLevel parsed isLevel) isLevel).1
    refine ⟨?_, own⟩
    have start : TokenKind.openBehind ([] : List Bool).length
        (tree.bracesOf (tree.children level)) = some 0 := nested
    obtain ⟨behind, none, openBehind⟩ := tree.openBehind_ownBraces start
    rw [List.length_eq_zero_iff.mp none, ← own, ← List.flatMap_def] at openBehind
    exact openBehind
  · apply source_isolate_of_steady (lined_isolate (native_of_parse parsed).lined)
    intro level isLevel
    exact (rests_of_parse parsed nests ((isLevel_iff parsed level).mpr isLevel)).2

end Parsed

/-- Directives with blocks in a namespace, one of them in a block that is none of a directive. -/
theorem nested_of_parse_namespace :
    let source := "<?php namespace A \x7b declare(ticks=1) \x7b if ($a) \x7b f(); \x7d " ++
      "function g() \x7b\x7d \x7d if ($b) \x7b declare(ticks=2) \x7b h(); \x7d \x7d \x7d"
    ∃ tree, parse false source.toList = .ok tree ∧ Nests tree ∧ (tree.node 2).kind = .scope ∧
      (isolate tree).source =
        ("<?php namespace A \x7b declare(ticks=1) \x7bfunction g() \x7b\x7d\x7d " ++
          "declare(ticks=2) \x7b\x7d\x7d").toList ∧
      TokenKind.Nested ((isolate tree).bracesOf ((isolate tree).children 2)) ∧
      (isolate (isolate tree)).source = (isolate tree).source := by
  intro source
  have whole : (parse false source.toList).toOption.map (fun tree =>
      decide (Nests tree ∧ (tree.node 2).kind = .scope ∧ (isolate tree).source =
        ("<?php namespace A \x7b declare(ticks=1) \x7bfunction g() \x7b\x7d\x7d " ++
          "declare(ticks=2) \x7b\x7d\x7d").toList)) =
        some true := by
    decide +kernel
  cases parsed : parse false source.toList with
  | error fault =>
      rw [parsed] at whole
      cases whole
  | ok tree =>
      rw [parsed] at whole
      obtain ⟨nests, isScope, kept⟩ := of_decide_eq_true (Option.some.inj whole)
      obtain ⟨-, each, again⟩ := nested_of_parse parsed nests
      exact ⟨tree, rfl, nests, isScope, kept, (each 2 (.inr isScope)).1, again⟩

end Isolation

end PhpWeave
