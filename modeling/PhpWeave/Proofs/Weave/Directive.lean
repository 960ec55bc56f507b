import Mathlib.Algebra.BigOperators.Group.List.Basic
import Mathlib.Algebra.Ring.Int.Defs
import PhpWeave.Proofs.Weave.Isolation

set_option autoImplicit false

/-!
What an isolation leaves of plain code, piece by piece. A piece that begins with the word `declare`
stays, all other pieces are reduced to line feeds, and of those the ones that end in the brace that
closes the block of a directive keep this brace. Where braces stand at the ends of pieces only, the
depth that an isolation counts tells which brace this is.
-/

namespace PhpWeave

open PhpWeave.Tree

/-- A directive as a whole: its word, its parentheses and, as the last token, a semicolon or the
brace that opens its block. -/
def Tokens.isWholeDirective (tokens : Tokens) : Bool :=
  ((tokens.nextSignificant 0).bind fun word =>
    (tokens.nextSignificant (word + 1)).bind fun opening =>
      (tokens.closing .paren opening).toOption.bind fun close =>
        (tokens.nextSignificant (close + 1)).map fun last =>
          last + 1 == tokens.size &&
            (tokens.isAt last .semicolon || tokens.isAt last .openBrace)).getD false

theorem Tokens.isWholeDirective_last {tokens : Tokens} (whole : tokens.isWholeDirective = true) :
    tokens.toList.getLast?.map Token.kind = some .semicolon ∨
      tokens.toList.getLast?.map Token.kind = some .openBrace := by
  unfold isWholeDirective at whole
  obtain ⟨verdict, found, rfl⟩ : ∃ verdict, _ = some verdict ∧ verdict = true := by
    cases search : (tokens.nextSignificant 0).bind _ with
    | none => rw [search] at whole; cases whole
    | some verdict => rw [search] at whole; exact ⟨verdict, search, whole⟩
  obtain ⟨word, -, found⟩ := Option.bind_eq_some_iff.mp found
  obtain ⟨opening, -, found⟩ := Option.bind_eq_some_iff.mp found
  obtain ⟨close, -, found⟩ := Option.bind_eq_some_iff.mp found
  obtain ⟨last, -, found⟩ := Option.map_eq_some_iff.mp found
  rw [Bool.and_eq_true, beq_iff_eq, Bool.or_eq_true] at found
  obtain ⟨size, ends⟩ := found
  have kind : tokens.toList.getLast?.map Token.kind = tokens.kindAt last := by
    rw [List.getLast?_eq_getElem?, Array.length_toList, ← size, Nat.add_sub_cancel, kindAt,
      Array.getElem?_toList]
  rw [kind]
  exact ends.imp eq_of_beq eq_of_beq

namespace Isolation

/-! ### What is left -/

/-- The kind of the last token of a piece of code. -/
def lastKind? (tree : Tree) (id : NodeId) : Option TokenKind :=
  (scan .php (tree.node id).body).getLast?.map Token.kind

/-- The braces of plain code that are open behind a node, innermost first: for each one whether a
directive opened it. -/
def bracesBehind (tree : Tree) (braces : List Bool) (id : NodeId) : List Bool :=
  if (tree.node id).isEditable then
    match lastKind? tree id with
    | some .openBrace => tree.isDirective id :: braces
    | some .closeBrace => braces.tail
    | _ => braces
  else braces

/-- What is left of a piece of plain code behind some open braces. -/
def leftOf (tree : Tree) (braces : List Bool) (id : NodeId) : Text :=
  if tree.isDirective id then (tree.node id).body
  else Text.newlinesOnly (tree.node id).body ++
    if lastKind? tree id = some .closeBrace ∧ braces.head? = some true then ['\x7d'] else []

/-- Whether an isolation lets a node be or looks into it: a tag, an import statement, a namespace or
a function with a name. -/
def stays (node : Node) : Bool :=
  match node.kind with
  | .scope | .imports => true
  | .function => !node.flags.closure
  | .code => node.isTag
  | _ => false

/-- What is told of the text that is left of a node. -/
inductive Remnant where
  | exactly (text : Text)
  | lineFeeds
  | untold

/-- A text is as it is told. -/
def Remnant.Admits : Remnant → Text → Prop
  | .exactly text, found => found = text
  | .lineFeeds, found => ∀ c ∈ found, c = '\n'
  | .untold, _ => True

/-- What is left of a node behind some open braces. -/
def remnantOf (tree : Tree) (braces : List Bool) (id : NodeId) : Remnant :=
  if (tree.node id).isEditable then .exactly (leftOf tree braces id)
  else if stays (tree.node id) then .untold
  else .lineFeeds

/-- What is left of some nodes in turn. -/
def left (tree : Tree) : List Bool → List NodeId → List Remnant
  | _, [] => []
  | braces, id :: rest => remnantOf tree braces id :: left tree (bracesBehind tree braces id) rest

/-- A piece of plain code that has no brace but at its end, and no closing one if it begins with the
word of a directive. -/
structure Tidy (tree : Tree) (id : NodeId) : Prop where
  ends : ∀ token ∈ (scan .php (tree.node id).body).dropLast,
    token.kind ≠ .openBrace ∧ token.kind ≠ .closeBrace
  noClose : tree.isDirective id = true → lastKind? tree id ≠ some .closeBrace

/-- A piece of plain code that has no brace but at its end, and is one whole directive if it begins
with the word of one. -/
structure Clean (tree : Tree) (id : NodeId) : Prop where
  ends : ∀ token ∈ (scan .php (tree.node id).body).dropLast,
    token.kind ≠ .openBrace ∧ token.kind ≠ .closeBrace
  whole : tree.isDirective id = true →
    (Fragment.tokens (tree.node id).body).isWholeDirective = true

/-! ### The depth of plain code -/

def begunAt (base : Int) : List Bool → List Int
  | [] => []
  | directive :: rest =>
    if directive then (base + rest.length) :: begunAt base rest else begunAt base rest

def Tallies (depth : Depth) (braces : List Bool) : Prop :=
  ∃ base : Int, depth = ⟨base + braces.length, begunAt base braces⟩

theorem begunAt_lt {base : Int} {braces : List Bool} :
    ∀ begun ∈ begunAt base braces, begun < base + braces.length := by
  induction braces with
  | nil => exact fun _ none => by cases none
  | cons directive rest ih =>
      have further : ∀ begun ∈ begunAt base rest, begun < base + (directive :: rest).length := by
        intro begun member
        have less := ih begun member
        rw [List.length_cons]
        omega
      intro begun member
      unfold begunAt at member
      split at member
      · rcases List.mem_cons.mp member with rfl | later
        · rw [List.length_cons]
          omega
        · exact further begun later
      · exact further begun member

def weight : TokenKind → Int
  | .openBrace => 1
  | .closeBrace => -1
  | _ => 0

theorem braceBalance_eq_sum (code : Text) :
    braceBalance code = ((scan .php code).map fun token => weight token.kind).sum := by
  have all (tokens : List Token) (balance : Int) : tokens.foldl (fun balance token =>
        match token.kind with
        | .openBrace => balance + 1
        | .closeBrace => balance - 1
        | _ => balance) balance =
      balance + (tokens.map fun token => weight token.kind).sum := by
    induction tokens generalizing balance with
    | nil => exact (Int.add_zero balance).symm
    | cons token rest ih =>
        have here : (match token.kind with
            | .openBrace => balance + 1
            | .closeBrace => balance - 1
            | _ => balance) = balance + weight token.kind := by
          cases token.kind <;> first | rfl | exact (Int.add_zero balance).symm
        rw [List.foldl_cons, here, ih, List.map_cons, List.sum_cons, Int.add_assoc]
  exact (all (scan .php code) 0).trans (Int.zero_add _)

theorem weight_eq_zero {kind : TokenKind} (noBrace : kind ≠ .openBrace ∧ kind ≠ .closeBrace) :
    weight kind = 0 := by
  cases kind <;> first | rfl | exact absurd rfl noBrace.1 | exact absurd rfl noBrace.2

theorem Tidy.braceBalance_eq {tree : Tree} {id : NodeId} (tidy : Tidy tree id) :
    braceBalance (tree.node id).body = ((lastKind? tree id).map weight).getD 0 := by
  have ends := tidy.ends
  rw [braceBalance_eq_sum, lastKind?]
  rcases List.eq_nil_or_concat (scan .php (tree.node id).body) with none | ⟨front, last, split⟩
  · rw [none]
    rfl
  · rw [split, List.concat_eq_append, List.dropLast_concat] at ends
    have flat : (front.map fun token => weight token.kind).sum = 0 :=
      List.sum_eq_zero fun count member => by
        obtain ⟨token, among, rfl⟩ := List.mem_map.mp member
        exact weight_eq_zero (ends token among)
    rw [split, List.concat_eq_append, List.map_append, List.sum_append, flat, Int.zero_add]
    simp

theorem Clean.tidy {tree : Tree} {id : NodeId} (clean : Clean tree id) : Tidy tree id where
  ends := clean.ends
  noClose := by
    intro directive closes
    rcases Tokens.isWholeDirective_last (clean.whole directive) with last | last
    · cases closes.symm.trans last
    · cases closes.symm.trans last

/-! ### The fate of a piece -/

def IsPlain (node : Node) : Prop := node.kind = .code ∧ node.flags.inPhp ∧ ¬ node.isTag

theorem not_isTag_of_isEditable {node : Node} (editable : node.isEditable = true) :
    node.isTag = false := by
  unfold Node.isEditable at editable
  unfold Node.isTag
  rw [Bool.and_eq_true] at editable
  have other : node.flags ≠ Flags.fixedCode := by
    intro same
    rw [same] at editable
    cases editable.2
  simp [other]

theorem kind_of_isTag {node : Node} (isTag : node.isTag = true) : node.kind = .code := by
  unfold Node.isTag at isTag
  simp only [Bool.and_eq_true, decide_eq_true_eq] at isTag
  exact isTag.1.1

theorem isTag_silentTag {node : Node} (isTag : node.isTag = true) (tag : Text) :
    ({ node with body := silentTag tag } : Node).isTag = true := by
  unfold Node.isTag at isTag ⊢
  rw [Bool.and_eq_true] at isTag ⊢
  exact ⟨isTag.1, rfl⟩

theorem isPlain_of_isEditable {node : Node} (editable : node.isEditable = true) : IsPlain node := by
  have other := not_isTag_of_isEditable editable
  unfold Node.isEditable at editable
  simp only [Bool.and_eq_true, decide_eq_true_eq] at editable
  exact ⟨editable.1.1, editable.1.2, fun isTag => by rw [isTag] at other; cases other⟩

theorem stays_of_fateByKind {tree : Tree} {id : NodeId} (other : fateByKind tree id ≠ .clear) :
    stays (tree.node id) = true := by
  unfold fateByKind at other
  unfold stays
  simp only at other
  cases kind : (tree.node id).kind with
  | scope => rfl
  | imports => rfl
  | function =>
      rw [kind] at other
      cases closure : (tree.node id).flags.closure with
      | true => exact absurd (if_pos closure) other
      | false => rfl
  | code =>
      rw [kind] at other
      cases isTag : (tree.node id).isTag with
      | true => rfl
      | false => exact absurd (if_neg (by rw [isTag]; exact Bool.false_ne_true)) other
  | _ =>
      rw [kind] at other
      exact absurd rfl other

theorem fateByKind_plain {tree : Tree} {id : NodeId} (plain : IsPlain (tree.node id)) :
    fateByKind tree id = .clear := by
  unfold fateByKind
  simp only [plain.1, if_neg plain.2.2]

def passing (current : Int) : List Int → Fate × Depth
  | [] => (.clear, ⟨current, []⟩)
  | begun :: outer =>
    if current ≤ begun then (.closeDirective, ⟨current, outer⟩)
    else (.clear, ⟨current, begun :: outer⟩)

theorem passing_above {current : Int} {directives : List Int}
    (above : ∀ begun ∈ directives, begun < current) :
    passing current directives = (.clear, ⟨current, directives⟩) := by
  cases directives with
  | nil => rfl
  | cons begun outer =>
      rw [passing, if_neg (Int.not_le.mpr (above begun List.mem_cons_self))]

theorem fate_of_not_directive {tree : Tree} {id : NodeId} (plain : IsPlain (tree.node id))
    (other : ¬ tree.isDirective id = true) (depth : Depth) :
    fate tree depth id =
      passing (depth.current + braceBalance (tree.node id).body) depth.directives := by
  unfold fate
  simp only [fateByKind_plain plain]
  rw [if_pos (show _ ∧ _ ∧ _ from plain), if_neg other]
  cases depth.directives with
  | nil => rfl
  | cons begun outer => rfl

def fateBehind (tree : Tree) (braces : List Bool) (id : NodeId) : Fate :=
  if tree.isDirective id then .keep
  else if lastKind? tree id = some .closeBrace ∧ braces.head? = some true then .closeDirective
  else .clear

/-- The open braces tell what becomes of a tidy piece, and the depth behind it tells of those that
are open behind it. -/
theorem Tidy.fate {tree : Tree} {id : NodeId} (tidy : Tidy tree id)
    (editable : (tree.node id).isEditable = true) {depth : Depth} {braces : List Bool}
    (tallies : Tallies depth braces) :
    Tallies (fate tree depth id).2 (bracesBehind tree braces id) ∧
      (fate tree depth id).1 = fateBehind tree braces id := by
  obtain ⟨base, rfl⟩ := tallies
  have plain := isPlain_of_isEditable editable
  have balance := tidy.braceBalance_eq
  have behind : bracesBehind tree braces id = match lastKind? tree id with
      | some .openBrace => tree.isDirective id :: braces
      | some .closeBrace => braces.tail
      | _ => braces := if_pos editable
  rw [behind]
  by_cases directive : tree.isDirective id = true
  · unfold Isolation.fate fateBehind
    simp only [balance]
    rw [if_pos (show _ ∧ _ ∧ _ from plain), if_pos directive, if_pos directive]
    refine ⟨⟨base, ?_⟩, rfl⟩
    cases last : lastKind? tree id with
    | none => simp
    | some kind =>
        by_cases opening : kind = .openBrace
        · simp [opening, weight, directive, begunAt, Int.add_assoc]
        · have closing : kind ≠ .closeBrace := fun same => tidy.noClose directive (by rw [last, same])
          rw [Option.map_some, Option.getD_some, weight_eq_zero ⟨opening, closing⟩]
          cases kind <;> first | exact absurd rfl opening | exact absurd rfl closing | simp
  · have clears (stays : ¬ (lastKind? tree id = some .closeBrace ∧ braces.head? = some true)) :
        fateBehind tree braces id = .clear := by
      rw [fateBehind, if_neg directive, if_neg stays]
    rw [fate_of_not_directive plain directive, balance]
    by_cases closing : lastKind? tree id = some .closeBrace
    · rw [closing, Option.map_some, Option.getD_some]
      simp only [weight]
      cases braces with
      | nil => exact ⟨⟨base - 1, by simp [begunAt, passing, Int.sub_eq_add_neg]⟩,
          (clears (by simp)).symm⟩
      | cons begun rest =>
          have behind : base + (begun :: rest).length + -1 = base + rest.length := by
            rw [List.length_cons]
            omega
          rw [behind]
          cases begun with
          | true =>
              have closes : passing (base + rest.length) (begunAt base (true :: rest)) =
                  (.closeDirective, ⟨base + rest.length, begunAt base rest⟩) :=
                if_pos (Int.le_refl _)
              rw [closes, fateBehind, if_neg directive, if_pos ⟨closing, rfl⟩]
              exact ⟨⟨base, rfl⟩, rfl⟩
          | false =>
              have closed : begunAt base (false :: rest) = begunAt base rest := rfl
              rw [closed, passing_above begunAt_lt]
              exact ⟨⟨base, rfl⟩, (clears (by simp)).symm⟩
    · have quiet : ¬ (lastKind? tree id = some .closeBrace ∧ braces.head? = some true) :=
        fun both => closing both.1
      have lower : ∀ begun ∈ begunAt base braces, begun < base + braces.length := begunAt_lt
      by_cases opening : lastKind? tree id = some .openBrace
      · rw [opening, Option.map_some, Option.getD_some]
        simp only [weight]
        rw [passing_above fun begun member => Int.lt_trans (lower begun member) (by omega)]
        refine ⟨⟨base, ?_⟩, (clears quiet).symm⟩
        simp [begunAt, Int.add_assoc, directive]
      · have even : ((lastKind? tree id).map weight).getD 0 = 0 := by
          cases last : lastKind? tree id with
          | none => rfl
          | some kind =>
              rw [last] at opening closing
              exact weight_eq_zero ⟨fun same => opening (congrArg some same),
                fun same => closing (congrArg some same)⟩
        rw [even, Int.add_zero, passing_above lower]
        refine ⟨?_, (clears quiet).symm⟩
        split
        · next same => exact absurd same opening
        · next same => exact absurd same closing
        · exact ⟨base, rfl⟩

/-- What is left of a piece is what becomes of it. -/
theorem leftOf_cases (tree : Tree) (braces : List Bool) (id : NodeId) :
    fateBehind tree braces id = .keep ∧ leftOf tree braces id = (tree.node id).body ∨
      fateBehind tree braces id = .clear ∧
        leftOf tree braces id = Text.newlinesOnly (tree.node id).body ∨
      fateBehind tree braces id = .closeDirective ∧
        leftOf tree braces id = Text.newlinesOnly (tree.node id).body ++ ['\x7d'] := by
  unfold fateBehind leftOf
  split
  · exact .inl ⟨rfl, rfl⟩
  · split
    · exact .inr (.inr ⟨rfl, rfl⟩)
    · exact .inr (.inl ⟨rfl, List.append_nil _⟩)

end Isolation
end PhpWeave
