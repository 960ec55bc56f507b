import Mathlib.Data.List.TakeWhile
import PhpWeave.Proofs.Grammar.Statement
import PhpWeave.Proofs.Weave.Declaration

set_option autoImplicit false

/-!
Heads of blocks: the children in front of the place where a redirection puts assignments. In a
function there are none, in a namespace they are leading ones with fillers between them, and in the
file these stand behind the first tag that opens code. Where the directives among them are whole
and refer to nothing, a statement begins behind the head, and nothing in it is redirected.
-/

namespace PhpWeave

open Scan Lexeme PhpWeave.Tree

/-! ### Blank code -/

theorem Text.blank_of_trim {text : Text} (empty : Text.trim text = []) :
    ∀ c ∈ text, Text.isBlank c = true := by
  have inner : ∀ c ∈ text.dropWhile Text.isBlank, Text.isBlank c = true := fun c member =>
    List.dropWhile_eq_nil_iff.mp (List.reverse_eq_nil_iff.mp empty) c (List.mem_reverse.mpr member)
  intro c member
  rw [← List.takeWhile_append_dropWhile (p := Text.isBlank) (l := text)] at member
  exact (List.mem_append.mp member).elim (fun early => List.mem_takeWhile_imp early) (inner c)

namespace Scan

theorem isSpace_of_isBlank {c : Char} (blank : Text.isBlank c = true) :
    isSpace c = true ∨ 0x80 ≤ c.val := by
  rcases Nat.lt_or_ge c.toNat 128 with small | wide
  · have all : ∀ code < 128, Text.isBlank (Char.ofNat code) = true →
        isSpace (Char.ofNat code) = true := by decide
    exact .inl (Char.ofNat_toNat c ▸ all c.toNat small (by rwa [Char.ofNat_toNat]))
  · exact .inr wide

theorem ofWord_of_wide {c : Char} {rest : Text} (wide : 0x80 ≤ c.val) :
    TokenKind.ofWord (c :: rest) = .identifier := by
  refine (TokenKind.ofWord_cases _).resolve_right fun member => ?_
  have all : ∀ entry ∈ TokenKind.keywords,
      (entry.1.all fun first => first.toNat < 0x80) = true := by decide
  have small := of_decide_eq_true (List.all_eq_true.mp (all _ member) c.toLower
    (List.mem_map_of_mem List.mem_cons_self))
  have kept : c.toLower = c := by
    refine dif_neg fun capital => ?_
    have below := UInt32.le_iff_toNat_le.mp capital.2
    have above := UInt32.le_iff_toNat_le.mp wide
    exact absurd (Nat.le_trans above below) (by decide)
  rw [kept] at small
  exact Nat.not_lt.mpr (UInt32.le_iff_toNat_le.mp wide) small

theorem name_of_noSeparator {text : Text} (none : '\\' ∉ text) :
    name text = (text.takeWhile isNameChar).length := by
  induction text with
  | nil => rfl
  | cons c rest ih =>
      obtain ⟨here, later⟩ := List.ne_and_not_mem_of_not_mem_cons none
      rw [name, List.takeWhile_cons]
      by_cases isOne : isNameChar c = true
      · rw [if_pos (by rw [isOne]; rfl), if_pos isOne, ih later, List.length_cons, Nat.add_comm]
      · rw [if_neg (by simpa [isOne] using fun same => absurd same.symm here), if_neg isOne]
        rfl

/-- Blank code holds nothing but white space and words beyond ASCII. -/
theorem kind_of_blank {state : State} (php : state.mode = .php) {text : Text}
    (blank : ∀ c ∈ text, Text.isBlank c = true) {tokens : List Token}
    (cut : tokensFrom state text = tokens) :
    ∀ token ∈ tokens, token.kind = .whitespace ∨ token.kind = .identifier := by
  induction tokens generalizing state text with
  | nil => exact fun _ none => by cases none
  | cons token tokens ih =>
      have nonempty : text ≠ [] := by
        rintro rfl
        cases cut
      rw [tokensFrom_step state nonempty, List.cons.injEq] at cut
      obtain ⟨rfl, later⟩ := cut
      obtain ⟨c, rest, rfl⟩ := List.exists_cons_of_ne_nil nonempty
      have kind : (state.token (c :: rest)).kind = .whitespace ∨
          (state.token (c :: rest)).kind = .identifier := by
        rw [State.token, State.lexeme, php]
        rcases isSpace_of_isBlank (blank c List.mem_cons_self) with space | wide
        · exact .inl (congrArg Prod.fst (Rule.space c rest space).phpLexeme_eq)
        · have begins : isNameStart c = true := by
            rw [isNameStart, decide_eq_true wide, Bool.or_true]
          have isOne : isNameChar c = true := by
            rw [isNameChar, begins]
            rfl
          have none : '\\' ∉ c :: rest := fun among => absurd (blank _ among) (by decide)
          refine .inr ((congrArg Prod.fst (Rule.name c rest begins).phpLexeme_eq).trans ?_)
          rw [nameKind, name_of_noSeparator none]
          simp only [Nat.lt_irrefl, reduceIte, List.takeWhile_cons, isOne]
          split
          · rfl
          · exact ofWord_of_wide wide
      have goesOn : (state.after (state.token (c :: rest))).mode = .php := by
        rcases kind with isOne | isOne <;> rw [State.after, isOne] <;> exact php
      intro one member
      rcases List.mem_cons.mp member with rfl | among
      · exact kind
      · exact ih goesOn (fun d inside => blank d (List.mem_of_mem_drop inside)) later one among

end Scan

/-! ### Whole statements -/

/-- The parentheses that tokens of some kinds leave open. -/
def openParens (kinds : List TokenKind) : Nat :=
  kinds.foldl (fun depth kind => parensAfter kind depth) 0

/-- Whether some kinds close all of the parentheses around them, `depth` in number, and then open a
brace and end. -/
def closesInto : Nat → List TokenKind → Bool
  | _, [] => false
  | depth, kind :: rest =>
    let after := parensAfter kind depth
    if after = 0 then rest == [.openBrace] else closesInto after rest

namespace Fragment

def kinds (code : Text) : List TokenKind :=
  ((tokens code).toList.filter Tokens.isSignificant).map Token.kind

/-- Whether a code is cut where a statement ends: it closes its parentheses and ends in a semicolon,
or it is a word, a group in parentheses and the brace that opens a block. -/
def isWhole (code : Text) : Bool :=
  openParens (kinds code) = 0 && ((kinds code).getLast? == some .semicolon ||
    match kinds code with
    | .identifier :: .openParen :: rest => closesInto 1 rest
    | _ => false)

theorem mem_kinds {code : Text} {kind : TokenKind} (member : kind ∈ kinds code) :
    ∃ token ∈ scan .php code, token.kind = kind := by
  obtain ⟨token, among, same⟩ := List.mem_map.mp member
  rw [tokens, List.toList_toArray] at among
  exact ⟨token, (List.mem_filter.mp among).1, same⟩

end Fragment

theorem openParens_of_plain {kinds : List TokenKind}
    (plain : ∀ kind ∈ kinds, kind.isParen = false) : openParens kinds = 0 := by
  refine List.foldlRecOn kinds _ (motive := (· = 0)) rfl fun depth none kind member => ?_
  have other := plain kind member
  unfold parensAfter
  split
  · next opens => rw [opens] at other; cases other
  · rw [none]
    split <;> rfl

theorem openParens_flatMap {α : Type} {each : α → List TokenKind} {list : List α}
    (closed : ∀ one ∈ list, openParens (each one) = 0) : openParens (list.flatMap each) = 0 := by
  rw [openParens, List.foldl_flatMap]
  refine List.foldlRecOn list _ (motive := (· = 0)) rfl fun depth none one member => ?_
  rw [none]
  exact closed one member

namespace Fragment

theorem IsStatement.isWhole {code : Text} (isStatement : IsStatement code) :
    isWhole code = true := by
  have closed : openParens (kinds code) = 0 := openParens_of_plain fun kind member => by
    obtain ⟨token, among, same⟩ := mem_kinds member
    exact same ▸ isStatement.plain token among
  obtain ⟨last, found, isSemicolon⟩ := Option.map_eq_some_iff.mp isStatement.ends
  obtain ⟨before, split⟩ := List.getLast?_eq_some_iff.mp found
  have significant : Tokens.isSignificant last = true := by
    rw [Tokens.isSignificant, isSemicolon]
    rfl
  have ends : (kinds code).getLast? = some .semicolon := by
    rw [kinds, tokens, List.toList_toArray, split, List.filter_append, List.filter_cons,
      if_pos significant, List.filter_nil, List.map_append, List.map_singleton,
      List.getLast?_concat, isSemicolon]
  rw [Fragment.isWhole, closed, ends]
  rfl

theorem kinds_of_blank {code : Text} (blank : Text.trim code = []) {index : Nat}
    {kind : TokenKind} (here : (tokens code).kindAt index = some kind) :
    kind = .whitespace ∨ kind = .identifier := by
  obtain ⟨token, found, rfl⟩ := Tokens.kindAt_eq_some.mp here
  refine Scan.kind_of_blank (show (State.start .php).mode = .php from rfl)
    (Text.blank_of_trim blank) (Scan.scan_eq .php code).symm token ?_
  rw [← Array.getElem?_toList, tokens, List.toList_toArray] at found
  exact List.mem_of_getElem? found

end Fragment

namespace Redirection

variable {redirection : Redirection} {tree : Tree}

theorem use?_of_blank {code : Text} (blank : Text.trim code = []) (index : Nat) :
    Reference.use? (Fragment.tokens code) index = none := by
  have absent (place : Nat) (kind : TokenKind) (isOne : kind ≠ .whitespace ∧ kind ≠ .identifier) :
      (Fragment.tokens code).kindAt place ≠ some kind := fun here =>
    (Fragment.kinds_of_blank blank here).elim isOne.1 isOne.2
  have noNew : (Fragment.tokens code).prevKind index ≠ some .kwNew := by
    intro before
    obtain ⟨place, -, here⟩ := Option.bind_eq_some_iff.mp before
    exact absent place _ (by decide) here
  have noNext (place : Nat) : (Fragment.tokens code).isAt place .openParen = false ∧
      (Fragment.tokens code).isAt place .doubleColon = false := by
    constructor <;> refine eq_false_of_ne_true fun here => ?_
    · exact absent place .openParen (by decide) (eq_of_beq here)
    · exact absent place .doubleColon (by decide) (eq_of_beq here)
  unfold Reference.use?
  rw [if_neg noNew]
  simp only [noNext, Bool.false_eq_true, reduceIte, Option.bind_fun_none, ite_self]
  split <;> rfl

theorem plain_of_blank {id : Nat} (blank : Text.trim (tree.node id).body = []) :
    ∀ entry ∈ redirection.entries tree id, entry.2 = none := by
  rintro ⟨token, choice⟩ member
  cases choice with
  | none => rfl
  | some reference =>
      obtain ⟨index, refers⟩ := refers_of_mem member
      have used := refers.used
      rw [use?_of_blank blank] at used
      cases used

/-! ### Heads -/

/-- The children of a block in front of its assignments. -/
def headOf (tree : Tree) (block : Nat) : List Nat :=
  (tree.children block).take ((placement? tree block).getD 0)

theorem afterLeading_cases (tree : Tree) (ids : List Nat) (next found : Nat) :
    ∃ heads rest, ids = heads ++ rest ∧
      (∀ id ∈ heads, isLeading tree id = true ∨ isFiller tree id = true) ∧
      (heads = [] ∧ afterLeading tree ids next found = found ∨
        (∃ last, heads.getLast? = some last ∧ isLeading tree last = true) ∧
          afterLeading tree ids next found = next + heads.length) := by
  induction ids generalizing next found with
  | nil => exact ⟨[], [], rfl, fun _ none => (by cases none), .inl ⟨rfl, rfl⟩⟩
  | cons id ids ih =>
      by_cases leads : isLeading tree id = true
      · obtain ⟨heads, rest, rfl, each, ends⟩ := ih (next + 1) (next + 1)
        refine ⟨id :: heads, rest, rfl, List.forall_mem_cons.mpr ⟨.inl leads, each⟩, .inr ?_⟩
        rw [afterLeading, if_pos leads, List.length_cons]
        rcases ends with ⟨rfl, found⟩ | ⟨⟨last, isLast, leadsLast⟩, found⟩
        · exact ⟨⟨id, rfl, leads⟩, found⟩
        · refine ⟨⟨last, ?_, leadsLast⟩, by rw [found]; omega⟩
          rw [List.getLast?_cons, isLast]
          rfl
      · by_cases fills : isFiller tree id = true
        · obtain ⟨heads, rest, rfl, each, ends⟩ := ih (next + 1) found
          rcases ends with ⟨rfl, kept⟩ | ⟨⟨last, isLast, leadsLast⟩, kept⟩
          · refine ⟨[], id :: rest, rfl, fun _ none => (by cases none), .inl ⟨rfl, ?_⟩⟩
            rw [afterLeading, if_neg leads, if_pos fills]
            exact kept
          · refine ⟨id :: heads, rest, rfl, List.forall_mem_cons.mpr ⟨.inr fills, each⟩,
              .inr ⟨⟨last, ?_, leadsLast⟩, ?_⟩⟩
            · rw [List.getLast?_cons, isLast]
              rfl
            · rw [afterLeading, if_neg leads, if_pos fills, List.length_cons]
              exact kept.trans (by omega)
        · refine ⟨[], id :: ids, rfl, fun _ none => (by cases none), .inl ⟨rfl, ?_⟩⟩
          rw [afterLeading, if_neg leads, if_neg fills]

inductive Opening (tree : Tree) (block : Nat) : List Nat → Prop where
  | none (header : (tree.node block).kind = .scope ∨ (tree.node block).kind = .function) :
      Opening tree block []
  | tag (early : List Nat) (tag : Nat) (late : List Nat)
      (noScope : (tree.node block).kind ≠ .scope) (noFunction : (tree.node block).kind ≠ .function)
      (children : tree.children block = early ++ tag :: late)
      (outside : ∀ id ∈ early, tree.isOpening id = false)
      (silent : (tree.node tag).opening? = some false) : Opening tree block (early ++ [tag])

/-- A head: an opening, and then leading children with fillers between them. -/
structure Headed (tree : Tree) (block : Nat) (opening heads : List Nat) : Prop where
  head : headOf tree block = opening ++ heads
  opening : Opening tree block opening
  each : ∀ id ∈ heads, isLeading tree id = true ∨ isFiller tree id = true
  leads : ∀ last, heads.getLast? = some last → isLeading tree last = true

theorem headed_afterLeading {block : Nat} {opening rest : List Nat}
    (children : tree.children block = opening ++ rest)
    (placed : placement? tree block =
      some (afterLeading tree rest opening.length opening.length))
    (isOpening : Opening tree block opening) : ∃ heads, Headed tree block opening heads := by
  obtain ⟨heads, back, rfl, each, ends⟩ :=
    afterLeading_cases tree rest opening.length opening.length
  have place : afterLeading tree (heads ++ back) opening.length opening.length =
      (opening ++ heads).length := by
    rw [List.length_append]
    rcases ends with ⟨rfl, same⟩ | ⟨-, same⟩ <;> exact same
  refine ⟨heads, ?_, isOpening, each, fun last isLast => ?_⟩
  · rw [headOf, placed, Option.getD_some, place, children, ← List.append_assoc, List.take_left]
  · rcases ends with ⟨rfl, -⟩ | ⟨⟨found, isFound, leads⟩, -⟩
    · cases isLast
    · rw [isFound, Option.some.injEq] at isLast
      exact isLast ▸ leads

theorem headed_of_placement {block index : Nat} (placed : placement? tree block = some index) :
    ∃ opening heads, Headed tree block opening heads := by
  have whole := placed
  unfold placement? at placed
  split at placed
  · next isFunction =>
      refine ⟨[], [], ?_, .none (.inr isFunction), fun _ none => (by cases none),
        fun _ none => by cases none⟩
      cases placed
      rw [headOf, whole]
      rfl
  · next isScope =>
      refine ⟨[], headed_afterLeading rfl ?_ (.none (.inl isScope))⟩
      rw [whole, ← placed]
      rfl
  · next noFunction noScope =>
      obtain ⟨first, found, placed⟩ := Option.bind_eq_some_iff.mp placed
      obtain ⟨inside, isOne, before⟩ := List.findIdx?_eq_some_iff_getElem.mp found
      have split : tree.children block = (tree.children block).take first ++
          (tree.children block)[first] :: (tree.children block).drop (first + 1) := by simp
      have behind : tree.children block = ((tree.children block).take first ++
          [(tree.children block)[first]]) ++ (tree.children block).drop (first + 1) := by
        rw [List.append_assoc]
        exact split
      have length : ((tree.children block).take first ++ [(tree.children block)[first]]).length =
          first + 1 := by
        rw [List.length_append, List.length_take, Nat.min_eq_left (Nat.le_of_lt inside)]
        rfl
      rw [List.getElem?_eq_getElem inside, Option.map_some, Option.getD_some] at placed
      simp only at placed
      split at placed
      · cases placed
      · next silent =>
          refine ⟨_, headed_afterLeading behind ?_ (.tag _ _ _ noScope noFunction split ?_ ?_)⟩
          · rw [length, whole, placed]
          · intro id member
            obtain ⟨place, early, rfl⟩ := List.mem_take_iff_getElem.mp member
            exact eq_false_of_ne_true (before place (by omega))
          · rw [Node.opening?, if_pos isOne]
            exact congrArg some (eq_false_of_ne_true silent)

end Redirection

/-! ### What stands in a head -/

namespace Tree

def ownKinds (tree : Tree) (id : Nat) : List TokenKind :=
  if (tree.node id).kind = .imports ∨ (tree.node id).isEditable = true then
    Fragment.kinds (tree.node id).body
  else []

/-- A statement begins behind some children of a block: their code closes its parentheses, and the
last of them opens code and prints nothing or is whole. Where there are none, the header of the block
ends in a brace or a semicolon. -/
structure StatementBegins (tree : Tree) (block : Nat) (front : List Nat) : Prop where
  header : front = [] → (tree.node block).body.getLast? = some '\x7b' ∨
    (tree.node block).body.getLast? = some ';'
  closed : openParens (front.flatMap tree.ownKinds) = 0
  behind : ∀ last, front.getLast? = some last → (tree.node last).opening? = some false ∨
    Fragment.isWhole (tree.node last).body = true

end Tree

theorem Fragment.openParens_of_isWhole {code : Text} (whole : isWhole code = true) :
    openParens (kinds code) = 0 := by
  rw [isWhole, Bool.and_eq_true] at whole
  exact of_decide_eq_true whole.1

theorem Node.not_isEditable_of_opening? {node : Node} {prints : Bool}
    (opens : node.opening? = some prints) : node.isEditable = false := by
  refine eq_false_of_ne_true fun editable => ?_
  rw [opening?_of_isEditable editable] at opens
  cases opens

namespace Redirection

section Heads

variable {listLines : Bool} {source : Text} {tree : Tree} {block id : Nat}
  {opening heads : List Nat} (parsed : parse listLines source = .ok tree)
  (hosts : hostsCode (tree.node block).kind = true) (headed : Headed tree block opening heads)
include parsed hosts headed

theorem Headed.fixed (member : id ∈ opening) :
    (tree.node id).kind ≠ .imports ∧ (tree.node id).isEditable = false := by
  cases headed.opening with
  | none header => cases member
  | tag early tag late noScope noFunction children outside silent =>
      rcases List.mem_append.mp member with before | last
      · have inside : block < tree.size := by
          by_contra beyond
          rw [Tree.children, node_of_size_le (Nat.le_of_not_lt beyond)] at children
          cases early <;> cases children
        have isFile : (tree.node block).kind = .file := by
          cases kind : (tree.node block).kind <;> rw [kind] at hosts noScope noFunction <;>
            first
            | exact absurd rfl noScope | exact absurd rfl noFunction | rfl | cases hosts
        rw [((placed_of_parse parsed inside).file).mp isFile] at children
        obtain ⟨kind, flags⟩ := outside_of_parse parsed children outside id before
        rw [Node.isEditable, kind, flags]
        exact ⟨NodeKind.noConfusion, rfl⟩
      · rw [List.mem_singleton.mp last]
        refine ⟨fun isOne => ?_, Node.not_isEditable_of_opening? silent⟩
        rw [Node.opening?, Node.isTag, isOne] at silent
        cases silent

theorem Headed.cases (member : id ∈ headOf tree block) :
    (tree.node id).kind ≠ .imports ∧ (tree.node id).isEditable = false ∨
      (tree.node id).kind = .imports ∨ tree.isDirective id = true ∨
        Text.trim (tree.node id).body = [] := by
  rw [headed.head] at member
  rcases List.mem_append.mp member with early | late
  · exact .inl (headed.fixed parsed hosts early)
  · rcases headed.each id late with leads | fills
    · rw [isLeading, Bool.or_eq_true] at leads
      exact .inr (leads.imp of_decide_eq_true .inl)
    · rw [isFiller, Bool.or_eq_true, Bool.and_eq_true, List.isEmpty_iff] at fills
      rcases fills with comment | ⟨-, blank⟩
      · refine .inl ?_
        rw [Node.isEditable]
        cases kind : (tree.node id).kind <;> rw [kind] at comment <;> first
          | exact ⟨NodeKind.noConfusion, rfl⟩ | cases comment
      · exact .inr (.inr (.inr blank))

/-- A statement begins behind a head whose directives are whole. -/
theorem Headed.statementBegins (filled : tree.children block ≠ [])
    (whole : ∀ id ∈ headOf tree block, tree.isDirective id = true →
      Fragment.isWhole (tree.node id).body = true) :
    tree.StatementBegins block (headOf tree block) where
  header := by
    intro empty
    rw [headed.head] at empty
    cases headed.opening with
    | none header => exact header_of_parse parsed filled header
    | tag early tag late => simp at empty
  closed := by
    refine openParens_flatMap fun id member => ?_
    rw [Tree.ownKinds]
    split
    · next own =>
        rcases headed.cases parsed hosts member with ⟨other, fixed⟩ | isImport | directive | blank
        · rw [fixed] at own
          exact own.elim (fun isOne => absurd isOne other) (fun none => by cases none)
        · exact Fragment.openParens_of_isWhole (isStatement_of_parse parsed isImport).isWhole
        · exact Fragment.openParens_of_isWhole (whole id member directive)
        · refine openParens_of_plain fun kind among => ?_
          obtain ⟨token, found, rfl⟩ := Fragment.mem_kinds among
          rcases Scan.kind_of_blank (show (State.start .php).mode = .php from rfl)
            (Text.blank_of_trim blank) (Scan.scan_eq .php _).symm token found with isOne | isOne <;>
            rw [isOne] <;> rfl
    · rfl
  behind := by
    intro last isLast
    have member := List.mem_of_getLast? isLast
    rw [headed.head, List.getLast?_append] at isLast
    cases ends : heads.getLast? with
    | some found =>
        rw [ends, Option.some_or, Option.some.injEq] at isLast
        have leads := headed.leads found ends
        rw [isLast, isLeading, Bool.or_eq_true] at leads
        rcases leads with isImport | directive
        · exact .inr (isStatement_of_parse parsed (of_decide_eq_true isImport)).isWhole
        · exact .inr (whole last member directive)
    | none =>
        rw [ends, Option.none_or] at isLast
        cases headed.opening with
        | none header => cases isLast
        | tag early tag late noScope noFunction children outside silent =>
            rw [List.getLast?_concat, Option.some.injEq] at isLast
            exact .inl (isLast ▸ silent)

theorem Headed.directive_of_mem {redirection : Redirection} (member : id ∈ headOf tree block)
    (editable : (tree.node id).isEditable = true) {token : Token} {reference : Reference}
    (refers : (token, some reference) ∈ redirection.entries tree id) :
    tree.isDirective id = true := by
  rcases headed.cases parsed hosts member with ⟨-, fixed⟩ | isImport | directive | blank
  · rw [fixed] at editable
    cases editable
  · rw [Node.isEditable, isImport] at editable
    cases editable
  · exact directive
  · cases plain_of_blank blank _ refers

end Heads

end Redirection
end PhpWeave
