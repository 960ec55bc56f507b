import Mathlib.Logic.Relation
import PhpWeave.Grammar.Construct
import PhpWeave.Proofs.Token.Search

set_option autoImplicit false

/-!
The events of a file as derivations. An event leads from one point to the next: it covers the tokens
from where the last one stopped, and it opens or closes the innermost construct. What a node must
be to come with an event is said here once, for the reader that reports the events and for the
outline that takes them.
-/

namespace PhpWeave

namespace Node

/-- Whether the header of a node ends in a brace. -/
def isBraced (node : Node) : Bool := node.body.getLast? == some '\x7b'

def isLeaf (node : Node) : Bool :=
  match node.kind with
  | .imports | .code | .literal _ => true
  | .function => !node.flags.hasBody
  | .file | .scope | .classLike _ => false

def Opens (node : Node) : FrameKind → Prop
  | .file => False
  | .scope braced => node.kind = .scope ∧ node.isBraced = braced
  | .classLike => node.kind.isClassLike = true
  | .function => node.kind = .function ∧ node.flags.hasBody = true

/-- Whether the flags of a node say what it is: a method is a function directly in a class-like
construct, and a closure is a function without a name. -/
structure Marked (node : Node) (inClass : Prop) : Prop where
  method : node.flags.method = true ↔ node.kind = .function ∧ inClass
  closure : node.kind = .function → (node.flags.closure = true ↔ node.name = [])

end Node

namespace Reader

def Moves (tokens : Tokens) (reader next : Reader) : Prop :=
  ∃ token, tokens[reader.pos]? = some token ∧ reader.step tokens token = .ok next

/-- A state that the read of a file comes to. -/
def Reached (tokens : Tokens) : Reader → Prop := Relation.ReflTransGen (Moves tokens) start

/-- The read of a file goes on behind a token once it has read the word `function` and a header. -/
def Enters (tokens : Tokens) (last : Nat) : Prop :=
  ∃ reader next, Reached tokens reader ∧ tokens.kindAt reader.pos = some .kwFunction ∧
    Moves tokens reader next ∧ next.pos = last + 1

end Reader

/-- Whether a range of tokens is free of tags and of text outside them. -/
def Tokens.Untagged (tokens : Tokens) (first stop : Nat) : Prop :=
  ∀ index, first ≤ index → index < stop → ∀ token, tokens[index]? = some token →
    token.kind.isMarkup = false

theorem Tokens.Untagged.code {tokens : Tokens} {first stop : Nat}
    (untagged : tokens.Untagged first stop) :
    ∀ token ∈ (tokens.extract first stop).toList, token.kind.isMarkup = false := by
  intro token member
  obtain ⟨index, inside, here⟩ := List.mem_iff_getElem.mp member
  rw [Array.length_toList, Array.size_extract] at inside
  rw [Array.getElem_toList, Array.getElem_extract] at here
  refine untagged (first + index) (Nat.le_add_right _ _) (by omega) token ?_
  rw [Array.getElem?_eq_getElem (by omega), here]

/-- What a node says of the tokens its body is made of: there are no tags in code that may be
edited, and the header of a function with a body ends in a brace where the read enters it. -/
structure Node.Fits (node : Node) (tokens : Tokens) (first stop : Nat) : Prop where
  untagged : node.isEditable = true → tokens.Untagged first stop
  braced : node.kind = .function → node.flags.hasBody = true →
    ∃ last, first ≤ last ∧ stop = last + 1 ∧ tokens.isAt last .openBrace = true ∧
      Reader.Enters tokens last

def Node.bearing (node : Node) : Bool × NodeKind × Bool :=
  (node.isEditable, node.kind, node.flags.hasBody)

theorem Node.Fits.congr {node other : Node} {tokens : Tokens} {first stop : Nat}
    (fits : node.Fits tokens first stop) (same : other.bearing = node.bearing) :
    other.Fits tokens first stop := by
  have editable : other.isEditable = node.isEditable := congrArg Prod.fst same
  have kind : other.kind = node.kind := congrArg (fun bearing => bearing.2.1) same
  have hasBody : other.flags.hasBody = node.flags.hasBody :=
    congrArg (fun bearing => bearing.2.2) same
  constructor
  · rw [editable]
    exact fits.untagged
  · rw [kind, hasBody]
    exact fits.braced

/-- Where a read stands: the number of tokens that events cover, and the open constructs, innermost
first. The file is not among them. -/
structure Point where
  covered : Nat
  frames : List FrameKind

namespace Point

def InClass (point : Point) : Prop := point.frames.head? = some .classLike

def AdmitsScope (point : Point) : Prop :=
  point.frames = [] ∨ point.frames.head? = some (.scope true)

end Point

def FrameKind.isBraced : FrameKind → Bool
  | .scope braced => braced
  | .classLike | .function => true
  | .file => false

/-- A node made of the tokens from a point through another one, with nothing after its children. -/
structure Spans (tokens : Tokens) (node : Node) (first last : Nat) : Prop where
  order : first ≤ last
  body : node.body = tokens.textBetween first (last + 1)
  close : node.close = []
  fits : node.Fits tokens first (last + 1)

/-- `Event.Step tokens point event next`: the event may come at a point and leads to the next. -/
inductive Event.Step (tokens : Tokens) : Point → Event → Point → Prop where
  | leaf {point : Point} {node : Node} {last : Nat} (spans : Spans tokens node point.covered last)
      (marked : node.Marked point.InClass) (isOne : node.isLeaf = true) :
      Step tokens point (.leaf node point.covered last) ⟨last + 1, point.frames⟩
  | enter {point : Point} {node : Node} {last : Nat} {frame : FrameKind}
      (spans : Spans tokens node point.covered last) (marked : node.Marked point.InClass)
      (opens : node.Opens frame) (admitted : node.kind = .scope → point.AdmitsScope) :
      Step tokens point (.enter node point.covered last) ⟨last + 1, frame :: point.frames⟩
  | leave {covered : Nat} {frame : FrameKind} {frames : List FrameKind}
      (braced : frame.isBraced = true)
      (brace : tokens.textBetween covered (covered + 1) = ['\x7d']) :
      Step tokens ⟨covered, frame :: frames⟩ (.leave ['\x7d'] covered) ⟨covered + 1, frames⟩
  | leaveOpen {covered last : Nat} {frames : List FrameKind} (ends : last + 1 = covered) :
      Step tokens ⟨covered, .scope false :: frames⟩ (.leave [] last) ⟨covered, frames⟩
  | yields {point : Point} : Step tokens point .yields point
  | imports {point : Point} (entries : List (Text × Text)) :
      Step tokens point (.imports entries) point

/-- `Derives tokens events point`: the events lead from the beginning of the file to a point. -/
inductive Derives (tokens : Tokens) : List Event → Point → Prop where
  | start : Derives tokens [] ⟨0, []⟩
  | step {events : List Event} {event : Event} {point next : Point}
      (before : Derives tokens events point) (step : Event.Step tokens point event next) :
      Derives tokens (events ++ [event]) next

/-! ### Covered tokens -/

theorem Event.Step.covered_le {tokens : Tokens} {point next : Point} {event : Event}
    (step : Event.Step tokens point event next) : point.covered ≤ next.covered := by
  cases step with
  | leaf spans marked isOne => exact Nat.le_succ_of_le spans.order
  | enter spans marked opens admitted => exact Nat.le_succ_of_le spans.order
  | leave => exact Nat.le_succ _
  | leaveOpen => exact Nat.le_refl _
  | yields => exact Nat.le_refl _
  | imports => exact Nat.le_refl _

theorem Derives.leaf_covered {tokens : Tokens} {events : List Event} {point : Point}
    (derives : Derives tokens events point) {node : Node} {first last : Nat}
    (member : .leaf node first last ∈ events) : first < point.covered := by
  induction derives with
  | start => cases member
  | step before step ih =>
      rcases List.mem_append.mp member with old | new
      · exact Nat.lt_of_lt_of_le (ih old) step.covered_le
      · cases List.mem_singleton.mp new
        cases step with
        | leaf spans marked isOne => exact Nat.lt_succ_of_le spans.order

/-- What is open has a header, so some tokens are covered. -/
theorem Derives.covered_pos {tokens : Tokens} {events : List Event} {point : Point}
    (derives : Derives tokens events point) (some : point.frames ≠ []) : 0 < point.covered := by
  induction derives with
  | start => exact absurd rfl some
  | step before step ih =>
      cases step with
      | leaf => exact Nat.succ_pos _
      | enter => exact Nat.succ_pos _
      | leave => exact Nat.succ_pos _
      | leaveOpen => exact ih (List.cons_ne_nil _ _)
      | yields => exact ih some
      | imports => exact ih some

/-! ### Nesting -/

/-- Namespaces stand in the file or directly in namespaces with braces. -/
def Nested : List FrameKind → Prop
  | [] => True
  | .file :: _ => False
  | .scope _ :: rest => (rest = [] ∨ rest.head? = some (.scope true)) ∧ Nested rest
  | .classLike :: rest => Nested rest
  | .function :: rest => Nested rest

theorem Nested.tail {frame : FrameKind} {frames : List FrameKind}
    (nested : Nested (frame :: frames)) : Nested frames := by
  cases frame with
  | file => exact nested.elim
  | scope braced => exact nested.2
  | classLike => exact nested
  | function => exact nested

theorem Event.Step.nested {tokens : Tokens} {point next : Point} {event : Event}
    (step : Event.Step tokens point event next) (nested : Nested point.frames) :
    Nested next.frames := by
  cases step with
  | leaf => exact nested
  | enter spans marked opens admitted =>
      rename_i frame
      cases frame with
      | file => exact opens.elim
      | scope braced => exact ⟨admitted opens.1, nested⟩
      | classLike => exact nested
      | function => exact nested
  | leave => exact nested.tail
  | leaveOpen => exact nested.tail
  | yields => exact nested
  | imports => exact nested

theorem Derives.nested {tokens : Tokens} {events : List Event} {point : Point}
    (derives : Derives tokens events point) : Nested point.frames := by
  induction derives with
  | start => trivial
  | step before step ih => exact step.nested ih

end PhpWeave
