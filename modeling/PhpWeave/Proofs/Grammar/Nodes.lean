import PhpWeave.Proofs.Grammar.Native
import PhpWeave.Proofs.Node.Walks
import PhpWeave.Proofs.Token.Growth

set_option autoImplicit false

/-!
Where the nodes of a tree come from. Each node but the file is what an event of the read reported,
the nodes in the order of their events, and no event is taken back. So what the first tokens of a
file become can be told from the first steps of its read: in front of the first tag that opens code
there is nothing but text outside PHP.
-/

namespace PhpWeave

/-- What of a node does not change once it is in a tree: its kind, its text and, unless it is a
function, which may still yield, its flags. -/
def Node.origin (node : Node) : NodeKind × Text × Option Flags :=
  (node.kind, node.body, if node.kind = .function then none else some node.flags)

def Event.node? : Event → Option Node
  | .leaf node _ _ | .enter node _ _ => some node
  | _ => none

theorem Node.of_origin {node other : Node} (same : node.origin = other.origin)
    (noFunction : other.kind ≠ .function) :
    node.kind = other.kind ∧ node.body = other.body ∧ node.flags = other.flags := by
  obtain ⟨kind, body, flags⟩ : node.kind = other.kind ∧ node.body = other.body ∧ _ := by
    simpa only [origin, Prod.mk.injEq] using same
  rw [if_neg noFunction, kind, if_neg noFunction, Option.some.injEq] at flags
  exact ⟨kind, body, flags⟩

namespace Tree

def origins (tree : Tree) : List (NodeKind × Text × Option Flags) :=
  (List.range tree.size).map fun id => (tree.node id).origin

theorem origins_congr {old new : Tree} (size : new.size = old.size)
    (node : ∀ id : Nat, (new.node id).origin = (old.node id).origin) :
    new.origins = old.origins := by
  rw [origins, origins, size]
  exact List.map_congr_left fun id _ => node id

theorem origins_update {tree : Tree} {id : Nat} {change : Node → Node}
    (kept : (change (tree.node id)).origin = (tree.node id).origin) :
    (tree.update id change).origins = tree.origins := by
  refine origins_congr (size_update _ _) fun other => ?_
  rcases node_update_cases id change other with same | ⟨rfl, same⟩
  · rw [same]
  · rw [same, kept]

theorem origins_getElem? {tree : Tree} {id : Nat} (inside : id < tree.size) :
    tree.origins[id]? = some (tree.node id).origin := by
  rw [origins, List.getElem?_map, List.getElem?_range inside, Option.map_some]

end Tree

namespace Outline

variable {tokens : Tokens} {outline : Outline} {covered : Nat}

theorem Laid.origins_attach (laid : Laid tokens outline covered) (node : Node) (first last : Nat) :
    (outline.attach node first last).tree.origins = outline.tree.origins ++ [node.origin] := by
  have old : ∀ id ∈ List.range outline.tree.size,
      ((outline.attach node first last).tree.node id).origin = (outline.tree.node id).origin :=
    fun id member => Tree.node_push_property Node.origin (fun _ _ => rfl)
      (List.mem_range.mp member) laid.current_lt _
  have new : ((outline.attach node first last).tree.node outline.tree.size).origin =
      node.origin := by
    rw [laid.node_attach]
    rfl
  rw [Tree.origins, size_attach, List.range_succ, List.map_append, List.map_congr_left old,
    List.map_singleton, new]
  rfl

/-- An event adds the node that it reports. -/
theorem Laid.origins_take (laid : Laid tokens outline covered) (event : Event) :
    (outline.take event).tree.origins =
      outline.tree.origins ++ (event.node?.map Node.origin).toList := by
  have kept {new : Tree} (same : new.origins = outline.tree.origins) :
      new.origins = outline.tree.origins ++ [] := by rw [same, List.append_nil]
  cases event with
  | leaf node first last => exact laid.origins_attach node first last
  | enter node first last => exact laid.origins_attach node first last
  | leave close last =>
      cases entered : outline.entered with
      | nil =>
          have same : outline.take (.leave close last) = outline := by rw [take, entered]
          rw [same]
          exact kept rfl
      | cons entry rest =>
          rw [take_leave entered]
          exact kept (Tree.origins_update rfl)
  | yields =>
      cases found : outline.innermost .function with
      | none =>
          have same : outline.take .yields = outline := by rw [take, found]
          rw [same]
          exact kept rfl
      | some id =>
          obtain ⟨entry, search, rfl⟩ := Option.map_eq_some_iff.mp found
          have among := List.find?_some search
          have isFunction : (outline.tree.node entry.id).kind = .function := of_decide_eq_true among
          have same : outline.take .yields =
              { outline with tree := outline.tree.update entry.id yielding } := by
            rw [take, found]
            rfl
          rw [same]
          have stillOne : (yielding (outline.tree.node entry.id)).kind = .function := isFunction
          refine kept (Tree.origins_update ?_)
          rw [Node.origin, Node.origin, if_pos isFunction, if_pos stillOne]
          rfl
  | imports entries =>
      obtain ⟨id, same⟩ := outline.take_imports entries
      rw [same]
      exact kept (Tree.origins_update rfl)

theorem origins_of_derives {events : List Event} {point : Point}
    (derives : Derives tokens events point) :
    (ofEvents events).tree.origins =
      (Node.ofKind .file).origin :: (events.filterMap Event.node?).map Node.origin := by
  induction derives with
  | start => rfl
  | @step events event point next before step ih =>
      rw [ofEvents_snoc, (laid_of_derives before).1.origins_take, ih, List.filterMap_append,
        List.map_append, List.cons_append, List.filterMap_cons]
      cases event.node? <;> rfl

end Outline

/-! ### Events of a read -/

namespace Reader

variable {tokens : Tokens} {reader next last : Reader}

def Extends (reader next : Reader) : Prop := reader.events.toList <+: next.events.toList

theorem Extends.refl (reader : Reader) : Extends reader reader := List.prefix_rfl

theorem Extends.report (goesOn : Extends reader next) (event : Event) :
    Extends reader (next.report event) := by
  refine goesOn.trans ?_
  rw [Reader.report, Array.toList_push]
  exact List.prefix_append _ _

theorem Extends.flush (goesOn : Extends reader next) (stop : Nat) :
    Extends reader (next.flush tokens stop) := by
  unfold Reader.flush
  simp only
  split
  · have kept : Extends reader { next with pending := stop } := goesOn
    exact kept.report _
  · exact goesOn

theorem Extends.closeFrame (goesOn : Extends reader next) (close : Text) (last : Nat) :
    Extends reader (next.closeFrame close last) := by
  unfold Reader.closeFrame
  split
  · exact goesOn
  · next frame outer around =>
      have kept : Extends reader { next with top := frame, outer := outer } := goesOn
      exact kept.report _

theorem extends_namespaceWord : Extends reader (reader.namespaceWord tokens) := by
  unfold namespaceWord
  simp only
  split
  · exact .refl reader
  · have ended : Extends reader ((reader.flush tokens reader.pos).endOpenScope reader.pos) := by
      unfold endOpenScope
      split
      · exact ((Extends.refl reader).flush _).closeFrame _ _
      · exact (Extends.refl reader).flush _
    exact ended.report _

theorem extends_useWord : Extends reader (reader.useWord tokens) := by
  unfold useWord
  simp only
  split
  · exact .refl reader
  · split
    · split
      · exact .refl reader
      · exact ((Extends.refl reader).flush reader.pos).report _ |>.report _
    · exact .refl reader

theorem extends_classWord {kind : ClassKind} (done : reader.classWord tokens kind = .ok next) :
    Extends reader next := by
  unfold classWord at done
  simp only at done
  split at done
  · cases done
    exact .refl reader
  · split at done
    · cases done
      exact .refl reader
    · split at done
      · cases done
      · split at done
        · cases done
          exact .refl reader
        · cases done
          exact ((Extends.refl reader).flush _).report _

theorem extends_functionWord (done : reader.functionWord tokens = .ok next) :
    Extends reader next := by
  unfold functionWord at done
  simp only at done
  split at done
  · cases done
    exact .refl reader
  · split at done
    · cases done
      exact .refl reader
    · split at done
      · split at done
        · cases done
        · split at done
          · cases done
          · split at done <;> cases done <;> exact ((Extends.refl reader).flush _).report _
      · cases done
        exact .refl reader

theorem extends_arrowWord : Extends reader (reader.arrowWord tokens) := by
  unfold arrowWord
  simp only
  split
  · exact .refl reader
  · split <;> exact .refl reader

theorem extends_yieldWord : Extends reader reader.yieldWord := by
  unfold yieldWord
  split
  · exact .refl reader
  · exact (Extends.refl reader).report _

theorem extends_flushTop (change : Frame → Frame) (stop : Nat) :
    Extends reader ((reader.updateTop change).skip.flush tokens stop) := by
  have kept : Extends reader (reader.updateTop change).skip := .refl reader
  exact kept.flush stop

theorem extends_closingBrace : Extends reader (reader.closingBrace tokens) := by
  unfold closingBrace
  simp only
  split
  · exact ((Extends.refl reader).flush _).closeFrame _ _
  · exact extends_flushTop _ _

theorem extends_statementEnd : Extends reader (reader.statementEnd tokens) := by
  have skipped : Extends reader reader.skip := .refl reader
  unfold statementEnd
  simp only
  split
  · exact skipped.flush _
  · exact skipped

theorem extends_step {token : Token} (done : reader.step tokens token = .ok next) :
    Extends reader next := by
  unfold step at done
  split at done
  · cases done
    exact ((Extends.refl reader).flush _).report _
  · split at done
    · cases done
      exact ((Extends.refl reader).flush _).report _
    · split at done
      · cases done
        split
        · exact extends_namespaceWord
        · exact .refl reader
      · cases done
        split
        · exact extends_useWord
        · exact .refl reader
      · exact extends_classWord done
      · exact extends_classWord done
      · exact extends_classWord done
      · split at done
        · exact extends_classWord done
        · split at done
          · cases done
            exact extends_arrowWord
          · cases done
            exact .refl reader
      · exact extends_functionWord done
      · cases done
        exact extends_yieldWord
      · cases done
        exact extends_flushTop _ _
      · cases done
        exact extends_closingBrace
      · cases done
        exact .refl reader
      · cases done
        exact .refl reader
      · cases done
        exact extends_statementEnd
      · cases done
        exact .refl reader

theorem extends_runWithin {fuel : Nat} (done : runWithin tokens fuel reader = .ok last) :
    Extends reader last := by
  induction fuel generalizing reader with
  | zero =>
      cases done
      exact .refl _
  | succ fuel ih =>
      rw [runWithin] at done
      split at done
      · cases done
        exact .refl _
      · split at done
        · cases done
        · next next stepped => exact (extends_step stepped).trans (ih done)

def markupNode (token : Token) : Node :=
  { Node.code token.text with
    flags := if token.kind = .inlineHtml then Flags.none else Flags.fixedCode }

/-- Tags and texts outside PHP become a node each where nothing is pending. -/
theorem runWithin_markup {first rest : List Token} {fuel : Nat}
    (stands : tokens.toList.drop reader.pos = first ++ rest)
    (markup : ∀ token ∈ first, token.kind.isMarkup = true)
    (settled : reader.pending = reader.pos) (enough : first.length ≤ fuel)
    (done : runWithin tokens fuel reader = .ok last) :
    ∃ (middle : Reader) (added : List Event),
      runWithin tokens (fuel - first.length) middle = .ok last ∧
      middle.pos = reader.pos + first.length ∧ middle.pending = middle.pos ∧
      middle.outer = reader.outer ∧ middle.events.toList = reader.events.toList ++ added ∧
      added.filterMap Event.node? = first.map markupNode := by
  induction first generalizing reader fuel with
  | nil => exact ⟨reader, [], done, rfl, settled, rfl, (List.append_nil _).symm, rfl⟩
  | cons token first ih =>
      obtain ⟨here, others⟩ := List.forall_mem_cons.mp markup
      obtain ⟨found, later⟩ := getElem?_of_drop stands
      cases fuel with
      | zero => cases enough
      | succ fuel =>
          rw [runWithin, found] at done
          have unflushed : reader.flush tokens reader.pos =
              { reader with pending := reader.pos } := by
            rw [flush, settled, if_neg (Nat.lt_irrefl _)]
          have stepped : reader.step tokens token = .ok
              (({ reader with pending := reader.pos }.report
                (.leaf (markupNode token) reader.pos reader.pos)).resumeAfter reader.pos) := by
            rw [step, if_pos here, Reader.markup, unflushed]
            rfl
          simp only [stepped] at done
          obtain ⟨middle, added, goesOn, pos, pending, outer, events, nodes⟩ := ih later others rfl
            (Nat.le_of_succ_le_succ enough) done
          refine ⟨middle, .leaf (markupNode token) reader.pos reader.pos :: added, ?_, ?_, pending,
            outer, ?_, ?_⟩
          · rw [List.length_cons, Nat.add_sub_add_right]
            exact goesOn
          · rw [pos, List.length_cons]
            change reader.pos + 1 + _ = _
            omega
          · rw [events]
            change (reader.events.push _).toList ++ added = _
            rw [Array.toList_push, List.append_assoc]
            rfl
          · rw [List.filterMap_cons, List.map_cons, nodes]
            rfl

/-- The first nodes of a file are its tags and the texts outside PHP at its front, and when there is
nothing else they are all. -/
theorem markup_of_eventsOf {first rest : List Token} (split : tokens.toList = first ++ rest)
    (markup : ∀ token ∈ first, token.kind.isMarkup = true) {events : List Event}
    (done : eventsOf tokens = .ok events) :
    ∃ more, events.filterMap Event.node? = first.map markupNode ++ more ∧
      (rest = [] → more = []) := by
  unfold eventsOf at done
  split at done
  · cases done
  · next last run =>
      have size : tokens.size = first.length + rest.length := by
        rw [← Array.length_toList, split, List.length_append]
      obtain ⟨middle, added, goesOn, pos, pending, outer, reported, nodes⟩ := runWithin_markup
        (show tokens.toList.drop Reader.start.pos = first ++ rest from split) markup rfl
        (Nat.le.intro size.symm) run
      rw [show Reader.start.pos + first.length = first.length from Nat.zero_add _] at pos
      simp only at done
      split at done
      · cases done
      · next closed closing =>
          cases done
          have flushed : middle.events.toList <+: (last.flush tokens tokens.size).events.toList :=
            (extends_runWithin goesOn).trans ((Extends.refl last).flush _)
          obtain ⟨later, whole⟩ := flushed
          refine ⟨(later ++ closed).filterMap Event.node?, ?_, fun ended => ?_⟩
          · rw [← whole, reported, ← nodes, List.append_assoc, List.filterMap_append,
              List.filterMap_append]
            rfl
          · -- The read ends where the markup does, with nothing pending and nothing open.
            rw [ended, List.length_nil, Nat.add_zero] at size
            rw [size, Nat.sub_self] at goesOn
            obtain rfl : middle = last := Except.ok.inj goesOn
            have unflushed : (middle.flush tokens tokens.size).events = middle.events := by
              rw [flush, pending, pos, size, if_neg (Nat.lt_irrefl _)]
            rw [unflushed] at whole
            rw [flush_outer, outer] at closing
            cases closing
            rw [List.append_right_eq_self.mp whole]
            rfl

end Reader

/-! ### The front of a file -/

namespace Scan

open Lexeme

theorem openTag?_text {text : Text} {found : TokenKind × Nat} (tag : openTag? text = some found) :
    ['<', '?'] <+: text.take found.2 ∧ found.1 ≠ .inlineHtml := by
  unfold openTag? at tag
  split at tag
  · next rest =>
      have front (more : Nat) : ['<', '?'] <+: ('<' :: '?' :: rest).take (more + 2) :=
        ⟨rest.take more, rfl⟩
      split at tag
      · cases tag
        exact ⟨front 1, TokenKind.noConfusion⟩
      · split at tag
        · split at tag
          · cases tag
            exact ⟨front 3, TokenKind.noConfusion⟩
          · cases tag
            exact ⟨front 5, TokenKind.noConfusion⟩
          · split at tag <;> cases tag
            exact ⟨front 4, TokenKind.noConfusion⟩
        · split at tag
          · cases tag
            exact ⟨front 0, TokenKind.noConfusion⟩
          · split at tag <;> cases tag
            exact ⟨front 0, TokenKind.noConfusion⟩
  · cases tag

theorem tag_cases {mode : Mode} {source : Text} {token : Token} (member : token ∈ scan mode source)
    (markup : token.kind.isMarkup = true) (noHtml : token.kind ≠ .inlineHtml) :
    (∃ text found, openTag? text = some found ∧ token.text = text.take found.2) ∨
      ['?', '>'] <+: token.text := by
  rw [scan_eq] at member
  obtain ⟨before, after, cut⟩ := List.append_of_mem member
  obtain ⟨-, resumed⟩ := tokensFrom_resume cut
  have nonempty : Token.textOf (token :: after) ≠ [] := by
    intro empty
    rw [empty] at resumed
    cases resumed
  rw [tokensFrom_step _ nonempty, List.cons.injEq] at resumed
  have made := resumed.1
  generalize before.foldl State.after (State.start mode) = state at made
  generalize Token.textOf (token :: after) = text at made nonempty
  subst made
  cases inMode : state.mode with
  | php => exact .inr (token_eq_closeTag inMode nonempty markup).2
  | html =>
      left
      obtain ⟨c, rest, rfl⟩ := List.exists_cons_of_ne_nil nonempty
      have lexeme : state.lexeme (c :: rest) =
          (openTag? (c :: rest)).getD (.inlineHtml, 1 + inlineHtml rest) := by
        rw [State.lexeme, inMode]
        exact htmlLexeme_cons c rest
      simp only [State.token, lexeme] at noHtml ⊢
      cases tag : openTag? (c :: rest) with
      | none =>
          rw [tag] at noHtml
          exact absurd rfl noHtml
      | some found => exact ⟨_, found, tag, rfl⟩

theorem tag_of_mem {mode : Mode} {source : Text} {token : Token} (member : token ∈ scan mode source)
    (markup : token.kind.isMarkup = true) (noHtml : token.kind ≠ .inlineHtml) :
    ['<', '?'] <+: token.text ∨ ['?', '>'] <+: token.text := by
  refine (tag_cases member markup noHtml).imp_left fun ⟨text, found, tag, same⟩ => ?_
  rw [same]
  exact (openTag?_text tag).1

theorem printingTag_of_mem {mode : Mode} {source : Text} {token : Token}
    (member : token ∈ scan mode source) (markup : token.kind.isMarkup = true)
    (noHtml : token.kind ≠ .inlineHtml) (prints : ['<', '?', '='] <+: token.text) :
    token.text = ['<', '?', '='] := by
  rcases tag_cases member markup noHtml with ⟨text, found, tag, same⟩ | closes
  · obtain ⟨rest, rfl⟩ := (same ▸ prints).trans (List.take_prefix _ _)
    cases (show some (TokenKind.openTagWithEcho, 3) = some found from tag)
    exact same
  · obtain ⟨rest, split⟩ := prints
    rw [← split] at closes
    cases (List.cons_prefix_cons.mp closes).1

/-- Outside PHP a scan finds texts, and then a tag that opens code, if anything. -/
theorem front_of_html {state : State} (html : state.mode = .html) {text : Text}
    {tokens : List Token} (cut : tokensFrom state text = tokens) : ∃ outside rest,
    tokens = outside ++ rest ∧ (∀ token ∈ outside, token.kind = .inlineHtml) ∧
      (rest = [] ∨ ∃ tag later, rest = tag :: later ∧ tag.kind.isMarkup = true ∧
        tag.kind ≠ .inlineHtml ∧ ['<', '?'] <+: tag.text) := by
  induction tokens generalizing state text with
  | nil => exact ⟨[], [], rfl, fun _ none => (by cases none), .inl rfl⟩
  | cons token tokens ih =>
      have nonempty : text ≠ [] := by
        rintro rfl
        cases cut
      rw [tokensFrom_step state nonempty, List.cons.injEq] at cut
      obtain ⟨rfl, later⟩ := cut
      have lexeme : state.lexeme text = htmlLexeme text := by rw [State.lexeme, html]
      obtain ⟨c, tail, rfl⟩ := List.exists_cons_of_ne_nil nonempty
      cases tag : openTag? (c :: tail) with
      | some found =>
          have same : state.token (c :: tail) =
              ⟨found.1, (c :: tail).take found.2, state.line⟩ := by
            rw [State.token, lexeme, htmlLexeme_cons, tag]
            rfl
          obtain ⟨spelled, noHtml⟩ := openTag?_text tag
          refine ⟨[], _, rfl, fun _ none => (by cases none), .inr ⟨_, tokens, rfl, ?_⟩⟩
          rw [same]
          exact ⟨openTag?_isMarkup tag, noHtml, spelled⟩
      | none =>
          have kind : (state.token (c :: tail)).kind = .inlineHtml := by
            rw [State.token, lexeme, htmlLexeme_cons, tag]
            rfl
          have goesOn : (state.after (state.token (c :: tail))).mode = .html := by
            rw [State.after, kind]
            exact html
          obtain ⟨outside, rest, rfl, all, begins⟩ := ih goesOn later
          refine ⟨state.token (c :: tail) :: outside, rest, rfl, fun one member => ?_, begins⟩
          rcases List.mem_cons.mp member with rfl | among
          · exact kind
          · exact all one among

end Scan

namespace Tree

theorem children_ascending {tree : Tree} (ascending : tree.Ascending) {id : Nat}
    (inside : id < tree.size) (ordered : (tree.preorder id).Pairwise (· < ·)) :
    (tree.children id).Pairwise (· < ·) := by
  rw [Tree.preorder_cons ascending inside] at ordered
  refine (List.pairwise_cons.mp ordered).2.sublist ?_
  have each : ∀ children : List Nat, (∀ child ∈ children, child < tree.size) →
      List.Sublist children (children.flatMap tree.preorder) := by
    intro children known
    induction children with
    | nil => exact List.Sublist.refl _
    | cons child children ih =>
        obtain ⟨here, others⟩ := List.forall_mem_cons.mp known
        rw [List.flatMap_cons, preorder_cons ascending here, List.cons_append]
        exact ((ih others).trans (List.sublist_append_right _ _)).cons_cons child
  exact each _ fun child member => (ascending.children id child member).2

def isOpening (tree : Tree) (id : Nat) : Bool :=
  (tree.node id).isTag && ['<', '?'].isPrefixOf (tree.node id).body

/-- The nodes of a file behind the file itself are those that its events report. -/
theorem origins_of_parse {listLines : Bool} {source : Text} {tree : Tree}
    (parsed : parse listLines source = .ok tree) :
    ∃ events, Reader.eventsOf (scan .html source).toArray = .ok events ∧
      tree.origins = (Node.ofKind .file).origin ::
        (events.filterMap Event.node?).map Node.origin := by
  obtain ⟨events, read, relined⟩ := outline_of_parse parsed
  have derives := Reader.derives_eventsOf (Scan.spelled_scan .html source)
    (Scan.tagged_scan .html source) read
  exact ⟨events, read, (origins_congr relined.size (relined.property Node.origin fun _ => rfl)).trans
    (Outline.origins_of_derives derives)⟩

theorem exists_origin {tree : Tree} {nodes : List Node}
    (origins : tree.origins = (Node.ofKind .file).origin :: nodes.map Node.origin) {id : Nat}
    (inside : id < tree.size) (below : root < id) :
    ∃ node ∈ nodes, (tree.node id).origin = node.origin := by
  obtain ⟨number, rfl⟩ := Nat.exists_eq_add_one_of_ne_zero (Nat.ne_of_gt below)
  have found := origins_getElem? inside
  rw [origins, List.getElem?_cons_succ, List.getElem?_map, Option.map_eq_some_iff] at found
  obtain ⟨node, here, same⟩ := found
  exact ⟨node, List.mem_of_getElem? here, same.symm⟩

theorem origin_of_reported {tree : Tree} {nodes : List Node}
    (origins : tree.origins = (Node.ofKind .file).origin :: nodes.map Node.origin)
    {number : Nat} {node : Node} (here : nodes[number]? = some node) :
    number + 1 < tree.size ∧ (tree.node (number + 1)).origin = node.origin := by
  have inside : number + 1 < tree.size := by
    have length := congrArg List.length origins
    rw [Tree.origins, List.length_map, List.length_range, List.length_cons, List.length_map]
      at length
    have short := (List.getElem?_eq_some_iff.mp here).1
    omega
  have found := origins_getElem? inside
  rw [origins, List.getElem?_cons_succ, List.getElem?_map, here, Option.map_some,
    Option.some.injEq] at found
  exact ⟨inside, found.symm⟩

/-- In front of the first tag of a file that opens code stands nothing but text outside PHP. -/
theorem outside_of_parse {listLines : Bool} {source : Text} {tree : Tree}
    (parsed : parse listLines source = .ok tree) {early late : List Nat} {first : Nat}
    (split : tree.children root = early ++ first :: late)
    (none : ∀ id ∈ early, tree.isOpening id = false) :
    ∀ id ∈ early, (tree.node id).kind = .code ∧ (tree.node id).flags = Flags.none := by
  have native := native_of_parse parsed
  have linked := native.linked
  obtain ⟨-, whole, -⟩ := made_of_parse parsed
  obtain ⟨events, read, origins⟩ := origins_of_parse parsed
  obtain ⟨outside, rest, tokens, html, begins⟩ := Scan.front_of_html
    (show (Scan.State.start .html).mode = .html from rfl) (Scan.scan_eq .html source).symm
  have below (id : Nat) (member : id ∈ early) : 0 < id ∧ id < tree.size :=
    linked.ascending.children root id (split ▸ List.mem_append_left _ member)
  -- The nodes of the texts outside PHP come first.
  have front {more : List Node} {number : Nat} (short : number < outside.length)
      (nodes : events.filterMap Event.node? = outside.map Reader.markupNode ++ more) :
      (tree.node (number + 1)).kind = .code ∧ (tree.node (number + 1)).flags = Flags.none := by
    rw [nodes] at origins
    have isHtml := html _ (List.getElem_mem short)
    have here : (outside.map Reader.markupNode ++ more)[number]? =
        some (Reader.markupNode outside[number]) := by
      rw [List.getElem?_append_left (by rw [List.length_map]; exact short), List.getElem?_map,
        List.getElem?_eq_getElem short, Option.map_some]
    obtain ⟨-, same⟩ := origin_of_reported origins here
    obtain ⟨kind, -, flags⟩ := Node.of_origin same NodeKind.noConfusion
    refine ⟨kind, flags.trans ?_⟩
    rw [Reader.markupNode, isHtml]
    rfl
  have size : tree.size = (events.filterMap Event.node?).length + 1 := by
    have length := congrArg List.length origins
    rwa [Tree.origins, List.length_map, List.length_range, List.length_cons, List.length_map]
      at length
  intro id member
  obtain ⟨positive, inside⟩ := below id member
  obtain ⟨number, rfl⟩ := Nat.exists_eq_add_of_lt positive
  rw [Nat.zero_add] at inside member ⊢
  have markup (token : Token) (among : token ∈ outside) : token.kind.isMarkup = true := by
    rw [html token among]
    rfl
  rcases begins with rfl | ⟨tag, later, rfl, isMarkup, noHtml, spelled⟩
  · obtain ⟨more, nodes, ended⟩ := Reader.markup_of_eventsOf tokens markup read
    refine front ?_ nodes
    rw [nodes, ended rfl, List.append_nil, List.length_map] at size
    omega
  · have cut : (scan .html source).toArray.toList = (outside ++ [tag]) ++ later := by
      rw [List.append_assoc]
      exact tokens
    obtain ⟨more, nodes, -⟩ := Reader.markup_of_eventsOf cut (fun token among => by
      rcases List.mem_append.mp among with early | last
      · exact markup token early
      · rw [List.mem_singleton.mp last]
        exact isMarkup) read
    rw [List.map_append, List.append_assoc] at nodes
    refine front ?_ nodes
    have here : (events.filterMap Event.node?)[outside.length]? =
        some (Reader.markupNode tag) := by
      rw [nodes, List.getElem?_append_right (Nat.le_of_eq (List.length_map _)), List.length_map,
        Nat.sub_self]
      rfl
    obtain ⟨known, same⟩ := origin_of_reported origins here
    obtain ⟨kind, body, flags⟩ := Node.of_origin same NodeKind.noConfusion
    have opens : tree.isOpening (outside.length + 1) = true := by
      rw [Reader.markupNode, if_neg noHtml] at flags
      rw [isOpening, Node.isTag, kind, flags, body]
      simp [Reader.markupNode, Node.code, List.isPrefixOf_iff_prefix.mpr spelled]
    -- The tag stands in the file itself, for no node before it has children.
    have top : outside.length + 1 ∈ tree.children root := by
      have reached := (mem_preorder linked linked.filled).mp
        (whole ▸ List.mem_range.mpr known : outside.length + 1 ∈ tree.preorder root)
      cases up : tree.parent? (outside.length + 1) with
      | none =>
          rcases reached.2 with isRoot | above
          · cases isRoot
          · rw [ancestors_of_root up] at above
            cases above
      | some parent =>
          have isChild := (linked.parent_iff _ parent).mp up
          cases parent with
          | zero => exact isChild
          | succ parent =>
              have before := linked.ascending.parent _ _ up
              obtain ⟨plain, -⟩ := front (Nat.lt_of_succ_lt_succ before) nodes
              rw [(native.bare _ plain).1] at isChild
              cases isChild
    have ordered := children_ascending linked.ascending linked.filled
      (whole ▸ List.pairwise_lt_range)
    rw [split] at top ordered
    refine Nat.lt_of_succ_lt_succ ((List.pairwise_append.mp ordered).2.2 _ member _ ?_)
    refine (List.mem_append.mp top).resolve_left fun early => ?_
    rw [none _ early] at opens
    cases opens

end Tree
end PhpWeave
