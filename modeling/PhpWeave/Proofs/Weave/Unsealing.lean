import Mathlib.Algebra.Ring.Nat
import PhpWeave.Proofs.Grammar.ClassHeader
import PhpWeave.Proofs.Grammar.Extent
import PhpWeave.Proofs.Weave.Tokenwise

set_option autoImplicit false

/-!
Unsealed files, told token by token. The header of a sealed class is cut into tokens by itself, and
the modifiers come out of that as they are in the file. So from each of these headers goes the first
word `final` and the white space behind it, and all other tokens stay as they are.
-/

namespace PhpWeave

open Scan PhpWeave.Tree

/-! ### Headers by themselves -/

namespace Scan

theorem isKeyword_of_isModifier {kind : TokenKind} (isOne : kind.isModifier = true) :
    kind.isKeyword = true := by
  cases kind <;> first | rfl | cases isOne

theorem fresh_of_keyword {state : State} {text : Text} {word : Token} {rest : List Token}
    (cut : tokensFrom state text = word :: rest) (keyword : word.kind.isKeyword = true) :
    state.afterArrow = false := by
  have nonempty : text ≠ [] := by
    rintro rfl
    cases cut
  rw [tokensFrom_step state nonempty, List.cons.injEq] at cut
  have rule := rule_of_code nonempty (cut.1 ▸ isMarkup_of_isKeyword keyword)
  rw [cut.1] at rule
  exact (rule.ofWord keyword).2

theorem fresh_of_leads {state : State} {text : Text} {front rest : List Token} {word : Token}
    (cut : tokensFrom state text = front ++ word :: rest)
    (leads : ∀ token ∈ front, token.kind.leads = true) (keyword : word.kind.isKeyword = true) :
    state.afterArrow = false := by
  induction front generalizing state text with
  | nil => exact fresh_of_keyword cut keyword
  | cons token front ih =>
      obtain ⟨leading, others⟩ := List.forall_mem_cons.mp leads
      rcases Bool.or_eq_true_iff.mp leading with modifier | blank
      · exact fresh_of_keyword cut (isKeyword_of_isModifier modifier)
      · have nonempty : text ≠ [] := by
          rintro rfl
          cases cut
        rw [tokensFrom_step state nonempty, List.cons_append, List.cons.injEq] at cut
        have fresh := ih cut.2 others
        rwa [cut.1, State.after, of_decide_eq_true blank] at fresh

theorem code_of_leads {kind : TokenKind} (leads : kind.leads = true) : kind.isMarkup = false := by
  cases kind <;> first | rfl | cases leads

theorem apart_of_names {state : State} {text : Text} {before after : List Token}
    {first second : Token} (cut : tokensFrom state text = before ++ first :: second :: after)
    (one : first.kind.isIdentifierLike = true) (other : second.kind.isIdentifierLike = true) :
    False := by
  have code {kind : TokenKind} (like : kind.isIdentifierLike = true) : kind.isMarkup = false := by
    cases kind <;> first | rfl | cases like
  obtain ⟨_, rule⟩ := rule_of_cut before cut (code one)
  have cutBehind : tokensFrom state text = (before ++ [first]) ++ second :: after := by
    rw [cut, List.append_assoc]
    rfl
  obtain ⟨_, ruleBehind⟩ := rule_of_cut (before ++ [first]) cutBehind (code other)
  have ends := (rule.named one).2.2
  have begins := (ruleBehind.named other).2.1
  rw [List.drop_left, Token.textOf_cons] at ends
  omega

end Scan

namespace Unsealing

/-- A header without its seal, by the tokens that a scan of it finds. -/
theorem unsealed?_of_scan {header : Text} {before after : List Token} {final white : Token}
    (scanned : scan .php header = before ++ final :: white :: after)
    (plain : ∀ token ∈ before, token.kind ≠ .kwFinal) (isFinal : final.kind = .kwFinal)
    (blank : white.kind = .whitespace) :
    unsealed? header = some (Token.textOf before ++ Token.textOf after) := by
  have passes : ∀ token ∈ before, decide (token.kind ≠ .kwFinal) = true :=
    fun token member => decide_eq_true (plain token member)
  have front : (before ++ final :: white :: after).takeWhile (·.kind ≠ .kwFinal) = before := by
    rw [List.takeWhile_append_of_pos passes, List.takeWhile_cons_of_neg (by simp [isFinal]),
      List.append_nil]
  have back : (before ++ final :: white :: after).dropWhile (·.kind ≠ .kwFinal) =
      final :: white :: after := by
    rw [List.dropWhile_append_of_pos passes, List.dropWhile_cons_of_neg (by simp [isFinal])]
  simp only [unsealed?, scanned, front, back, afterSeal, blank, if_true]

/-- A header without its seal, by the tokens of the file. -/
theorem unsealed?_of_cut {state : State} {text : Text} {before more after : List Token}
    {final white : Token}
    (cut : tokensFrom state text = (before ++ final :: white :: more) ++ after)
    (leads : ∀ token ∈ before, token.kind.leads = true)
    (plain : ∀ token ∈ before, token.kind ≠ .kwFinal) (isFinal : final.kind = .kwFinal)
    (blank : white.kind = .whitespace)
    (next : ∃ token rest, more = token :: rest ∧ token.kind.isMarkup = false) :
    unsealed? (Token.textOf (before ++ final :: white :: more)) =
      some (Token.textOf before ++ Token.textOf more) := by
  have front : before ++ final :: white :: more = (before ++ [final, white]) ++ more := by simp
  have fresh := fresh_of_leads (by rw [cut, List.append_assoc, List.cons_append]) leads
    (by rw [isFinal]; rfl)
  have code : ∀ token ∈ before ++ [final, white], token.kind.isMarkup = false := by
    refine List.forall_mem_append.mpr ⟨fun token member => code_of_leads (leads token member), ?_⟩
    simp [isFinal, blank, TokenKind.isMarkup]
  have whole : tokensFrom state text = (before ++ [final, white]) ++ (more ++ after) := by
    rw [cut, front, List.append_assoc]
  have php : (State.start .php).mode = .php := rfl
  obtain ⟨found, rest, scanned, same, text⟩ := tokensFrom_front whole code next php fresh.symm
  rw [List.map_append, List.map_eq_append_iff] at same
  obtain ⟨early, late, rfl, sameEarly, sameLate⟩ := same
  obtain ⟨first, others, rfl, isFirst, sameOthers⟩ := List.map_eq_cons_iff.mp sameLate
  obtain ⟨second, others, rfl, isSecond, sameOthers⟩ := List.map_eq_cons_iff.mp sameOthers
  have parts : scan .php (Token.textOf ((before ++ [final, white]) ++ more)) =
      early ++ first :: second :: rest := by
    rw [scan_eq, scanned, List.map_eq_nil_iff.mp sameOthers, List.append_assoc]
    rfl
  have unmarked : ∀ token ∈ early, token.kind ≠ .kwFinal := by
    intro token member isOne
    have among : shape token ∈ before.map shape := sameEarly ▸ List.mem_map_of_mem member
    obtain ⟨other, inBefore, alike⟩ := List.mem_map.mp among
    exact plain other inBefore ((congrArg Prod.fst alike).trans isOne)
  rw [front, unsealed?_of_scan parts unmarked ((congrArg Prod.fst isFirst).trans isFinal)
    ((congrArg Prod.fst isSecond).trans blank), text, ← spell_shapes early, sameEarly, spell_shapes]

end Unsealing

/-! ### Headers in a file -/

/-- The word `final` that a class loses, and what stands around it: it is the first one among the
modifiers, and white space comes behind it. -/
structure Unsealing.Loses (tokens : Tokens) (first word final : Nat) : Prop where
  behind : first ≤ final
  before : final + 1 < word
  isFinal : tokens.kindAt final = some .kwFinal
  blank : tokens.kindAt (final + 1) = some .whitespace
  isFirst : ∀ index, first ≤ index → index < final → tokens.kindAt index ≠ some .kwFinal

namespace Tree

variable {source : Text} {tree : Tree} {stretches : List Stretch} {id first word last : Nat}

theorem ClassHeader.loses
    (header : tree.ClassHeader (TokenStream.ofText .html source).tokens stretches id first word last)
    (isSealed : (tree.node id).flags.sealed = true) : ∃ final,
      (TokenStream.ofText .html source).tokens.firstFrom (fun token => token.kind = .kwFinal) first =
        some final ∧
      Unsealing.Loses (TokenStream.ofText .html source).tokens first word final := by
  generalize made : (TokenStream.ofText .html source).tokens = tokens at header
  obtain ⟨index, behind, before, isAt⟩ := header.seals.mp isSealed
  cases search : tokens.firstFrom (fun token => decide (token.kind = .kwFinal)) first with
  | none =>
      obtain ⟨token, here, isOne⟩ := Tokens.kindAt_eq_some.mp isAt
      have there : tokens[first + (index - first)]? = some token := by
        rw [Nat.add_sub_cancel' behind]
        exact here
      have misses := Tokens.firstFrom_none search there
      exact absurd isOne (of_decide_eq_false misses)
  | some final =>
      obtain ⟨from_, token, here, isOne⟩ := Tokens.firstFrom_some search
      have isFirst : ∀ other, first ≤ other → other < final →
          tokens.kindAt other ≠ some .kwFinal := by
        intro other behind early isFinal
        obtain ⟨found, there, isOne⟩ := Tokens.kindAt_eq_some.mp isFinal
        have misses := Tokens.firstFrom_before search other behind early found there
        exact absurd isOne (of_decide_eq_false misses)
      have inRun : final < word := by
        by_contra beyond
        exact isFirst index behind (by omega) isAt
      have isFinal : tokens.kindAt final = some .kwFinal :=
        Tokens.kindAt_eq_some.mpr ⟨token, here, of_decide_eq_true isOne⟩
      -- No name stands right behind the word, so neither a modifier nor the word of the class does.
      have noName : ∀ kind, tokens.kindAt (final + 1) = some kind →
          kind.isIdentifierLike = false := by
        refine fun kind isAt => eq_false_of_ne_true fun like => ?_
        obtain ⟨second, there, rfl⟩ := Tokens.kindAt_eq_some.mp isAt
        have cut : tokensFrom (State.start .html) source =
            tokens.toList.take final ++ token :: second :: tokens.toList.drop (final + 2) := by
          rw [← drop_of_getElem? there, ← drop_of_getElem? here,
            List.take_append_drop, ← made]
          rfl
        exact apart_of_names cut (by rw [of_decide_eq_true isOne]; rfl) like
      have apart : final + 1 ≠ word := by
        rintro rfl
        obtain ⟨second, there, isWord⟩ := header.declares
        have noWord := noName _ (Tokens.kindAt_eq_some.mpr ⟨second, there, rfl⟩)
        rcases isWord with isWord | isWord | isWord | ⟨isWord, -⟩ <;> rw [isWord] at noWord <;>
          cases noWord
      obtain ⟨kind, isNext, leads⟩ := header.leads (final + 1) (by omega) (by omega)
      have blank : kind = .whitespace := by
        rcases Bool.or_eq_true_iff.mp leads with modifier | blank
        · have like := noName kind isNext
          rw [TokenKind.isIdentifierLike, isKeyword_of_isModifier modifier, Bool.or_true] at like
          cases like
        · exact of_decide_eq_true blank
      exact ⟨final, rfl, from_, by omega, isFinal, blank ▸ isNext, isFirst⟩

/-- The header of a sealed class, as it is woven. -/
theorem Ranges.unsealed?_body
    (ranges : tree.Ranges (TokenStream.ofText .html source).tokens stretches)
    (header : tree.ClassHeader (TokenStream.ofText .html source).tokens stretches id first word last)
    {final : Nat}
    (loses : Unsealing.Loses (TokenStream.ofText .html source).tokens first word final) :
    Unsealing.unsealed? (tree.node id).body =
      some ((TokenStream.ofText .html source).tokens.textBetween first final ++
        (TokenStream.ofText .html source).tokens.textBetween (final + 2) (last + 1)) := by
  have text := (ranges.made _ header.among).text
  have whole : tokensFrom (State.start .html) source =
      (TokenStream.ofText .html source).tokens.toList := rfl
  generalize (TokenStream.ofText .html source).tokens = tokens at *
  obtain ⟨behind, before, isFinal, blank, isFirst⟩ := loses
  have inside := header.word_le
  obtain ⟨mark, here, isMark⟩ := Tokens.kindAt_eq_some.mp isFinal
  obtain ⟨white, there, isBlank⟩ := Tokens.kindAt_eq_some.mp blank
  have parts : (tokens.extract first (last + 1)).toList = (tokens.extract first final).toList ++
      mark :: white :: (tokens.extract (final + 2) (last + 1)).toList := by
    rw [← Tokens.extract_append behind (Nat.le_succ_of_le (by omega : final ≤ last)),
      Tokens.extract_cons here (by omega), Tokens.extract_cons there (by omega)]
  obtain ⟨next, isNext, code⟩ : ∃ next, tokens[final + 2]? = some next ∧
      next.kind.isMarkup = false := by
    rcases Nat.eq_or_lt_of_le (Nat.succ_le_of_lt before) with isWord | early
    · obtain ⟨next, isAt, kind⟩ := header.declares
      obtain rfl : word = final + 2 := isWord.symm
      refine ⟨next, isAt, ?_⟩
      rcases kind with kind | kind | kind | ⟨kind, -⟩ <;> rw [kind] <;> rfl
    · obtain ⟨kind, isAt, leads⟩ := header.leads (final + 2) (by omega) early
      obtain ⟨next, isNext, rfl⟩ := Tokens.kindAt_eq_some.mp isAt
      exact ⟨next, isNext, code_of_leads leads⟩
  have more := Tokens.extract_cons isNext (show final + 2 < last + 1 by omega)
  rw [Tokens.split_at tokens first (last + 1)] at whole
  obtain ⟨-, cut⟩ := tokensFrom_resume whole
  rw [parts] at cut
  have header := Unsealing.unsealed?_of_cut cut ?_ ?_ isMark isBlank ⟨next, _, more, code⟩
  · rw [partText] at text
    rw [text, Tokens.textBetween, parts]
    exact header
  · intro token member
    obtain ⟨index, from_, early, isAt⟩ := Tokens.mem_extract_iff.mp member
    obtain ⟨kind, same, leads⟩ := header.leads index from_ (by omega)
    rw [Tokens.kindAt, isAt] at same
    exact Option.some.inj same ▸ leads
  · intro token member isOne
    obtain ⟨index, from_, early, isAt⟩ := Tokens.mem_extract_iff.mp member
    exact isFirst index from_ early (Tokens.kindAt_eq_some.mpr ⟨token, isAt, isOne⟩)

end Tree

/-! ### Files -/

namespace Unsealing

def final? (tree : Tree) (tokens : Tokens) (stretch : Stretch) : Option Nat :=
  match stretch.part with
  | .body id =>
    if (tree.node id).kind.isClassLike && (tree.node id).flags.sealed then
      tokens.firstFrom (fun token => token.kind = .kwFinal) stretch.first
    else none
  | .close _ => none

def finals (tree : Tree) (tokens : Tokens) (stretches : List Stretch) : List Nat :=
  stretches.filterMap (final? tree tokens)

/-- What remains of a token when some words go, each with the token behind it. -/
def remains (finals : List Nat) (tokens : Tokens) (index : Nat) : Text :=
  if index ∈ finals ∨ index ∈ finals.map (· + 1) then [] else tokens.textAt index

theorem flatMap_remains {finals : List Nat} {tokens : Tokens} {first stop : Nat}
    (within : stop ≤ tokens.size) (stays : ∀ index, first ≤ index → index < stop →
      ¬ (index ∈ finals ∨ index ∈ finals.map (· + 1))) :
    (List.range' first (stop - first)).flatMap (remains finals tokens) =
      tokens.textBetween first stop := by
  rw [Tokens.textBetween_eq_flatMap within]
  apply List.flatMap_congr
  intro index inRange
  obtain ⟨behind, early⟩ := List.mem_range'_1.mp inRange
  rw [remains, if_neg (stays index behind (by omega))]

end Unsealing

section Files

variable {source : Text} {tree : Tree} {stretches : List Stretch}
  (ranges : tree.Ranges (TokenStream.ofText .html source).tokens stretches)
  (headers : ∀ id < tree.size, (tree.node id).kind.isClassLike = true →
    ∃ first word last, tree.ClassHeader (TokenStream.ofText .html source).tokens stretches
      id first word last)
  (linked : tree.Linked)
include ranges headers linked

theorem Unsealing.loses_of_final? {stretch : Stretch} (member : stretch ∈ stretches) {final : Nat}
    (found : final? tree (TokenStream.ofText .html source).tokens stretch = some final) :
    ∃ id first word last, stretch = ⟨.body id, first, last + 1⟩ ∧
      (tree.node id).kind.isClassLike = true ∧ (tree.node id).flags.sealed = true ∧
      tree.ClassHeader (TokenStream.ofText .html source).tokens stretches id first word last ∧
      Loses (TokenStream.ofText .html source).tokens first word final := by
  obtain ⟨part, first, stop⟩ := stretch
  unfold final? at found
  cases part with
  | close id => cases found
  | body id =>
      simp only at found
      split at found
      · next both =>
          obtain ⟨isClass, isSealed⟩ := Bool.and_eq_true_iff.mp both
          obtain ⟨start, word, last, header⟩ :=
            headers id (ranges.over_root linked member).1 isClass
          cases ranges.same_stretch linked member header.among rfl
          obtain ⟨other, search, loses⟩ := header.loses isSealed
          rw [found] at search
          cases search
          exact ⟨id, first, word, last, rfl, isClass, isSealed, header, loses⟩
      · cases found

theorem Unsealing.goes_iff {stretch : Stretch} (member : stretch ∈ stretches) {index : Nat}
    (covers : stretch.Covers index) :
    (index ∈ finals tree (TokenStream.ofText .html source).tokens stretches ∨
      index ∈ (finals tree (TokenStream.ofText .html source).tokens stretches).map (· + 1)) ↔
    ∃ final, final? tree (TokenStream.ofText .html source).tokens stretch = some final ∧
      (index = final ∨ index = final + 1) := by
  have inside : index < (TokenStream.ofText .html source).tokens.size :=
    Nat.lt_of_lt_of_le covers.2 (ranges.consecutive.stop_le _ member)
  -- A word and the token behind it are in one part.
  have own {final : Nat} (among : final ∈ finals tree (TokenStream.ofText .html source).tokens
      stretches) (near : index = final ∨ index = final + 1) :
      final? tree (TokenStream.ofText .html source).tokens stretch = some final := by
    obtain ⟨other, isOther, found⟩ := List.mem_filterMap.mp among
    obtain ⟨id, first, word, last, rfl, -, -, header, loses⟩ :=
      loses_of_final? ranges headers linked isOther found
    have behind := loses.behind
    have before := loses.before
    have upto := header.word_le
    have here : (Stretch.mk (.body id) first (last + 1)).Covers index := by
      constructor <;> simp only <;> omega
    rwa [ranges.same_part inside member isOther covers here]
  constructor
  · rintro (among | among)
    · exact ⟨index, own among (.inl rfl), .inl rfl⟩
    · obtain ⟨final, isFinal, rfl⟩ := List.mem_map.mp among
      exact ⟨final, own isFinal (.inr rfl), .inr rfl⟩
  · rintro ⟨final, found, rfl | rfl⟩
    · exact .inl (List.mem_filterMap.mpr ⟨stretch, member, found⟩)
    · exact .inr (List.mem_map_of_mem (List.mem_filterMap.mpr ⟨stretch, member, found⟩))

/-- What is written for a part when classes are unsealed. -/
theorem Unsealing.written_part {stretch : Stretch} (member : stretch ∈ stretches) :
    (match stretch.part with
      | .body id => (tree.node id).unsealed.body
      | .close id => (tree.node id).close) =
    (List.range' stretch.first (stretch.stop - stretch.first)).flatMap
      (remains (finals tree (TokenStream.ofText .html source).tokens stretches)
        (TokenStream.ofText .html source).tokens) := by
  have goes {index : Nat} (covers : stretch.Covers index) :=
    goes_iff ranges headers linked member covers
  have text := (ranges.made stretch member).text
  have within := ranges.consecutive.stop_le _ member
  cases found : final? tree (TokenStream.ofText .html source).tokens stretch with
  | none =>
      have all : (List.range' stretch.first (stretch.stop - stretch.first)).flatMap
          (remains (finals tree (TokenStream.ofText .html source).tokens stretches)
            (TokenStream.ofText .html source).tokens) = tree.partText stretch.part := by
        refine (flatMap_remains within fun index behind early => ?_).trans text.symm
        rw [goes ⟨behind, early⟩, found]
        rintro ⟨final, none, -⟩
        cases none
      rw [all]
      obtain ⟨part, first, stop⟩ := stretch
      cases part with
      | close id => rfl
      | body id =>
          change (tree.node id).unsealed.body = (tree.node id).body
          rw [Node.unsealed, if_neg]
          intro both
          obtain ⟨isClass, isSealed⟩ := Bool.and_eq_true_iff.mp both
          obtain ⟨start, word, last, header⟩ :=
            headers id (ranges.over_root linked member).1 isClass
          cases ranges.same_stretch linked member header.among rfl
          obtain ⟨final, search, -⟩ := header.loses isSealed
          simp only [final?, both, if_true, search] at found
          cases found
  | some final =>
      obtain ⟨id, first, word, last, rfl, isClass, isSealed, header, loses⟩ :=
        loses_of_final? ranges headers linked member found
      have behind := loses.behind
      have before := loses.before
      have upto := header.word_le
      have unsealed : (tree.node id).unsealed.body =
          (TokenStream.ofText .html source).tokens.textBetween first final ++
            (TokenStream.ofText .html source).tokens.textBetween (final + 2) (last + 1) := by
        rw [Node.unsealed, if_pos (by rw [isClass, isSealed]; rfl), Node.unsealedHeader,
          ranges.unsealed?_body header loses]
      -- Outside of the word and the token behind it everything remains.
      have outside (from_ stop : Nat) (inside : first ≤ from_ ∧ stop ≤ last + 1)
          (apart : stop ≤ final ∨ final + 2 ≤ from_) :
          (TokenStream.ofText .html source).tokens.textBetween from_ stop =
            (List.range' from_ (stop - from_)).flatMap
              (remains (finals tree (TokenStream.ofText .html source).tokens stretches)
                (TokenStream.ofText .html source).tokens) := by
        refine (flatMap_remains (Nat.le_trans inside.2 within) fun index begins early => ?_).symm
        rw [goes ⟨by simp only; omega, by simp only; omega⟩, found]
        rintro ⟨other, same, near⟩
        cases same
        omega
      have gone : (List.range' final (final + 2 - final)).flatMap
          (remains (finals tree (TokenStream.ofText .html source).tokens stretches)
            (TokenStream.ofText .html source).tokens) = [] := by
        refine List.flatMap_eq_nil_iff.mpr fun index inRange => ?_
        obtain ⟨begins, early⟩ := List.mem_range'_1.mp inRange
        rw [remains, if_pos]
        exact (goes ⟨by simp only; omega, by simp only; omega⟩).mpr ⟨final, found, by omega⟩
      change (tree.node id).unsealed.body = (List.range' first (last + 1 - first)).flatMap _
      rw [unsealed, outside first final ⟨Nat.le_refl _, by omega⟩ (.inl (Nat.le_refl _)),
        outside (final + 2) (last + 1) ⟨by omega, Nat.le_refl _⟩ (.inr (Nat.le_refl _)),
        ← Stretch.flatMap_range'_append _ behind (show final ≤ last + 1 by omega),
        ← Stretch.flatMap_range'_append _ (show final ≤ final + 2 by omega)
          (show final + 2 ≤ last + 1 by omega), gone, List.nil_append]

theorem Unsealing.finals_nodup :
    (finals tree (TokenStream.ofText .html source).tokens stretches).Nodup := by
  refine List.Pairwise.imp (fun before => Nat.ne_of_lt before) ?_
  refine List.pairwise_filterMap.mpr ?_
  refine ranges.consecutive.pairwise.imp_of_mem fun {left right} isLeft isRight apart early
    isEarly late isLate => ?_
  obtain ⟨_, first, word, last, rfl, -, -, header, loses⟩ :=
    loses_of_final? ranges headers linked isLeft isEarly
  obtain ⟨_, start, _, _, rfl, -, -, -, losesToo⟩ :=
    loses_of_final? ranges headers linked isRight isLate
  have upto := loses.before
  have inHeader := header.word_le
  have behind := losesToo.behind
  simp only at apart
  omega

end Files

/-- A file without the seals of its classes. -/
structure Unsealed (source : Text) (tree : Tree) (stretches : List Stretch) (finals : List Nat)
    (written : Text) : Prop where
  /-- The parts of the tree are ranges of tokens that lie end to end from the first to the last. -/
  ranges : tree.Ranges (TokenStream.ofText .html source).tokens stretches
  /-- Each word that goes is the first `final` among the modifiers of a class. -/
  loses : ∀ final ∈ finals, ∃ id first word last, (tree.node id).kind.isClassLike = true ∧
    tree.ClassHeader (TokenStream.ofText .html source).tokens stretches id first word last ∧
    Unsealing.Loses (TokenStream.ofText .html source).tokens first word final
  /-- Among the modifiers of a class no `final` stays unless another one goes in front of it. -/
  headers : ∀ id < tree.size, (tree.node id).kind.isClassLike = true → ∃ first word last,
    tree.ClassHeader (TokenStream.ofText .html source).tokens stretches id first word last ∧
    ∀ index, first ≤ index → index < word →
      (TokenStream.ofText .html source).tokens.kindAt index = some .kwFinal →
        index ∈ finals ∨ ∃ final ∈ finals, first ≤ final ∧ final < index
  /-- All other tokens are written as they are, in their order, but for the white space behind each
  word that goes. -/
  written : written = (List.range (TokenStream.ofText .html source).tokens.size).flatMap
    (Unsealing.remains finals (TokenStream.ofText .html source).tokens)

/-- What a file that has a tree is with its classes unsealed. -/
theorem Unsealing.unsealed_finals {listLines : Bool} {source : Text} {tree : Tree}
    (parsed : parse listLines source = .ok tree) (unsealing : Unsealing) (file : Option Path) :
    ∃ stretches, (finals tree (TokenStream.ofText .html source).tokens stretches).Nodup ∧
      Unsealed source tree stretches
        (finals tree (TokenStream.ofText .html source).tokens stretches)
        (Weaver.weave unsealing tree file).2.source := by
  have linked := (native_of_parse parsed).linked
  obtain ⟨events, stretches, told⟩ := Tree.told_of_parse parsed
  have ranges := told.ranges
  have headers : ∀ id < tree.size, (tree.node id).kind.isClassLike = true →
      ∃ first word last, tree.ClassHeader (TokenStream.ofText .html source).tokens stretches
        id first word last := by
    intro id inside isClass
    have below : root < id := below_of_kind parsed inside fun isFile => by
      rw [isFile] at isClass
      cases isClass
    exact told.classHeader (spelled_scan .html source) (tagged_scan .html source) inside below
      isClass
  refine ⟨stretches, finals_nodup ranges headers linked, ranges, fun final member => ?_,
    fun id inside isClass => ?_, ?_⟩
  · obtain ⟨stretch, among, found⟩ := List.mem_filterMap.mp member
    obtain ⟨id, first, word, last, -, isClass, -, header, loses⟩ :=
      loses_of_final? ranges headers linked among found
    exact ⟨id, first, word, last, isClass, header, loses⟩
  · obtain ⟨first, word, last, header⟩ := headers id inside isClass
    refine ⟨first, word, last, header, fun index behind before isFinal => ?_⟩
    have isSealed := header.seals.mpr ⟨index, behind, before, isFinal⟩
    obtain ⟨final, search, loses⟩ := header.loses isSealed
    have member : final ∈ finals tree (TokenStream.ofText .html source).tokens stretches := by
      refine List.mem_filterMap.mpr ⟨_, header.among, ?_⟩
      simp only [final?, isClass, isSealed, Bool.and_self, if_true, search]
    rcases Nat.lt_trichotomy index final with early | rfl | late
    · exact absurd isFinal (loses.isFirst index behind early)
    · exact .inl member
    · exact .inr ⟨final, member, loses.behind, late⟩
  · have keepsClose (node : Node) : node.unsealed.close = node.close :=
      Node.unsealed_property Node.close (fun _ _ _ => rfl) node
    have whole := ranges.consecutive.flatMap_range
      (remains (finals tree (TokenStream.ofText .html source).tokens stretches)
        (TokenStream.ofText .html source).tokens)
    rw [Nat.sub_zero, ← List.range_eq_range'] at whole
    rw [weave_eq linked, source_revise linked Node.revision_unsealed keepsClose, ← ranges.parts,
      List.flatMap_map, ← whole]
    exact List.flatMap_congr fun stretch member => written_part ranges headers linked member

namespace Unsealing

/-- Unsealing takes from each class-like declaration the first `final` among its modifiers, which no
comment cuts off from the word that declares it, and the white space behind that word. Every other
token of the file, the `final` of a method among them, is written as it is. -/
theorem unsealed_of_parse {listLines : Bool} {source : Text} {tree : Tree}
    (parsed : parse listLines source = .ok tree) (unsealing : Unsealing) (file : Option Path) :
    ∃ stretches finals, Unsealed source tree stretches finals
      (Weaver.weave unsealing tree file).2.source := by
  obtain ⟨stretches, -, unsealed⟩ := unsealed_finals parsed unsealing file
  exact ⟨stretches, _, unsealed⟩

/-- A sealed class with a sealed method. -/
theorem unsealed_of_parse_method :
    let source := "<?php abstract final class A\x7bfinal function f()\x7b\x7d\x7d".toList
    ∃ tree stretches finals, parse false source = .ok tree ∧ Unsealed source tree stretches finals
      (Weaver.weave ({} : Unsealing) tree none).2.source := by
  intro source
  have closes : (parse false source).toBool = true := by decide +kernel
  cases parsed : parse false source with
  | error fault =>
      rw [parsed] at closes
      cases closes
  | ok tree =>
      obtain ⟨stretches, finals, unsealed⟩ := unsealed_of_parse parsed {} none
      exact ⟨tree, stretches, finals, rfl, unsealed⟩

/-- A comment ends the modifiers of a class, so a `final` in front of it stays. -/
theorem seal_stays_before_comment :
    ((parse false "<?php final /* c */ class A \x7b\x7d".toList).toOption.map fun tree =>
      (fileShapes (Weaver.weave ({} : Unsealing) tree none).2.source).take 6) =
        some [(.openTag, "<?php ".toList), (.kwFinal, "final".toList), (.whitespace, " ".toList),
          (.comment, "/* c */".toList), (.whitespace, " ".toList), (.kwClass, "class".toList)] := by
  decide +kernel

/-! ### Lines -/

/-- The line feeds that go in front of a position, with the white space behind the words that go. -/
def feedsLost (finals : List Nat) (tokens : Tokens) (index : Nat) : Nat :=
  (((finals.map (· + 1)).filter (· < index)).map fun white =>
    Text.newlines (tokens.textAt white)).sum

theorem sum_filter_lt_succ {positions : List Nat} (nodup : positions.Nodup) (told : Nat → Nat)
    (index : Nat) : ((positions.filter (· < index + 1)).map told).sum =
      ((positions.filter (· < index)).map told).sum +
        if index ∈ positions then told index else 0 := by
  induction positions with
  | nil => rfl
  | cons first rest ih =>
      obtain ⟨apart, later⟩ := List.nodup_cons.mp nodup
      have more := ih later
      rcases Nat.lt_trichotomy first index with early | rfl | late
      · rw [List.filter_cons_of_pos (by simpa using Nat.lt_succ_of_lt early),
          List.filter_cons_of_pos (by simpa using early), List.map_cons, List.map_cons,
          List.sum_cons, List.sum_cons, more]
        simp only [List.mem_cons, Nat.ne_of_gt early, false_or, Nat.add_assoc]
      · rw [List.filter_cons_of_pos (by simp), List.filter_cons_of_neg (by simp), List.map_cons,
          List.sum_cons, more, if_neg apart, if_pos List.mem_cons_self, Nat.add_zero, Nat.add_comm]
      · rw [List.filter_cons_of_neg (by simpa using Nat.succ_le_of_lt late),
          List.filter_cons_of_neg (by simpa using Nat.le_of_lt late), more]
        simp only [List.mem_cons, Nat.ne_of_lt late, false_or]

/-- The line feeds in front of a position, when words go with the white space behind them. -/
theorem newlines_remains {source : Text} {finals : List Nat} (nodup : finals.Nodup)
    (isFinal : ∀ final ∈ finals,
      (TokenStream.ofText .html source).tokens.kindAt final = some .kwFinal)
    {index : Nat} (inside : index ≤ (TokenStream.ofText .html source).tokens.size) :
    Text.newlines ((List.range index).flatMap
        (remains finals (TokenStream.ofText .html source).tokens)) +
      feedsLost finals (TokenStream.ofText .html source).tokens index =
        (TokenStream.ofText .html source).tokens.feedsBefore index := by
  have nodupBehind : (finals.map (· + 1)).Nodup :=
    nodup.map fun left right same => Nat.succ.inj same
  have worded : Worded (TokenStream.ofText .html source).tokens := worded_scan .html source
  generalize (TokenStream.ofText .html source).tokens = tokens at *
  induction index with
  | zero => simp [feedsLost, Tokens.feedsBefore, Tokens.textBetween_self, Text.newlines]
  | succ index ih =>
      have here : tokens[index]? = some tokens[index] := Array.getElem?_eq_getElem inside
      have before := ih (Nat.le_of_succ_le inside)
      rw [Tokens.feedsBefore_succ here, ← before, List.range_succ, List.flatMap_append,
        Text.newlines_append, List.flatMap_singleton, feedsLost,
        sum_filter_lt_succ nodupBehind, ← feedsLost, Tokens.textAt_of_getElem? here, remains]
      -- A word has no line feed in it.
      have oneLine (member : index ∈ finals) : Text.newlines tokens[index].text = 0 := by
        obtain ⟨token, same, kind⟩ := Tokens.kindAt_eq_some.mp (isFinal index member)
        cases here.symm.trans same
        exact List.count_eq_zero.mpr
          (worded.oneLine (Array.getElem_mem inside) (by rw [kind]; rfl))
      by_cases white : index ∈ finals.map (· + 1)
      · rw [if_pos (.inr white), if_pos white]
        change _ + 0 + _ = _
        omega
      · rw [if_neg white]
        by_cases member : index ∈ finals
        · rw [if_pos (.inl member), oneLine member]
          change _ + 0 + _ = _
          omega
        · rw [if_neg (by simp [member, white]), Tokens.textAt_of_getElem? here]
          omega

/-- The line feeds of an unsealed file: those go that are in the white space behind the words that
go, and no others. -/
structure Feeds (source : Text) (finals : List Nat) (written : Text) : Prop where
  /-- What is written for the tokens in front of a position has the line feeds that are in front of
  it in the file, less those that went. -/
  before : ∀ index ≤ (TokenStream.ofText .html source).tokens.size,
    Text.newlines ((List.range index).flatMap
        (remains finals (TokenStream.ofText .html source).tokens)) +
      feedsLost finals (TokenStream.ofText .html source).tokens index =
        (TokenStream.ofText .html source).tokens.feedsBefore index
  total : Text.newlines written + feedsLost finals (TokenStream.ofText .html source).tokens
    (TokenStream.ofText .html source).tokens.size = Text.newlines source
  /-- Where no line ends behind a word that goes, every token stays on its line. -/
  kept : (∀ final ∈ finals,
      '\n' ∉ (TokenStream.ofText .html source).tokens.textAt (final + 1)) →
    Text.newlines written = Text.newlines source ∧
    ∀ index ≤ (TokenStream.ofText .html source).tokens.size,
      Text.newlines ((List.range index).flatMap
        (remains finals (TokenStream.ofText .html source).tokens)) =
          (TokenStream.ofText .html source).tokens.feedsBefore index

theorem feedsLost_eq_zero {finals : List Nat} {tokens : Tokens}
    (oneLine : ∀ final ∈ finals, '\n' ∉ tokens.textAt (final + 1)) (index : Nat) :
    feedsLost finals tokens index = 0 := by
  rw [feedsLost, List.sum_eq_zero_iff_forall_eq_nat]
  intro lost member
  obtain ⟨white, among, rfl⟩ := List.mem_map.mp member
  obtain ⟨final, isFinal, rfl⟩ := List.mem_map.mp (List.mem_filter.mp among).1
  exact List.count_eq_zero.mpr (oneLine final isFinal)

/-- Unsealing loses the line feeds behind the words that it takes out, and only those: in a file
where none of these words ends its line, all tokens that stay keep their lines. -/
theorem feeds_of_parse {listLines : Bool} {source : Text} {tree : Tree}
    (parsed : parse listLines source = .ok tree) (unsealing : Unsealing) (file : Option Path) :
    ∃ stretches finals,
      Unsealed source tree stretches finals (Weaver.weave unsealing tree file).2.source ∧
      Feeds source finals (Weaver.weave unsealing tree file).2.source := by
  obtain ⟨stretches, nodup, unsealed⟩ := unsealed_finals parsed unsealing file
  have before {index : Nat} (inside : index ≤ (TokenStream.ofText .html source).tokens.size) :=
    newlines_remains nodup (fun final member => by
      obtain ⟨_, _, _, _, -, -, loses⟩ := unsealed.loses final member
      exact loses.isFinal) inside
  have total := before (Nat.le_refl _)
  rw [← unsealed.written, Tree.feedsBefore_ofText] at total
  refine ⟨stretches, _, unsealed, fun index inside => before inside, total, fun oneLine => ?_⟩
  have none := feedsLost_eq_zero oneLine
  rw [none, Nat.add_zero] at total
  refine ⟨total, fun index inside => ?_⟩
  rw [← before inside, none, Nat.add_zero]

/-- Two sealed classes, one with its seal on a line of its own. -/
theorem feeds_of_parse_two :
    let source := "<?php\nfinal class A\x7b\x7d\nfinal\nclass B\x7b\x7d\n".toList
    ∃ tree stretches finals, parse false source = .ok tree ∧
      Unsealed source tree stretches finals (Weaver.weave ({} : Unsealing) tree none).2.source ∧
      Feeds source finals (Weaver.weave ({} : Unsealing) tree none).2.source := by
  intro source
  have closes : (parse false source).toBool = true := by decide +kernel
  cases parsed : parse false source with
  | error fault =>
      rw [parsed] at closes
      cases closes
  | ok tree =>
      obtain ⟨stretches, finals, unsealed, feeds⟩ := feeds_of_parse parsed {} none
      exact ⟨tree, stretches, finals, rfl, unsealed, feeds⟩

/-- A line feed behind a seal goes with it, and the class moves up a line. -/
theorem line_lost_with_seal :
    (parse false "<?php final\nclass A \x7b\x7d".toList).toOption.map (fun tree =>
      (Weaver.weave ({} : Unsealing) tree none).2.source) =
        some "<?php class A \x7b\x7d".toList := by
  decide +kernel

end Unsealing
end PhpWeave
