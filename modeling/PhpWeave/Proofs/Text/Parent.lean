import PhpWeave.Path
import PhpWeave.Proofs.Text.Pieces

set_option autoImplicit false

/-!
The parent of a path is a beginning of it, and has the same parts but for the last one. The empty
path and the root have none.
-/

namespace PhpWeave

open Text

theorem Text.joinWith_begins (separator : Text) (front back : List Text) :
    joinWith separator front <+: joinWith separator (front ++ back) := by
  induction front with
  | nil => exact List.nil_prefix
  | cons first rest ih =>
      by_cases last : rest = []
      · rw [last]
        cases back with
        | nil => exact List.prefix_refl _
        | cons next later =>
            rw [List.singleton_append, joinWith_cons _ _ (List.cons_ne_nil _ _), List.append_assoc]
            exact List.prefix_append _ _
      · have longer : rest ++ back ≠ [] := List.append_ne_nil_of_left_ne_nil last back
        rw [List.cons_append, joinWith_cons separator first last,
          joinWith_cons separator first longer]
        exact (List.prefix_append_right_inj _).mpr ih

namespace Path

/-- What is left of a path without its last part: a beginning of it as it is written. -/
def DropsLast (path : Path) : Option Path → Prop
  | none => parts path = [] ∨ parts path = [.root]
  | some parent => parent <+: path ∧ ∃ last, last ≠ .root ∧ parts path = parts parent ++ [last]

/-! ### Pieces between slashes -/

theorem part?_eq_none {piece : Text} : part? piece = none ↔ isIdle piece = true := by
  rw [isIdle, Bool.or_eq_true, List.isEmpty_iff, beq_iff_eq, part?]
  constructor
  · intro none
    split at none
    · next idle => exact idle
    · split at none <;> cases none
  · exact fun idle => if_pos idle

theorem part?_ne_root {piece : Text} {part : Part} (isPart : part? piece = some part) :
    part ≠ .root := by
  unfold part? at isPart
  split at isPart
  · cases isPart
  · split at isPart <;> cases isPart <;> exact Part.noConfusion

/-- What stands in front of the last piece that counts, without what counts for nothing there. -/
structure Leads (pieces front : List Text) (last : Part) : Prop where
  before : front <+: pieces
  parts : pieces.filterMap part? = front.filterMap part? ++ [last]
  other : last ≠ .root
  counts : ∀ earlier final, front = earlier ++ [final] → isIdle final = false

theorem filterMap_dropWhile_reverse (pieces : List Text) :
    (pieces.dropWhile isIdle).reverse.filterMap part? = pieces.reverse.filterMap part? := by
  have idle : (pieces.takeWhile isIdle).reverse.filterMap part? = [] := by
    refine List.filterMap_eq_nil_iff.mpr fun piece member => part?_eq_none.mpr ?_
    exact List.all_eq_true.mp List.all_takeWhile piece (List.mem_reverse.mp member)
  have cut : pieces.reverse =
      (pieces.dropWhile isIdle).reverse ++ (pieces.takeWhile isIdle).reverse := by
    rw [← List.reverse_append, List.takeWhile_append_dropWhile]
  rw [cut, List.filterMap_append, idle, List.append_nil]

theorem leads_of_kept {pieces earlier : List Text} {last : Text}
    (kept : pieces.reverse.dropWhile isIdle = last :: earlier) :
    ∃ part, Leads pieces (earlier.dropWhile isIdle).reverse part := by
  have counts : ¬ isIdle last = true := by
    have first := List.head?_dropWhile_not isIdle pieces.reverse
    rw [kept] at first
    exact Bool.eq_false_iff.mp first
  obtain ⟨part, isPart⟩ := Option.ne_none_iff_exists'.mp fun none => counts (part?_eq_none.mp none)
  have whole : pieces.filterMap part? = earlier.reverse.filterMap part? ++ [part] := by
    have same := filterMap_dropWhile_reverse pieces.reverse
    rw [kept, List.reverse_reverse, List.reverse_cons, List.filterMap_append] at same
    rw [← same, List.filterMap_cons, isPart]
    rfl
  refine ⟨part, ?_, ?_, part?_ne_root isPart, ?_⟩
  · rw [← List.reverse_suffix, List.reverse_reverse]
    have behind : last :: earlier <:+ pieces.reverse := kept ▸ List.dropWhile_suffix isIdle
    exact (List.dropWhile_suffix isIdle).trans ((List.suffix_cons last earlier).trans behind)
  · rw [whole, filterMap_dropWhile_reverse]
  · intro others final same
    have first := List.head?_dropWhile_not isIdle earlier
    rw [← List.reverse_reverse (earlier.dropWhile isIdle), same, List.reverse_append] at first
    exact first

theorem pieces_joinWith {pieces : List Text} (unmarked : ∀ piece ∈ pieces, '/' ∉ piece) :
    (splitAt '/' (joinWith ['/'] pieces)).filterMap part? = pieces.filterMap part? := by
  by_cases none : pieces = []
  · rw [none]
    rfl
  · rw [splitAt_joinWith none unmarked]

/-! ### How paths begin -/

structure IsPlain (path : Path) : Prop where
  noSlash : ∀ rest, path ≠ '/' :: rest
  noDot : path ≠ ['.']
  noDotSlash : ∀ rest, path ≠ '.' :: '/' :: rest

theorem IsPlain.parts {path : Path} (plain : path.IsPlain) :
    parts path = (splitAt '/' path).filterMap part? :=
  parts.eq_4 path plain.noSlash plain.noDot plain.noDotSlash

theorem IsPlain.headLength {path : Path} (plain : path.IsPlain) : headLength path = 0 :=
  headLength.eq_4 path plain.noSlash plain.noDot plain.noDotSlash

theorem IsPlain.of_begins {path front : Path} (plain : path.IsPlain) (before : front <+: path)
    (noDot : front ≠ ['.']) : front.IsPlain := by
  obtain ⟨behind, rfl⟩ := before
  refine ⟨?_, noDot, ?_⟩
  · rintro rest rfl
    exact plain.noSlash _ rfl
  · rintro rest rfl
    exact plain.noDotSlash _ rfl

/-- The four ways in which a path begins. -/
theorem begins_cases (path : Path) : (∃ rest, path = '/' :: rest) ∨ path = ['.'] ∨
    (∃ rest, path = '.' :: '/' :: rest) ∨ path.IsPlain := by
  by_cases slash : ∃ rest, path = '/' :: rest
  · exact .inl slash
  by_cases dot : path = ['.']
  · exact .inr (.inl dot)
  by_cases dotSlash : ∃ rest, path = '.' :: '/' :: rest
  · exact .inr (.inr (.inl dotSlash))
  · exact .inr (.inr (.inr ⟨fun rest same => slash ⟨rest, same⟩, dot,
      fun rest same => dotSlash ⟨rest, same⟩⟩))

theorem Leads.begins {text : Text} {front : List Text} {last : Part}
    (leads : Leads (splitAt '/' text) front last) : joinWith ['/'] front <+: text := by
  obtain ⟨behind, whole⟩ := leads.before
  have before := joinWith_begins ['/'] front behind
  rwa [whole, joinWith_splitAt] at before

theorem Leads.pieces {text : Text} {front : List Text} {last : Part}
    (leads : Leads (splitAt '/' text) front last) :
    (splitAt '/' text).filterMap part? =
      (splitAt '/' (joinWith ['/'] front)).filterMap part? ++ [last] := by
  rw [leads.parts, pieces_joinWith fun piece member =>
    not_mem_of_mem_splitAt (leads.before.subset member)]

theorem Leads.ne_dot {text : Text} {front : List Text} {last : Part}
    (leads : Leads (splitAt '/' text) front last) : joinWith ['/'] front ≠ ['.'] := by
  intro isDot
  have some : front ≠ [] := by
    rintro rfl
    cases isDot
  have cut := splitAt_joinWith some fun piece member =>
    not_mem_of_mem_splitAt (leads.before.subset member)
  rw [isDot] at cut
  cases leads.counts [] ['.'] cut.symm

theorem filterMap_of_idle {pieces : List Text} (none : pieces.reverse.dropWhile isIdle = []) :
    pieces.filterMap part? = [] := by
  have same := filterMap_dropWhile_reverse pieces.reverse
  rw [none, List.reverse_reverse] at same
  exact same.symm

section Cut

variable {path : Path} {last : Text} {earlier : List Text}

theorem parent?_of_idle
    (idle : (splitAt '/' (path.drop (headLength path))).reverse.dropWhile isIdle = []) :
    path.parent? = if path.take (headLength path) = ['.'] then some [] else none := by
  simp only [parent?, idle]

theorem parent?_of_kept
    (kept : (splitAt '/' (path.drop (headLength path))).reverse.dropWhile isIdle =
      last :: earlier) :
    path.parent? = some (path.take (headLength path) ++
      joinWith ['/'] (earlier.dropWhile isIdle).reverse) := by
  simp only [parent?, kept]

end Cut

theorem dropsLast_rooted (rest : Text) : DropsLast ('/' :: rest) (parent? ('/' :: rest)) := by
  cases kept : (splitAt '/' rest).reverse.dropWhile isIdle with
  | nil =>
      have absent : parent? ('/' :: rest) = none := parent?_of_idle kept
      rw [absent]
      exact .inr (congrArg (Part.root :: ·) (filterMap_of_idle kept))
  | cons last earlier =>
      have found : parent? ('/' :: rest) =
          some ('/' :: joinWith ['/'] (earlier.dropWhile isIdle).reverse) := parent?_of_kept kept
      obtain ⟨part, leads⟩ := leads_of_kept kept
      rw [found]
      exact ⟨(List.prefix_cons_inj '/').mpr leads.begins, part, leads.other,
        congrArg (Part.root :: ·) leads.pieces⟩

theorem dropsLast_dotted (rest : Text) :
    DropsLast ('.' :: '/' :: rest) (parent? ('.' :: '/' :: rest)) := by
  have pieces : splitAt '/' ('/' :: rest) = [] :: splitAt '/' rest := rfl
  cases kept : (splitAt '/' ('/' :: rest)).reverse.dropWhile isIdle with
  | nil =>
      have found : parent? ('.' :: '/' :: rest) = some [] := parent?_of_idle kept
      have idle := filterMap_of_idle kept
      have begins : [] <+: '.' :: '/' :: rest := List.nil_prefix
      rw [found]
      exact ⟨begins, .here, Part.noConfusion, congrArg (Part.here :: ·) idle⟩
  | cons last earlier =>
      have found : parent? ('.' :: '/' :: rest) =
          some ('.' :: joinWith ['/'] (earlier.dropWhile isIdle).reverse) := parent?_of_kept kept
      obtain ⟨part, leads⟩ := leads_of_kept kept
      rw [found]
      refine ⟨(List.prefix_cons_inj '.').mpr leads.begins, part, leads.other, ?_⟩
      generalize (earlier.dropWhile isIdle).reverse = front at leads
      cases front with
      | nil => exact congrArg (Part.here :: ·) leads.pieces
      | cons first others =>
          obtain ⟨rfl, -⟩ := List.cons_prefix_cons.mp (pieces ▸ leads.before)
          -- The piece in front of the slash is empty, so another one stands behind the slash.
          have some : others ≠ [] := by
            rintro rfl
            cases leads.counts [] [] rfl
          have written := joinWith_cons ['/'] [] some
          have parts := leads.pieces
          rw [written] at parts ⊢
          exact congrArg (Part.here :: ·) parts

theorem IsPlain.dropsLast {path : Path} (plain : path.IsPlain) :
    path.DropsLast path.parent? := by
  have behind : path.drop (Path.headLength path) = path := by rw [plain.headLength, List.drop_zero]
  have front : path.take (Path.headLength path) = [] := by rw [plain.headLength, List.take_zero]
  cases kept : (splitAt '/' path).reverse.dropWhile isIdle with
  | nil =>
      have absent : path.parent? = none := by
        rw [parent?_of_idle (behind.symm ▸ kept), front]
        rfl
      rw [absent]
      exact .inl (plain.parts.trans (filterMap_of_idle kept))
  | cons last earlier =>
      have found : path.parent? = some (joinWith ['/'] (earlier.dropWhile isIdle).reverse) := by
        rw [parent?_of_kept (behind.symm ▸ kept), front, List.nil_append]
      obtain ⟨part, leads⟩ := leads_of_kept kept
      rw [found]
      refine ⟨leads.begins, part, leads.other, ?_⟩
      rw [plain.parts, (plain.of_begins leads.begins leads.ne_dot).parts, leads.pieces]

theorem dropsLast_parent? (path : Path) : path.DropsLast path.parent? := by
  rcases begins_cases path with ⟨rest, rfl⟩ | rfl | ⟨rest, rfl⟩ | plain
  · exact dropsLast_rooted rest
  · have begins : [] <+: ['.'] := List.nil_prefix
    exact ⟨begins, .here, Part.noConfusion, rfl⟩
  · exact dropsLast_dotted rest
  · exact plain.dropsLast

end Path
end PhpWeave
