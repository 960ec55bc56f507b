import PhpWeave.Proofs.Weave.Answering
import PhpWeave.Proofs.Weave.Keyword
import PhpWeave.Proofs.Weave.Steady

set_option autoImplicit false

/-!
Names that a redirection is told to leave alone. It keeps them in small letters and never forgets
one, however many files it weaves. A name is looked up without the backslashes in front of it, but
kept with them, so one that is given with a backslash is never found again.
-/

namespace PhpWeave

open Scan PhpWeave.Tree

/-- Two names that differ in letter case and in the backslashes in front only. -/
def Text.SameName (left right : Text) : Prop :=
  Text.lower (Text.dropLeadingSeparators left) = Text.lower (Text.dropLeadingSeparators right)

instance (left right : Text) : Decidable (Text.SameName left right) :=
  inferInstanceAs (Decidable (_ = _))

theorem Text.isRooted_lower (name : Text) : isRooted (lower name) = isRooted name := by
  cases name with
  | nil => rfl
  | cons c rest =>
      change (c.toLower == '\\') = (c == '\\')
      rcases Nat.lt_or_ge c.toNat 128 with small | wide
      · have all : ∀ code < 128, ((Char.ofNat code).toLower == '\\') = (Char.ofNat code == '\\') := by
          decide
        exact Char.ofNat_toNat c ▸ all c.toNat small
      · have kept : c.toLower = c := by
          refine dif_neg fun capital => ?_
          have below : c.toNat ≤ 90 := UInt32.le_iff_toNat_le.mp capital.2
          omega
        rw [kept]

theorem Reserved.words_plain :
    ∀ word ∈ words, Text.lower word = word ∧ word.isRooted = false := by
  decide +kernel

namespace Redirection

/-- What is done to a redirection. -/
inductive Action where
  | reserve (name : Text)
  | weave (tree : Tree) (file : Option Path)

def act (redirection : Redirection) : Action → Redirection
  | .reserve name => redirection.reserve name
  | .weave tree file => (Weaver.weave redirection tree file).1

/-- The redirection after some actions, of which the first finds it new. -/
def after (resolver tag : Text) (actions : List Action) : Redirection :=
  actions.foldl act { resolver := resolver, tag := tag }

/-- The names that were given to it, first given first. -/
def given (actions : List Action) : List Text :=
  actions.filterMap fun
    | .reserve name => some name
    | .weave _ _ => none

theorem given_append (actions later : List Action) :
    given (actions ++ later) = given actions ++ given later :=
  List.filterMap_append

/-- A redirection leaves some names alone in a tree. -/
structure LeavesAlone (redirection : Redirection) (tree : Tree) (isName : Text → Prop) : Prop where
  /-- The code of the woven tree, told by what is chosen for each of its tokens. -/
  rewrites : ∀ file, tree.Rewrites (redirection.choice tree)
    (Weaver.weave redirection tree file).2.partText
  names : ∀ id place token, (Fragment.tokens (tree.node id).body)[place]? = some token →
    isName token.text → redirection.choice tree id place = none

/-- A redirection leaves some names alone in a file, wherever they stand in it. -/
structure LeavesAloneIn (redirection : Redirection) (tree : Tree) (source : Text)
    (isName : Text → Prop) (stretches : List Stretch) : Prop where
  ranges : tree.Ranges (TokenStream.ofText .html source).tokens stretches
  /-- The redirected file without its assignments, told by what is put down for each token. -/
  written : ∀ file, (Weaver.weave redirection tree file).2.writtenText =
    (List.range (TokenStream.ofText .html source).tokens.size).flatMap
      (putAt stretches (TokenStream.ofText .html source).tokens (redirection.choice tree))
  names : ∀ index token, (TokenStream.ofText .html source).tokens[index]? = some token →
    isName token.text →
      putAt stretches (TokenStream.ofText .html source).tokens (redirection.choice tree) index =
        token.text

/-- What a redirection has kept after some actions, and what it makes of it later. -/
structure Reservation (resolver tag : Text) (actions : List Action) : Prop where
  /-- A name is found when it is, in any case and without the backslashes in front of it, a word of
  the library or a name that was given. -/
  found : ∀ name, (after resolver tag actions).isReserved name = true ↔
    ∃ entry ∈ Reserved.words ++ given actions,
      Text.lower entry = Text.lower (Text.dropLeadingSeparators name)
  /-- Backslashes count on neither side when no name was given with one in front. -/
  plain : (∀ entry ∈ given actions, entry.isRooted = false) → ∀ name,
    ((after resolver tag actions).isReserved name = true ↔
      ∃ entry ∈ Reserved.words ++ given actions, Text.SameName name entry)
  /-- A name that is given with a backslash in front is kept for nothing. -/
  idle : ∀ entry, entry.isRooted = true → ∀ name,
    (after resolver tag (actions ++ [.reserve entry])).isReserved name =
      (after resolver tag actions).isReserved name
  /-- Whatever is done later, what is spelled like a name that is found now stays as it is. -/
  trees : ∀ later tree, tree.Linked →
    (after resolver tag (actions ++ later)).LeavesAlone tree fun text =>
      ∃ name, (after resolver tag actions).isReserved name = true ∧ Text.SameName text name
  files : ∀ later listLines source tree, parse listLines source = .ok tree → ∃ stretches,
    (after resolver tag (actions ++ later)).LeavesAloneIn tree source (fun text =>
      ∃ name, (after resolver tag actions).isReserved name = true ∧ Text.SameName text name)
        stretches

section Kept

variable {resolver tag : Text} {actions : List Action} {name : Text}

theorem after_append (actions later : List Action) :
    after resolver tag (actions ++ later) = later.foldl act (after resolver tag actions) :=
  List.foldl_append

theorem reserved_weave (redirection : Redirection) (tree : Tree) (file : Option Path) :
    (Weaver.weave redirection tree file).1.reserved = redirection.reserved :=
  show (redirection.redirect tree).1.settings.reserved = redirection.settings.reserved from
    congrArg Redirection.reserved (redirection.settings_redirect tree)

theorem reserved_after (resolver tag : Text) (actions : List Action) :
    (after resolver tag actions).reserved =
      ((given actions).map Text.lower).reverse ++ Reserved.words := by
  induction actions using List.reverseRecOn with
  | nil => rfl
  | append_singleton actions action ih =>
      rw [after_append, List.foldl_cons, List.foldl_nil, given_append, List.map_append,
        List.reverse_append, List.append_assoc, ← ih]
      cases action with
      | reserve name => rfl
      | weave tree file => exact reserved_weave _ tree file

theorem isReserved_after : (after resolver tag actions).isReserved name = true ↔
    ∃ entry ∈ Reserved.words ++ given actions,
      Text.lower entry = Text.lower (Text.dropLeadingSeparators name) := by
  rw [isReserved, Reference.isReserved, reserved_after, List.contains_iff_mem]
  simp only [List.mem_append, List.mem_reverse, List.mem_map]
  constructor
  · rintro (⟨entry, member, same⟩ | member)
    · exact ⟨entry, .inr member, same⟩
    · exact ⟨_, .inl member, (Reserved.words_plain _ member).1⟩
  · rintro ⟨entry, member | member, same⟩
    · rw [← same, (Reserved.words_plain entry member).1]
      exact .inr member
    · exact .inl ⟨entry, member, same⟩

theorem isReserved_after_plain (plain : ∀ entry ∈ given actions, entry.isRooted = false) :
    (after resolver tag actions).isReserved name = true ↔
      ∃ entry ∈ Reserved.words ++ given actions, Text.SameName name entry := by
  have bare {entry : Text} (member : entry ∈ Reserved.words ++ given actions) :
      Text.dropLeadingSeparators entry = entry := by
    refine Text.dropLeadingSeparators_eq_self ?_
    rcases List.mem_append.mp member with word | among
    · exact (Reserved.words_plain entry word).2
    · exact plain entry among
  rw [isReserved_after]
  refine exists_congr fun entry => and_congr_right fun member => ?_
  rw [Text.SameName, bare member]
  exact eq_comm

theorem lower_ne_of_isRooted {entry : Text} (rooted : entry.isRooted = true) (name : Text) :
    Text.lower entry ≠ Text.lower (Text.dropLeadingSeparators name) := by
  intro same
  have mark := congrArg Text.isRooted same
  rw [Text.isRooted_lower, Text.isRooted_lower, rooted, Text.isRooted_dropLeadingSeparators] at mark
  cases mark

theorem isReserved_reserve_rooted {entry : Text} (rooted : entry.isRooted = true) (name : Text) :
    (after resolver tag (actions ++ [.reserve entry])).isReserved name =
      (after resolver tag actions).isReserved name := by
  rw [Bool.eq_iff_iff, isReserved_after, isReserved_after, given_append]
  constructor
  · rintro ⟨other, member, same⟩
    rw [← List.append_assoc] at member
    rcases List.mem_append.mp member with before | last
    · exact ⟨other, before, same⟩
    · obtain rfl := List.mem_singleton.mp last
      exact absurd same (lower_ne_of_isRooted rooted name)
  · rintro ⟨other, member, same⟩
    exact ⟨other, List.append_assoc _ _ _ ▸ List.mem_append_left _ member, same⟩

theorem isReserved_later {later : List Action} {text : Text}
    (now : (after resolver tag actions).isReserved name = true) (same : Text.SameName text name) :
    (after resolver tag (actions ++ later)).isReserved text = true := by
  obtain ⟨entry, member, isOne⟩ := isReserved_after.mp now
  rw [isReserved_after, given_append, ← List.append_assoc]
  exact ⟨entry, List.mem_append_left _ member, isOne.trans same.symm⟩

end Kept

section Spared

variable {redirection : Redirection} {tree : Tree} {isName : Text → Prop}
  (reserved : ∀ text, isName text → redirection.isReserved text = true)
include reserved

theorem leavesAlone_of_linked (linked : tree.Linked) : redirection.LeavesAlone tree isName := by
  refine ⟨fun _ => redirection.rewrites_redirect linked, fun id place token here isOne => ?_⟩
  cases chosen : redirection.choice tree id place with
  | none => rfl
  | some text =>
      obtain ⟨found, reference, block, chosen⟩ := choice_eq_some chosen
      obtain rfl : found = token := Option.some.inj (chosen.refers.here.symm.trans here)
      have free := chosen.refers.free
      rw [← isReserved, reserved _ isOne] at free
      cases free

theorem leavesAlone_of_parse {listLines : Bool} {source : Text}
    (parsed : parse listLines source = .ok tree) :
    ∃ stretches, redirection.LeavesAloneIn tree source isName stretches := by
  obtain ⟨events, stretches, told⟩ := told_of_parse parsed
  have native := native_of_parse parsed
  obtain ⟨-, whole, -⟩ := made_of_parse parsed
  exact ⟨stretches, told.ranges, writtenText_of_ranges told.ranges native whole redirection,
    fun _ _ here isOne =>
      putAt_of_isReserved told.ranges native.linked here (reserved _ isOne)⟩

end Spared

/-- Whatever files a redirection weaves in between, it keeps the names that it was given without a
backslash in front, and leaves alone what is spelled like them. -/
theorem reservation_of_history (resolver tag : Text) (actions : List Action) :
    Reservation resolver tag actions where
  found _ := isReserved_after
  plain unrooted _ := isReserved_after_plain unrooted
  idle _ rooted name := isReserved_reserve_rooted rooted name
  trees _ _ linked := leavesAlone_of_linked (fun _ ⟨_, now, same⟩ => isReserved_later now same) linked
  files _ _ _ _ parsed :=
    leavesAlone_of_parse (fun _ ⟨_, now, same⟩ => isReserved_later now same) parsed

/-- A name that was given is found in another case and with a backslash in front. -/
theorem reservation_of_history_plain :
    (after [] [] [.reserve "Dump".toList, .weave .empty none]).isReserved "\\DUMP".toList = true :=
  ((reservation_of_history [] [] [.reserve "Dump".toList, .weave .empty none]).plain (by decide) _).mpr
    ⟨"Dump".toList, by decide +kernel, by decide⟩

/-- A name that was given with a backslash in front is not found, not even as it was given. -/
theorem rooted_name_forgotten :
    "\\Dump".toList ∈ given [.reserve "\\Dump".toList] ∧
      (after [] [] [.reserve "\\Dump".toList]).isReserved "\\Dump".toList = false := by
  decide +kernel

end Redirection
end PhpWeave
