import PhpWeave.Weave.Standard
import PhpWeave.Weave.Weaver

set_option autoImplicit false

/-!
Weavers keep nothing of the files they wove. All that a run changes in a weaver is its count, which
the next run sets anew, so what a chain makes of a file depends on the settings of its weavers and
on the file.
-/

namespace PhpWeave

namespace Redirection

def settings (redirection : Redirection) : Redirection := { redirection with count := 0 }

theorem settings_allot (redirection : Redirection) (block : RedirectionBlock)
    (reference : Reference) :
    (redirection.allot block reference).2.1.settings = redirection.settings := by
  unfold allot
  split <;> rfl

theorem settings_putAll (redirection : Redirection) (block : RedirectionBlock)
    (entries : List (Token × Option Reference)) :
    (redirection.putAll block entries).2.1.settings = redirection.settings := by
  induction entries generalizing redirection block with
  | nil => rfl
  | cons entry rest ih =>
      obtain ⟨token, choice⟩ := entry
      cases choice with
      | none => exact ih redirection block
      | some reference => exact (ih _ _).trans (settings_allot redirection block reference)

theorem settings_redirectNode (run : Run) (id : NodeId) :
    (redirectNode run id).redirection.settings = run.redirection.settings := by
  simp only [redirectNode]
  split
  · rfl
  · split
    · split
      · rfl
      · split
        · exact settings_putAll _ _ _
        · rfl
    · rfl

theorem settings_redirect (redirection : Redirection) (tree : Tree) :
    (redirection.redirect tree).1.settings = redirection.settings :=
  List.foldlRecOn tree.editableNodes redirectNode
    (motive := fun run => run.redirection.settings = redirection.settings) rfl
    fun run same id _ => (settings_redirectNode run id).trans same

end Redirection

namespace StandardWeaver

def settings : StandardWeaver → StandardWeaver
  | .interception weaver => .interception { weaver with count := 0 }
  | .redirection weaver => .redirection weaver.settings
  | .unsealing weaver => .unsealing { weaver with count := 0 }
  | .exitHook weaver => .exitHook weaver
  | .pathPin weaver => .pathPin weaver
  | .isolation weaver => .isolation weaver

variable (weaver : StandardWeaver) (tree : Tree) (file : Option Path)

theorem weave_settings : weaver.settings.weave tree file = weaver.weave tree file := by
  cases weaver <;> rfl

theorem settings_weave : (weaver.weave tree file).1.settings = weaver.settings := by
  cases weaver with
  | redirection weaver => exact congrArg redirection (Redirection.settings_redirect weaver tree)
  | pathPin weaver =>
      simp only [weave, Weaver.weave]
      split <;> rfl
  | interception | unsealing | exitHook | isolation => rfl

end StandardWeaver

namespace Chain

def settingsOf (entries : List (Text × StandardWeaver)) : List (Text × StandardWeaver) :=
  entries.map fun entry => (entry.1, entry.2.settings)

theorem settingsOf_weaveAll (entries : List (Text × StandardWeaver)) (tree : Tree)
    (file : Option Path) :
    settingsOf (weaveAll entries tree file).1 = settingsOf entries := by
  induction entries generalizing tree with
  | nil => rfl
  | cons entry rest ih =>
      rw [weaveAll, settingsOf, List.map_cons, settingsOf, List.map_cons]
      congr 1
      · exact congrArg _ (StandardWeaver.settings_weave entry.2 tree file)
      · exact ih _

theorem weaveAll_settingsOf (entries : List (Text × StandardWeaver)) (tree : Tree)
    (file : Option Path) :
    weaveAll (settingsOf entries) tree file = weaveAll entries tree file := by
  induction entries generalizing tree with
  | nil => rfl
  | cons entry rest ih =>
      have same : Weaver.weave entry.2.settings tree file = Weaver.weave entry.2 tree file :=
        StandardWeaver.weave_settings entry.2 tree file
      have further := ih (Weaver.weave entry.2 tree file).2
      rw [settingsOf] at further
      rw [settingsOf, List.map_cons, weaveAll, weaveAll, same, further]

def settings (chain : Chain StandardWeaver) : Chain StandardWeaver := ⟨settingsOf chain.entries⟩

theorem names_settings (chain : Chain StandardWeaver) : chain.settings.names = chain.names :=
  List.map_map ..

theorem settings_weave (chain : Chain StandardWeaver) (source : Text) (file : Option Path) :
    (chain.weave source file).2.settings = chain.settings := by
  unfold weave
  split
  · rfl
  · exact congrArg Chain.mk (settingsOf_weaveAll chain.entries _ file)

/-- What a chain makes of a file depends on the settings of its weavers. -/
theorem weave_settings (chain : Chain StandardWeaver) (source : Text) (file : Option Path) :
    (chain.settings.weave source file).1 = (chain.weave source file).1 := by
  unfold weave
  split
  · rfl
  · next tree _ =>
      have same := weaveAll_settingsOf chain.entries tree file
      simp only [weaveTree, settings, same]

end Chain
end PhpWeave
