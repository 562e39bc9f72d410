import Mathlib.Data.List.Induction
import ParserKit.Config.FileTree

/-!
# The nearest configuration

A start path is first resolved: its dots stay and go up by the names that are
written, so the search is along the resolved path.  It looks into a directory and
goes on to the one above it.  It stops where it finds a configuration, and otherwise
at the root, which it knows by being its own directory above.  So it ends, it has
looked into the root before it gives up, and what it finds stands in the deepest
directory that has a configuration.
-/

namespace ParserKit.FileTree

variable {tree : FileTree} {directory d d' : Path} {name : String}

/-- There is a configuration in the directory. -/
def HasConfig (tree : FileTree) (directory : Path) : Prop :=
  (tree.entry? (candidate directory)).isSome = true

instance (tree : FileTree) (directory : Path) : Decidable (tree.HasConfig directory) :=
  inferInstanceAs (Decidable (_ = true))

/-- Where the search starts: a file is not looked into, but the directory that it stands in. -/
def startDirectory (tree : FileTree) (directory : Path) (start : Option String) : Path :=
  match tree.entry? (Path.ofStart directory start) with
  | some (.file _) => (Path.ofStart directory start).dropLast
  | _ => Path.ofStart directory start

theorem findConfig_eq (tree : FileTree) (directory : Path) (start : Option String) :
    tree.findConfig directory start =
      tree.nearestConfig (tree.startDirectory directory start).reverse := by
  rcases h : tree.entry? (Path.ofStart directory start) with _ | content | _ <;>
    simp [findConfig, isFile, startDirectory, h]

/-- The working directory does not count for an absolute start path. -/
theorem ofStart_of_isAbsolute {s : String} (h : Path.isAbsolute s = true) (directory : Path) :
    Path.ofStart directory (some s) = Path.ofStart [] (some s) := by
  rw [Path.ofStart, Path.ofStart, Path.resolve, Path.resolve, if_pos h, if_pos h]

/-! ## Rounds -/

/-- One round of the search: an answer, or the directory that is looked into next. -/
def searchRound (tree : FileTree) (directory : Path) : Option Path ⊕ Path :=
  if tree.HasConfig directory then .inl (some (candidate directory))
  else if directory.dropLast = directory then .inl none
  else .inr directory.dropLast

/-- The answer of the search, if it has ended after so many rounds. -/
def searchWithin (tree : FileTree) : Nat → Path → Option (Option Path)
  | 0, _ => none
  | rounds + 1, directory =>
      match tree.searchRound directory with
      | .inl answer => some answer
      | .inr above => tree.searchWithin rounds above

/-- The root is looked into before the search gives up. -/
theorem nearestConfig_root (tree : FileTree) :
    tree.nearestConfig (List.reverse []) =
      if tree.HasConfig [] then some (candidate []) else none :=
  rfl

theorem nearestConfig_concat (tree : FileTree) (above : Path) (name : String) :
    tree.nearestConfig (above ++ [name]).reverse =
      if tree.HasConfig (above ++ [name]) then some (candidate (above ++ [name]))
      else tree.nearestConfig above.reverse := by
  rw [List.reverse_append, List.reverse_singleton, List.singleton_append, nearestConfig,
    List.reverse_cons, List.reverse_reverse]
  rfl

theorem searchRound_root (tree : FileTree) :
    tree.searchRound [] = .inl (if tree.HasConfig [] then some (candidate []) else none) := by
  rw [searchRound]
  split <;> rfl

theorem searchRound_concat (tree : FileTree) (above : Path) (name : String) :
    tree.searchRound (above ++ [name]) =
      if tree.HasConfig (above ++ [name]) then .inl (some (candidate (above ++ [name])))
      else .inr above := by
  have hne : above ≠ above ++ [name] := by simp
  rw [searchRound, List.dropLast_concat, if_neg hne]

/-- Each round but the last goes one directory up, so there are no more rounds than directories. -/
theorem searchWithin_eq (tree : FileTree) {rounds : Nat} {directory : Path}
    (h : directory.length < rounds) :
    tree.searchWithin rounds directory = some (tree.nearestConfig directory.reverse) := by
  induction rounds generalizing directory with
  | zero => exact absurd h (Nat.not_lt_zero _)
  | succ rounds ih =>
      rw [searchWithin]
      cases directory using List.reverseRecOn with
      | nil => rw [searchRound_root, nearestConfig_root]
      | append_singleton above name =>
          rw [searchRound_concat, nearestConfig_concat]
          by_cases hhere : tree.HasConfig (above ++ [name])
          · rw [if_pos hhere, if_pos hhere]
          · rw [if_neg hhere, if_neg hhere]
            rw [List.length_append, List.length_singleton] at h
            exact ih (Nat.lt_of_succ_lt_succ h)

/-! ## The nearest of them -/

/-- Of the directory and those above it, `d` is the deepest one with a configuration. -/
structure Nearest (tree : FileTree) (directory d : Path) : Prop where
  above : d <+: directory
  hasConfig : tree.HasConfig d
  deepest : ∀ d', d' <+: directory → tree.HasConfig d' → d'.length ≤ d.length

theorem Nearest.unique (h : Nearest tree directory d) (h' : Nearest tree directory d') :
    d = d' := by
  have hlength : d.length = d'.length :=
    Nat.le_antisymm (h'.deepest d h.above h.hasConfig) (h.deepest d' h'.above h'.hasConfig)
  have hprefix := List.prefix_of_prefix_length_le h.above h'.above (Nat.le_of_eq hlength)
  exact hprefix.eq_of_length hlength

theorem nearest_self (h : tree.HasConfig directory) : Nearest tree directory directory :=
  ⟨List.prefix_rfl, h, fun _ habove _ => habove.length_le⟩

/-- A directory without a configuration leaves the search to the one above it. -/
theorem Nearest.concat {above : Path} (hno : ¬ tree.HasConfig (above ++ [name]))
    (h : Nearest tree above d) : Nearest tree (above ++ [name]) d := by
  refine ⟨h.above.trans (List.prefix_append above [name]), h.hasConfig, fun d' habove hd' => ?_⟩
  rcases List.prefix_concat_iff.1 habove with rfl | habove
  · exact absurd hd' hno
  · exact h.deepest d' habove hd'

/-- On the directories above: none has a configuration, or the search finds that of the deepest. -/
theorem nearestConfig_cases (tree : FileTree) (directory : Path) :
    (tree.nearestConfig directory.reverse = none ∧ ∀ d, d <+: directory → ¬ tree.HasConfig d) ∨
      ∃ d, tree.nearestConfig directory.reverse = some (candidate d) ∧
        Nearest tree directory d := by
  induction directory using List.reverseRecOn with
  | nil =>
      rw [nearestConfig_root]
      by_cases hroot : tree.HasConfig []
      · exact .inr ⟨[], if_pos hroot, nearest_self hroot⟩
      · refine .inl ⟨if_neg hroot, fun d habove => ?_⟩
        rwa [List.prefix_nil.1 habove]
  | append_singleton above name ih =>
      rw [nearestConfig_concat]
      by_cases hhere : tree.HasConfig (above ++ [name])
      · exact .inr ⟨above ++ [name], if_pos hhere, nearest_self hhere⟩
      · rw [if_neg hhere]
        rcases ih with ⟨hnone, habove⟩ | ⟨d, hfound, hnearest⟩
        · refine .inl ⟨hnone, fun d hd => ?_⟩
          rcases List.prefix_concat_iff.1 hd with rfl | hd
          · exact hhere
          · exact habove d hd
        · exact .inr ⟨d, hfound, hnearest.concat hhere⟩

/-- The search ends, after as many rounds as there are directories from the start up to the root at
most.  It finds the configuration in the deepest directory that has one, and nothing just where no
directory has one.  The start path may be written in any way, and an absolute one means the same
from everywhere. -/
theorem findConfig_nearest (tree : FileTree) (directory : Path) (start : Option String) :
    tree.searchWithin ((tree.startDirectory directory start).length + 1)
        (tree.startDirectory directory start) = some (tree.findConfig directory start) ∧
      (∀ found, tree.findConfig directory start = some found ↔
        ∃ d, Nearest tree (tree.startDirectory directory start) d ∧ found = candidate d) ∧
      (tree.findConfig directory start = none ↔
        ∀ d, d <+: tree.startDirectory directory start → ¬ tree.HasConfig d) ∧
      ∀ s, Path.isAbsolute s = true →
        tree.startDirectory directory (some s) = tree.startDirectory [] (some s) := by
  rw [findConfig_eq]
  refine ⟨tree.searchWithin_eq (Nat.lt_succ_self _), ?_⟩
  rw [← and_assoc]
  refine ⟨?_, fun s habsolute => ?_⟩
  swap
  · rw [startDirectory, startDirectory, ofStart_of_isAbsolute habsolute]
  rcases tree.nearestConfig_cases (tree.startDirectory directory start) with
    ⟨hnone, habove⟩ | ⟨d, hfound, hnearest⟩
  · simp only [hnone, reduceCtorEq, false_iff, true_iff]
    exact ⟨fun found ⟨d, hnearest, _⟩ => habove d hnearest.above hnearest.hasConfig, habove⟩
  · simp only [hfound, reduceCtorEq, false_iff, Option.some.injEq]
    refine ⟨fun found => ⟨fun hd => ⟨d, hnearest, hd.symm⟩, ?_⟩, fun hno => ?_⟩
    · rintro ⟨d', hnearest', rfl⟩
      rw [hnearest.unique hnearest']
    · exact hno d hnearest.above hnearest.hasConfig

/-- From a file that is written with dots and two directories up: one configuration stands two
directories above it, and the one in the root is not reached. -/
theorem findConfig_nearest_two_above :
    let tree := ofList [(["combinator.toml"], .file ""), (["a", "combinator.toml"], .file ""),
      (["a", "b", "c", "sum.txt"], .file "1 + 1"), (["a", "d", "combinator.toml"], .file "")]
    let start := some "/a/d/../b/./c//sum.txt"
    Path.isAbsolute "/a/d/../b/./c//sum.txt" = true ∧
      tree.startDirectory ["a", "d"] start = ["a", "b", "c"] ∧
      tree.findConfig ["a", "d"] start = some ["a", "combinator.toml"] ∧
      tree.searchWithin 4 ["a", "b", "c"] = some (some ["a", "combinator.toml"]) ∧
      (∃ d, Nearest tree ["a", "b", "c"] d ∧ ["a", "combinator.toml"] = candidate d) ∧
      tree.startDirectory ["a", "d"] start = tree.startDirectory [] start := by
  intro tree start
  have habsolute : Path.isAbsolute "/a/d/../b/./c//sum.txt" = true := by decide
  have hstart : tree.startDirectory ["a", "d"] start = ["a", "b", "c"] := by decide
  have hfound : tree.findConfig ["a", "d"] start = some ["a", "combinator.toml"] := by
    decide
  obtain ⟨hends, hnearest, -, hanywhere⟩ := findConfig_nearest tree ["a", "d"] start
  rw [hstart] at hends hnearest
  exact ⟨habsolute, hstart, hfound, hends.trans (congrArg some hfound), (hnearest _).1 hfound,
    hanywhere _ habsolute⟩

end ParserKit.FileTree
