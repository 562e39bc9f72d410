import Mathlib.Data.List.Basic
import ParserKit.Outline
import ParserKit.Proofs.Quoting
import ParserKit.Text.CharClass

/-!
# What an outline shows

A node is shown by its kind and by its named parts, which are texts or nodes in
their turn.  Two things follow from the layout alone.  The lines of a part that
is a node are the ones that are indented deeper than its name, so the lines can
be cut back into the parts that they show, and no two outlines are alike.  And
an outline is complete unless its nodes nest deeper than the limit.
-/

namespace ParserKit

/-- A list is cut in one way only where a condition fails for the first time. -/
theorem append_inj_of_heads {α : Type*} {P : α → Prop} {front front' back back' : List α}
    (hfront : ∀ a ∈ front, P a) (hfront' : ∀ a ∈ front', P a)
    (hback : ∀ a ∈ back.head?, ¬ P a) (hback' : ∀ a ∈ back'.head?, ¬ P a)
    (h : front ++ back = front' ++ back') : front = front' ∧ back = back' := by
  induction front generalizing front' with
  | nil =>
      cases front' with
      | nil => exact ⟨rfl, h⟩
      | cons a front' =>
          rw [List.nil_append] at h
          exact absurd (hfront' a List.mem_cons_self) (hback a (by rw [h]; rfl))
  | cons a front ih =>
      cases front' with
      | nil =>
          rw [List.nil_append] at h
          exact absurd (hfront a List.mem_cons_self) (hback' a (by rw [← h]; rfl))
      | cons b front' =>
          rw [List.cons_append, List.cons_append, List.cons.injEq] at h
          obtain ⟨hfront_eq, hback_eq⟩ := ih (fun x hx => hfront x (List.mem_cons_of_mem a hx))
            (fun x hx => hfront' x (List.mem_cons_of_mem b hx)) h.2
          exact ⟨by rw [h.1, hfront_eq], hback_eq⟩

namespace Outline

variable {depth : Nat} {s t kind name : String}

/-! ## Lines -/

theorem toList_line (depth : Nat) (s : String) :
    (line depth s).toList = List.replicate (2 * depth) ' ' ++ s.toList := by
  have hblanks (n : Nat) : ("".pushn ' ' n).toList = List.replicate n ' ' := by
    induction n with
    | zero => rfl
    | succ n ih =>
        change (("".pushn ' ' n).push ' ').toList = _
        rw [String.toList_push, ih, List.replicate_succ']
  rw [line, String.toList_append, hblanks]

theorem line_injective (h : line depth s = line depth t) : s = t := by
  have hchars := congrArg String.toList h
  rw [toList_line, toList_line] at hchars
  exact String.toList_injective (List.append_cancel_left hchars)

theorem line_succ (depth : Nat) (s : String) : line (depth + 1) s = line depth ("  " ++ s) := by
  apply String.toList_injective
  rw [toList_line, toList_line, String.toList_append, ← List.append_assoc, Nat.mul_succ,
    List.replicate_add]
  rfl

/-- A line is indented as deep as any depth before its own. -/
theorem exists_line_of_le {depth' : Nat} (h : depth ≤ depth') (s : String) :
    ∃ t, line depth' s = line depth t := by
  induction h generalizing s with
  | refl => exact ⟨s, rfl⟩
  | step _ ih =>
      rw [line_succ]
      exact ih _

/-! ## Names -/

/-- The names of kinds and of parts are made of letters. -/
def IsWord (s : String) : Prop :=
  s.toList ≠ [] ∧ ∀ c ∈ s.toList, CharClass.isLetter c = true

instance (s : String) : Decidable (IsWord s) :=
  have := List.decidableBAll (CharClass.isLetter · = true) s.toList
  inferInstanceAs (Decidable (_ ∧ _))

/-- A text that holds printable characters only. -/
def AllPrintable (s : String) : Prop := ∀ c ∈ s.toList, Printable.isPrintable c = true

instance (s : String) : Decidable (AllPrintable s) :=
  List.decidableBAll (Printable.isPrintable · = true) s.toList

theorem not_isLetter_colon : ¬ CharClass.isLetter ':' = true := by decide

/-- A name ends at its colon. -/
theorem IsWord.append_inj {name name' : String} (h : IsWord name) (h' : IsWord name')
    {s t : List Char} (heq : name.toList ++ ':' :: s = name'.toList ++ ':' :: t) :
    name = name' ∧ s = t := by
  have hcolon : ∀ s : List Char, ∀ c ∈ (':' :: s).head?, ¬ CharClass.isLetter c = true := by
    intro s c hc
    obtain rfl : ':' = c := by simpa using hc
    exact not_isLetter_colon
  obtain ⟨hname, hrest⟩ := append_inj_of_heads h.2 h'.2 (hcolon s) (hcolon t) heq
  exact ⟨String.toList_injective hname, (List.cons.inj hrest).2⟩

/-- A line that begins with a letter is not indented deeper. -/
theorem IsWord.line_ne (h : IsWord name) (rest t : String) :
    line depth (name ++ rest) ≠ line (depth + 1) t := by
  rw [line_succ]
  intro heq
  have hchars := congrArg String.toList (line_injective heq)
  obtain ⟨hne, hletters⟩ := h
  rw [String.toList_append, String.toList_append] at hchars
  generalize name.toList = letters at hchars hne hletters
  cases letters with
  | nil => exact hne rfl
  | cons c letters =>
      have hblank : c = ' ' := (List.cons.inj hchars).1
      have hletter := hletters c List.mem_cons_self
      rw [hblank] at hletter
      exact absurd hletter (by decide)

/-- The line of a text goes on behind the colon, and the line of a node does not. -/
theorem IsWord.text_line_ne {name name' shown : String} (h : IsWord name) (h' : IsWord name') :
    line depth (name ++ ": " ++ shown) ≠ line depth (name' ++ ":") := by
  intro heq
  have hchars := congrArg String.toList (line_injective heq)
  simp only [String.toList_append, List.append_assoc] at hchars
  obtain ⟨-, hshown⟩ := h.append_inj h' hchars
  cases hshown

/-! ## Parts -/

/-- The named parts of a node in their order: texts as they are shown, and nodes of a kind
with parts of their own. -/
inductive Parts
  | done
  | text (name shown : String) (more : Parts)
  | node (name kind : String) (inner more : Parts)

namespace Parts

/-- The lines of the parts of a node, whose names stand at a depth. -/
def lines : Nat → Parts → List String
  | _, done => []
  | depth, text name shown more => line depth (name ++ ": " ++ shown) :: more.lines depth
  | depth, node name kind inner more =>
      line depth (name ++ ":") :: line (depth + 1) kind ::
        (inner.lines (depth + 2) ++ more.lines depth)

/-- How many nodes stand inside one another below the node. -/
def height : Parts → Nat
  | done => 0
  | text _ _ more => more.height
  | node _ _ inner more => max (inner.height + 1) more.height

/-- All names and kinds are words, and all texts are printable. -/
def Legible : Parts → Prop
  | done => True
  | text name shown more => IsWord name ∧ AllPrintable shown ∧ more.Legible
  | node name kind inner more => IsWord name ∧ IsWord kind ∧ inner.Legible ∧ more.Legible

variable {parts parts' : Parts}

theorem exists_line_of_mem_lines (h : s ∈ parts.lines depth) : ∃ t, s = line depth t := by
  induction parts generalizing depth with
  | done => cases h
  | text name shown more ih =>
      rw [lines, List.mem_cons] at h
      rcases h with rfl | h
      · exact ⟨_, rfl⟩
      · exact ih h
  | node name kind inner more ihinner ihmore =>
      rw [lines, List.mem_cons, List.mem_cons, List.mem_append] at h
      rcases h with rfl | rfl | h | h
      · exact ⟨_, rfl⟩
      · exact ⟨_, line_succ depth kind⟩
      · obtain ⟨t, rfl⟩ := ihinner h
        exact exists_line_of_le (Nat.le_add_right depth 2) t
      · exact ihmore h

/-- The first line of parts shows a name, at the depth of the parts. -/
theorem Legible.head_lines (h : parts.Legible) (hs : s ∈ (parts.lines depth).head?) :
    ∀ t, s ≠ line (depth + 1) t := by
  intro t
  cases parts with
  | done => cases hs
  | text name shown more =>
      obtain rfl : line depth (name ++ ": " ++ shown) = s := by simpa [lines] using hs
      rw [String.append_assoc]
      exact h.1.line_ne _ t
  | node name kind inner more =>
      obtain rfl : line depth (name ++ ":") = s := by simpa [lines] using hs
      exact h.1.line_ne _ t

/-- Parts with the same lines are the same. -/
theorem Legible.eq_of_lines (h : parts.Legible) (h' : parts'.Legible)
    (heq : parts.lines depth = parts'.lines depth) : parts = parts' := by
  induction parts generalizing depth parts' with
  | done =>
      cases parts' with
      | done => rfl
      | text | node => cases heq
  | text name shown more ih =>
      cases parts' with
      | done => cases heq
      | text name' shown' more' =>
          obtain ⟨hline, hmore⟩ := List.cons.inj heq
          have hchars := congrArg String.toList (line_injective hline)
          simp only [String.toList_append, List.append_assoc] at hchars
          obtain ⟨rfl, hshown⟩ := h.1.append_inj h'.1 hchars
          obtain rfl : shown = shown' := String.toList_injective (List.cons.inj hshown).2
          rw [ih h.2.2 h'.2.2 hmore]
      | node name' kind' inner' more' =>
          exact absurd (List.cons.inj heq).1 (h.1.text_line_ne h'.1)
  | node name kind inner more ihinner ihmore =>
      cases parts' with
      | done => cases heq
      | text name' shown' more' =>
          exact absurd (List.cons.inj heq).1.symm (h'.1.text_line_ne h.1)
      | node name' kind' inner' more' =>
          obtain ⟨hname, hrest⟩ := List.cons.inj heq
          obtain ⟨hkind, hblocks⟩ := List.cons.inj hrest
          have hchars := congrArg String.toList (line_injective hname)
          simp only [String.toList_append] at hchars
          obtain ⟨rfl, -⟩ := h.1.append_inj h'.1 hchars
          obtain rfl := line_injective hkind
          -- The lines of the node go as far as the deeper indentation does.
          have hdeeper {inner : Parts} : ∀ s ∈ inner.lines (depth + 2),
              ∃ t, s = line (depth + 1) t := by
            intro s hs
            obtain ⟨t, rfl⟩ := exists_line_of_mem_lines hs
            exact exists_line_of_le (Nat.le_succ (depth + 1)) t
          obtain ⟨hinner, hmore⟩ := append_inj_of_heads hdeeper hdeeper
            (fun s hs => by simpa using h.2.2.2.head_lines hs)
            (fun s hs => by simpa using h'.2.2.2.head_lines hs) hblocks
          rw [ihinner h.2.2.1 h'.2.2.1 hinner, ihmore h.2.2.2 h'.2.2.2 hmore]

end Parts

/-! ## Whole outlines -/

theorem isPrintable_of_isLetter {c : Char} (h : CharClass.isLetter c = true) :
    Printable.isPrintable c = true := by
  simp only [CharClass.isLetter, CharClass.isUpper, CharClass.isLower, Bool.or_eq_true,
    Bool.and_eq_true, decide_eq_true_eq, Char.le_def, UInt32.le_iff_toNat_le] at h
  have hlow : 65 ≤ c.toNat ∧ c.toNat ≤ 122 := by
    rcases h with ⟨hlow, hhigh⟩ | ⟨hlow, hhigh⟩
    · exact ⟨hlow, Nat.le_trans hhigh (by decide)⟩
    · exact ⟨Nat.le_trans (by decide) hlow, hhigh⟩
  exact Printable.isPrintable_of_le (by omega) (by omega)

variable {parts parts' : Parts} {kind' : String}

theorem AllPrintable.append (hs : AllPrintable s) (ht : AllPrintable t) :
    AllPrintable (s ++ t) := by
  intro c hc
  rw [String.toList_append, List.mem_append] at hc
  exact hc.elim (hs c) (ht c)

theorem IsWord.allPrintable (h : IsWord s) : AllPrintable s :=
  fun c hc => isPrintable_of_isLetter (h.2 c hc)

theorem AllPrintable.line (h : AllPrintable s) (depth : Nat) : AllPrintable (line depth s) := by
  intro c hc
  rw [toList_line, List.mem_append] at hc
  rcases hc with hc | hc
  · rw [List.eq_of_mem_replicate hc]
    rfl
  · exact h c hc

theorem Parts.Legible.allPrintable (h : parts.Legible) :
    ∀ s ∈ parts.lines depth, AllPrintable s := by
  have hcolon : AllPrintable ":" ∧ AllPrintable ": " := by decide
  induction parts generalizing depth with
  | done => simp [lines]
  | text name shown more ih =>
      rw [lines, List.forall_mem_cons]
      exact ⟨((h.1.allPrintable.append hcolon.2).append h.2.1).line depth, ih h.2.2⟩
  | node name kind inner more ihinner ihmore =>
      rw [lines, List.forall_mem_cons, List.forall_mem_cons, List.forall_mem_append]
      exact ⟨(h.1.allPrintable.append hcolon.1).line depth, h.2.1.allPrintable.line (depth + 1),
        ihinner h.2.2.1, ihmore h.2.2.2⟩

/-- What is printed of a node of a kind. -/
def print (kind : String) (parts : Parts) : String :=
  String.join ((line 0 kind :: parts.lines 1).map (· ++ "\n"))

theorem toList_join_lines (lines : List String) :
    (String.join (lines.map (· ++ "\n"))).toList = lines.flatMap fun s => s.toList ++ ['\n'] := by
  rw [String.toList_join, List.flatMap_map]
  simp only [String.toList_append]
  rfl

/-- Lines without line feeds can be told apart when each is ended by one. -/
theorem eq_of_join_lines {lines lines' : List String} (h : ∀ s ∈ lines, '\n' ∉ s.toList)
    (h' : ∀ s ∈ lines', '\n' ∉ s.toList)
    (heq : lines.flatMap (fun s => s.toList ++ ['\n']) =
      lines'.flatMap fun s => s.toList ++ ['\n']) : lines = lines' := by
  have hfeed : ∀ rest : List Char, ∀ c ∈ ('\n' :: rest).head?, ¬ c ≠ '\n' := by simp
  have hclear : ∀ {s : String}, '\n' ∉ s.toList → ∀ c ∈ s.toList, c ≠ '\n' :=
    fun hs c hc hfeed => hs (hfeed ▸ hc)
  induction lines generalizing lines' with
  | nil =>
      cases lines' with
      | nil => rfl
      | cons s' lines' => simp at heq
  | cons s lines ih =>
      cases lines' with
      | nil => simp at heq
      | cons s' lines' =>
          rw [List.forall_mem_cons] at h h'
          simp only [List.flatMap_cons, List.append_assoc, List.singleton_append] at heq
          obtain ⟨hline, hrest⟩ := append_inj_of_heads (hclear h.1) (hclear h'.1) (hfeed _)
            (hfeed _) heq
          rw [String.toList_injective hline, ih h.2 h'.2 (List.cons.inj hrest).2]

/-- An outline shows one kind with one list of parts. -/
theorem print_injective (hkind : IsWord kind) (hkind' : IsWord kind') (h : parts.Legible)
    (h' : parts'.Legible) (heq : print kind parts = print kind' parts') :
    kind = kind' ∧ parts = parts' := by
  have hfeed : ∀ {kind : String} {parts : Parts}, IsWord kind → parts.Legible →
      ∀ s ∈ line 0 kind :: parts.lines 1, '\n' ∉ s.toList := by
    intro kind parts hkind hparts s hs hmem
    have hprintable : Printable.isPrintable '\n' = true :=
      List.forall_mem_cons.2 ⟨hkind.allPrintable.line 0, hparts.allPrintable⟩ s hs '\n' hmem
    exact absurd hprintable (by decide)
  have hchars := congrArg String.toList heq
  rw [print, print, toList_join_lines, toList_join_lines] at hchars
  have hlines := eq_of_join_lines (hfeed hkind h) (hfeed hkind' h') hchars
  obtain ⟨hline, hmore⟩ := List.cons.inj hlines
  exact ⟨line_injective hline, h.eq_of_lines h' hmore⟩

theorem isPrintable_of_mem_print (hkind : IsWord kind) (h : parts.Legible) {c : Char}
    (hc : c ∈ (print kind parts).toList) : Printable.isPrintable c = true ∨ c = '\n' := by
  rw [print, toList_join_lines, List.mem_flatMap] at hc
  obtain ⟨s, hs, hc⟩ := hc
  rw [List.mem_append, List.mem_singleton] at hc
  exact hc.imp_left
    (List.forall_mem_cons.2 ⟨hkind.allPrintable.line 0, h.allPrintable⟩ s hs c)

/-! ## Outlines within a limit -/

/-- The lines of a node of a kind, unless its nodes nest deeper than `limit`. -/
def linesWithin (limit depth : Nat) (kind : String) (parts : Parts) : Option (List String) :=
  if parts.height < limit then some (line depth kind :: parts.lines (depth + 1)) else none

variable {limit : Nat}

theorem linesWithin_ne_none :
    linesWithin limit depth kind parts ≠ none ↔ parts.height < limit := by
  simp [linesWithin]

theorem linesWithin_one (inner : Parts) :
    linesWithin (limit + 1) depth kind (.node name kind' inner .done) =
      (linesWithin limit (depth + 2) kind' inner).map fun lines =>
        line depth kind :: line (depth + 1) (name ++ ":") :: lines := by
  have hheight : (Parts.node name kind' inner .done).height < limit + 1 ↔ inner.height < limit := by
    simp [Parts.height]
  simp only [linesWithin, hheight]
  split
  · simp [Parts.lines]
  · rfl

theorem linesWithin_two {name' kind'' : String} (first second : Parts) :
    linesWithin (limit + 1) depth kind (.node name kind' first (.node name' kind'' second .done)) =
      (linesWithin limit (depth + 2) kind' first).bind fun lines =>
        (linesWithin limit (depth + 2) kind'' second).map fun lines' =>
          line depth kind :: line (depth + 1) (name ++ ":") ::
            (lines ++ line (depth + 1) (name' ++ ":") :: lines') := by
  have hheight : (Parts.node name kind' first (.node name' kind'' second .done)).height <
      limit + 1 ↔ first.height < limit ∧ second.height < limit := by
    simp only [Parts.height]
    omega
  simp only [linesWithin, hheight]
  by_cases hfirst : first.height < limit
  · by_cases hsecond : second.height < limit
    · simp [hfirst, hsecond, Parts.lines]
    · simp [hfirst, hsecond]
  · simp [hfirst]

end Outline

end ParserKit
