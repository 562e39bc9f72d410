import Mathlib
import ParserKit.Parser.Entry
import ParserKit.Proofs.Lines

/-!
# Guarded parsers

Three conditions can be read off a parser, part by part.  It consumes if every
success takes a character, it is guarded if a character is taken before any
rule is entered, and it is tame if it repeats only parsers that consume and
raises no fault of its own about repetition or nesting.  Rules are trusted to
consume, and nothing else is asked of them.

What the conditions promise of a run is where it stops and where it enters rules.
-/

namespace ParserKit

/-- A fault that is neither about a repetition nor about nesting. -/
def Fault.IsPlain (fault : Fault) : Prop :=
  fault ≠ .tooDeep ∧ ∀ place, fault ≠ .emptyRepetition place

namespace Parser

variable {R : Type → Type}

/-- Every success takes a character.  A repetition never succeeds without one,
since a round that takes none is a fault. -/
def Consumes : {α : Type} → Parser R α → Prop
  | _, item => True
  | _, accept _ => True
  | _, literal s => s ≠ ""
  | _, success _ => False
  | _, failure => True
  | _, raise _ => True
  | _, map p _ => p.Consumes
  | _, convert p _ => p.Consumes
  | _, bind p f => p.Consumes ∨ ∀ a, (f a).Consumes
  | _, sequence p q _ => p.Consumes ∨ q.Consumes
  | _, sequenceAll _ _ parts _ => ∃ i, (parts i).Consumes
  | _, orElse p q => p.Consumes ∧ q.Consumes
  | _, choice _ alternatives => ∀ i, (alternatives i).Consumes
  | _, oneOrMore _ => True
  | _, currentRow => False
  | _, currentCol => False
  | _, currentLocation => False
  | _, ref _ => True

/-- A character is taken before any rule is entered. -/
def Guarded : {α : Type} → Parser R α → Prop
  | _, map p _ => p.Guarded
  | _, convert p _ => p.Guarded
  | _, bind p f => p.Guarded ∧ (p.Consumes ∨ ∀ a, (f a).Guarded)
  | _, sequence p q _ => p.Guarded ∧ (p.Consumes ∨ q.Guarded)
  | _, sequenceAll _ _ parts _ => ∀ i, (parts i).Guarded ∨ ∃ j < i, (parts j).Consumes
  | _, orElse p q => p.Guarded ∧ q.Guarded
  | _, choice _ alternatives => ∀ i, (alternatives i).Guarded
  | _, oneOrMore p => p.Guarded
  | _, ref _ => False
  | _, _ => True

/-- What is repeated consumes, and the parser raises none but plain faults. -/
def Tame : {α : Type} → Parser R α → Prop
  | _, raise fault => fault.IsPlain
  | _, map p _ => p.Tame
  | _, convert p f => p.Tame ∧ ∀ a fault, f a = .error fault → fault.IsPlain
  | _, bind p f => p.Tame ∧ ∀ a, (f a).Tame
  | _, sequence p q _ => p.Tame ∧ q.Tame
  | _, sequenceAll _ _ parts _ => ∀ i, (parts i).Tame
  | _, orElse p q => p.Tame ∧ q.Tame
  | _, choice _ alternatives => ∀ i, (alternatives i).Tame
  | _, oneOrMore p => p.Consumes ∧ p.Tame
  | _, _ => True

/-- What is asked of a parser that stands for a rule. -/
structure WellFormed {α : Type} (p : Parser R α) : Prop where
  consumes : p.Consumes
  guarded : p.Guarded
  tame : p.Tame

end Parser

/-! ## Where a parser stops -/

namespace Cursor

variable {c d e : Cursor} {P Q : Prop}

theorem Passes.left_lt (h : c.Passes d) : d.left < c.left := by
  obtain ⟨ch, s, hread⟩ := h
  have hleft := hread.left_eq
  rw [List.length_cons] at hleft
  omega

theorem Passes.offset_lt (h : c.Passes d) : c.offset < d.offset := by
  obtain ⟨ch, s, hread⟩ := h
  have hoffset := hread.offset_eq
  rw [List.length_cons] at hoffset
  omega

theorem Reaches.passes_of_left_lt (h : c.Reaches d) (hlt : d.left < c.left) : c.Passes d := by
  obtain ⟨s, hread⟩ := h
  have hleft := hread.left_eq
  cases s with
  | nil =>
      rw [List.length_nil] at hleft
      omega
  | cons ch more => exact ⟨ch, more, hread⟩

/-- Some characters stand between the two cursors, and under `P` there is at
least one. -/
def Ahead (P : Prop) (c d : Cursor) : Prop := c.Reaches d ∧ (P → c.Passes d)

theorem Ahead.refl (c : Cursor) : Ahead False c c := ⟨.refl c, False.elim⟩

theorem Passes.ahead (h : c.Passes d) : Ahead P c d := ⟨h.reaches, fun _ => h⟩

theorem Ahead.imp (h : Ahead P c d) (hQP : Q → P) : Ahead Q c d := ⟨h.1, h.2 ∘ hQP⟩

theorem Ahead.trans (h : Ahead P c d) (h' : Ahead Q d e) : Ahead (P ∨ Q) c e := by
  refine ⟨h.1.trans h'.1, ?_⟩
  rintro (hP | hQ)
  · exact (h.2 hP).trans_reaches h'.1
  · exact h.1.trans_passes (h'.2 hQ)

end Cursor

open Cursor (Ahead)

variable {α β γ : Type} {P Q : Prop}

/-- Wherever the step succeeds it has read its way on, and under `P` it has taken
a character. -/
def Proceeds (P : Prop) (step : Cursor → Outcome α) : Prop :=
  ∀ c, (step c).Meets (fun _ => True) True fun _ d => Ahead P c d

theorem Proceeds.imp {step : Cursor → Outcome α} (h : Proceeds P step) (hQP : Q → P) :
    Proceeds Q step :=
  fun c => (h c).imp fun _ _ hd => hd.imp hQP

theorem Proceeds.moves {step : Cursor → Outcome α} (h : Proceeds P step) : Moves step :=
  fun c => (h c).imp fun _ _ hd => hd.1

theorem Proceeds.ahead {step : Cursor → Outcome α} (h : Proceeds P step) {c d : Cursor} {a : α}
    (hrun : step c = .ok (some (a, d))) : Ahead P c d := by
  have hc := h c
  rwa [hrun] at hc

/-- Where a second step starts from what a first one has left behind. -/
theorem Proceeds.after {step : Cursor → Outcome α} (h : Proceeds Q step) {c d : Cursor}
    (hd : Ahead P c d) :
    (step d).Meets (fun _ => True) True fun _ e => Ahead (P ∨ Q) c e :=
  (h d).imp fun _ _ he => hd.trans he

theorem proceeds_collect (n : Nat) (τ : Fin n → Type) {P : Fin n → Prop}
    {steps : (i : Fin n) → Cursor → Outcome (τ i)} (h : ∀ i, Proceeds (P i) (steps i)) :
    Proceeds (∃ i, P i) (collect n τ steps) := by
  induction n with
  | zero => exact fun c => (Ahead.refl c).imp fun ⟨i, _⟩ => i.elim0
  | succ n ih =>
      have hmore := ih (fun i => τ i.succ) fun i => h i.succ
      intro c
      rw [collect_succ, Outcome.meets_andThen]
      apply (h 0 c).imp
      intro a d hd
      rw [Outcome.meets_andThen]
      apply (hmore.after hd).imp
      exact fun tokens e he => he.imp Fin.exists_fin_succ.1

theorem proceeds_firstMatch (n : Nat) {P : Fin n → Prop} {steps : Fin n → Cursor → Outcome α}
    (h : ∀ i, Proceeds (P i) (steps i)) : Proceeds (∀ i, P i) (firstMatch n steps) := by
  induction n with
  | zero => exact fun c => trivial
  | succ n ih =>
      have hmore := ih fun i => h i.succ
      intro c
      rw [firstMatch_succ, Outcome.meets_otherwise]
      refine (h 0 c).mono (fun _ hF => hF) (fun _ => ?_) fun a d hd => ?_
      · exact (hmore c).imp fun a d hd => hd.imp fun hP i => hP i.succ
      · exact hd.imp fun hP => hP 0

namespace Parser

variable {R : Type → Type} {rules : Rules R}

theorem proceeds_oneOrMore {p : Parser R α} (h : Moves (p.runWith rules)) :
    Proceeds True ((oneOrMore p).runWith rules) := by
  intro c
  apply meets_oneOrMore_of_rounds p (fun tokens d => Ahead (tokens ≠ []) c d)
    ((Ahead.refl c).imp fun hne => hne rfl)
  intro tokens d hd
  refine (h d).mono (fun _ hF => hF) (fun _ => ?_) fun a e he => ?_
  · split
    · trivial
    · rename_i hne
      exact hd.imp fun _ => hne
  · split
    · rename_i hlt
      exact (hd.1.trans_passes (he.passes_of_left_lt hlt)).ahead
    · trivial

/-- A parser that consumes takes a character, if the rules do. -/
theorem proceeds_runWith (hrules : ∀ {β : Type} (r : R β), Proceeds True (rules r))
    (p : Parser R α) : Proceeds p.Consumes (p.runWith rules) := by
  induction p with
  | item =>
      intro c
      rw [runWith]
      rcases hstep : c.advance with _ | ⟨ch, d⟩
      · trivial
      · exact Cursor.Passes.ahead ⟨ch, [], Cursor.reads_of_advance hstep⟩
  | accept tokenOf =>
      intro c
      rw [runWith_accept, Outcome.meets_andThen]
      rcases hstep : c.advance with _ | ⟨ch, d⟩
      · trivial
      · rw [Outcome.Meets]
        cases tokenOf ch with
        | none => trivial
        | some a => exact Cursor.Passes.ahead ⟨ch, [], Cursor.reads_of_advance hstep⟩
  | literal s =>
      intro c
      apply meets_literal s fun _ => trivial
      intro d hread
      refine ⟨⟨_, hread⟩, fun hne => ?_⟩
      obtain ⟨ch, more, hs⟩ := List.exists_cons_of_ne_nil (String.toList_eq_nil_iff.not.2 hne)
      exact ⟨ch, more, hs ▸ hread⟩
  | success a => exact fun c => (meets_success a).2 (.refl c)
  | failure | raise fault => exact fun c => trivial
  | map p f ih => exact fun c => (meets_map p f).2 (ih c)
  | convert p f ih =>
      intro c
      rw [meets_convert]
      apply (ih c).imp
      intro a d hd
      cases f a with
      | error fault => trivial
      | ok b => exact hd
  | bind p f ihp ihf =>
      intro c
      rw [meets_bind]
      apply (ihp c).imp
      intro a d hd
      apply ((ihf a).after hd).imp
      exact fun b e he => he.imp (Or.imp_right fun hf => hf a)
  | sequence p q combine ihp ihq =>
      intro c
      rw [meets_sequence]
      exact (ihp c).imp fun a d hd => ihq.after hd
  | sequenceAll n τ parts combine ih =>
      intro c
      rw [meets_sequenceAll]
      exact proceeds_collect n τ ih c
  | orElse p q ihp ihq =>
      intro c
      rw [meets_orElse]
      refine (ihp c).mono (fun _ hF => hF) (fun _ => ?_) fun a d hd => hd.imp And.left
      exact (ihq c).imp fun a d hd => hd.imp And.right
  | choice n alternatives ih =>
      intro c
      rw [runWith]
      exact proceeds_firstMatch n ih c
  | oneOrMore p ih => exact proceeds_oneOrMore ih.moves
  | currentRow | currentCol | currentLocation => exact fun c => .refl c
  | ref rule =>
      intro c
      rw [runWith]
      exact hrules rule c

end Parser

/-! ## Where a parser enters rules -/

section Members

variable {E : Type 1} {entry : E} {c : Cursor}

theorem mem_behind {o : Outcome α} {next : α → Cursor → List E} :
    (entry ∈ match o with
      | .ok (some (a, d)) => next a d
      | _ => []) ↔ ∃ a d, o = .ok (some (a, d)) ∧ entry ∈ next a d := by
  rcases o with fault | (_ | ⟨a, d⟩) <;> simp

theorem mem_instead {o : Outcome α} {other : List E} :
    (entry ∈ match o with
      | .ok none => other
      | _ => []) ↔ o = .ok none ∧ entry ∈ other := by
  rcases o with fault | (_ | ⟨a, d⟩) <;> simp

theorem mem_collectEntries_succ {n : Nat} {τ : Fin (n + 1) → Type}
    {steps : (i : Fin (n + 1)) → Cursor → Outcome (τ i)}
    {entries : Fin (n + 1) → Cursor → List E} :
    entry ∈ collectEntries (n + 1) τ steps entries c ↔
      entry ∈ entries 0 c ∨ ∃ a d, steps 0 c = .ok (some (a, d)) ∧
        entry ∈ collectEntries n (fun i => τ i.succ) (fun i => steps i.succ)
          (fun i => entries i.succ) d := by
  refine List.mem_append.trans (or_congr_right ?_)
  rcases steps 0 c with fault | (_ | ⟨a, d⟩) <;> simp

theorem mem_firstMatchEntries_succ {n : Nat} {steps : Fin (n + 1) → Cursor → Outcome α}
    {entries : Fin (n + 1) → Cursor → List E} :
    entry ∈ firstMatchEntries (n + 1) steps entries c ↔
      entry ∈ entries 0 c ∨ steps 0 c = .ok none ∧
        entry ∈ firstMatchEntries n (fun i => steps i.succ) (fun i => entries i.succ) c :=
  List.mem_append.trans (or_congr_right mem_instead)

end Members

section Entries

variable {R : Type → Type} {rules : Rules R} {c : Cursor} {entry : Entry R}

namespace Parser

theorem mem_entriesWith_bind {p : Parser R α} {f : α → Parser R β} :
    entry ∈ (bind p f).entriesWith rules c ↔
      entry ∈ p.entriesWith rules c ∨ ∃ a d, p.runWith rules c = .ok (some (a, d)) ∧
        entry ∈ (f a).entriesWith rules d := by
  rw [entriesWith, List.mem_append]
  exact or_congr_right mem_behind

theorem mem_entriesWith_sequence {p : Parser R α} {q : Parser R β} {f : α → β → γ} :
    entry ∈ (sequence p q f).entriesWith rules c ↔
      entry ∈ p.entriesWith rules c ∨ ∃ a d, p.runWith rules c = .ok (some (a, d)) ∧
        entry ∈ q.entriesWith rules d := by
  rw [entriesWith, List.mem_append]
  exact or_congr_right mem_behind

theorem mem_entriesWith_orElse {p q : Parser R α} :
    entry ∈ (orElse p q).entriesWith rules c ↔
      entry ∈ p.entriesWith rules c ∨
        p.runWith rules c = .ok none ∧ entry ∈ q.entriesWith rules c := by
  rw [entriesWith, List.mem_append]
  exact or_congr_right mem_instead

end Parser

/-- Either the first part takes a character and so stands before all entries of
the others, or the others have to see to it. -/
theorem ahead_collectEntries (n : Nat) (τ : Fin n → Type) {P Q : Fin n → Prop}
    {steps : (i : Fin n) → Cursor → Outcome (τ i)} {entries : Fin n → Cursor → List (Entry R)}
    (hsteps : ∀ i, Proceeds (P i) (steps i))
    (hentries : ∀ i c, ∀ entry ∈ entries i c, Ahead (Q i) c entry.cursor)
    (hentry : entry ∈ collectEntries n τ steps entries c) :
    Ahead (∀ i, Q i ∨ ∃ j < i, P j) c entry.cursor := by
  induction n generalizing c with
  | zero => exact absurd hentry List.not_mem_nil
  | succ n ih =>
      rcases mem_collectEntries_succ.1 hentry with hentry | ⟨a, d, hrun, hentry⟩
      · exact (hentries 0 c entry hentry).imp fun hQ => (hQ 0).resolve_right (by simp)
      · have hmore := ih (fun i => τ i.succ) (fun i => hsteps i.succ)
          (fun i => hentries i.succ) hentry
        apply (((hsteps 0).ahead hrun).trans hmore).imp
        intro hQ
        by_cases hfirst : P 0
        · exact .inl hfirst
        · refine .inr fun i => (hQ i.succ).imp_right ?_
          rintro ⟨j, hj, hPj⟩
          cases j using Fin.cases with
          | zero => exact absurd hPj hfirst
          | succ j => exact ⟨j, Fin.succ_lt_succ_iff.1 hj, hPj⟩

theorem ahead_firstMatchEntries (n : Nat) {Q : Fin n → Prop}
    {steps : Fin n → Cursor → Outcome α} {entries : Fin n → Cursor → List (Entry R)}
    (hentries : ∀ i c, ∀ entry ∈ entries i c, Ahead (Q i) c entry.cursor)
    (hentry : entry ∈ firstMatchEntries n steps entries c) :
    Ahead (∀ i, Q i) c entry.cursor := by
  induction n with
  | zero => exact absurd hentry List.not_mem_nil
  | succ n ih =>
      rcases mem_firstMatchEntries_succ.1 hentry with hentry | ⟨_, hentry⟩
      · exact (hentries 0 c entry hentry).imp fun hQ => hQ 0
      · exact (ih (fun i => hentries i.succ) hentry).imp fun hQ i => hQ i.succ

/-- All rounds but the first start behind a character. -/
theorem ahead_repeatEntries {step : Cursor → Outcome α} {entries : Cursor → List (Entry R)}
    (hstep : Moves step) (hentries : ∀ c, ∀ entry ∈ entries c, Ahead Q c entry.cursor)
    (hentry : entry ∈ repeatEntries step entries c) : Ahead Q c entry.cursor := by
  fun_induction repeatEntries step entries c with
  | case1 c a d hrun hlt ih =>
      rcases List.mem_append.1 hentry with hentry | hentry
      · exact hentries c entry hentry
      · have hpasses := (hstep.reaches hrun).passes_of_left_lt hlt
        exact (hpasses.trans_reaches (ih hentry).1).ahead
  | case2 c => exact hentries c entry hentry
  | case3 c => exact hentries c entry hentry

/-- A parser enters rules at places that it reaches, and a guarded one behind a
character. -/
theorem Parser.ahead_entriesWith (hrules : ∀ {β : Type} (r : R β), Proceeds True (rules r))
    (p : Parser R α) (hentry : entry ∈ p.entriesWith rules c) :
    Ahead p.Guarded c entry.cursor := by
  induction p generalizing c entry with
  | item | accept | literal | success | failure | raise | currentRow | currentCol
  | currentLocation => exact absurd hentry List.not_mem_nil
  | map p f ih => exact ih hentry
  | convert p f ih => exact ih hentry
  | bind p f ihp ihf =>
      rcases mem_entriesWith_bind.1 hentry with hentry | ⟨a, d, hrun, hentry⟩
      · exact (ihp hentry).imp And.left
      · have hd := (proceeds_runWith hrules p).ahead hrun
        apply (hd.trans (ihf a hentry)).imp
        exact fun hguarded => hguarded.2.imp_right fun hf => hf a
  | sequence p q combine ihp ihq =>
      rcases mem_entriesWith_sequence.1 hentry with hentry | ⟨a, d, hrun, hentry⟩
      · exact (ihp hentry).imp And.left
      · have hd := (proceeds_runWith hrules p).ahead hrun
        exact (hd.trans (ihq hentry)).imp And.right
  | sequenceAll n τ parts combine ih =>
      exact ahead_collectEntries n τ (fun i => proceeds_runWith hrules (parts i))
        (fun i _ _ => ih i) hentry
  | orElse p q ihp ihq =>
      rcases mem_entriesWith_orElse.1 hentry with hentry | ⟨_, hentry⟩
      · exact (ihp hentry).imp And.left
      · exact (ihq hentry).imp And.right
  | choice n alternatives ih =>
      exact ahead_firstMatchEntries n (fun i _ _ => ih i) hentry
  | oneOrMore p ih =>
      rw [entriesWith] at hentry
      exact ahead_repeatEntries (proceeds_runWith hrules p).moves (fun _ _ => ih) hentry
  | ref rule =>
      obtain rfl : entry = ⟨rule, c⟩ := by simpa [entriesWith] using hentry
      exact (Ahead.refl c).imp id

end Entries

end ParserKit
