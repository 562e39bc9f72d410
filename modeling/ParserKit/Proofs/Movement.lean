import ParserKit.Proofs.Lexemes

/-!
# Where a parser goes

A parser that succeeds has read its way from the cursor that it was given to
the cursor that it answers, character by character.  This holds of every
combinator, of the rules of a grammar at every depth, and so of every parser.
-/

namespace ParserKit

/-- Some characters stand between the two cursors. -/
def Cursor.Reaches (c d : Cursor) : Prop := ∃ s, c.Reads s d

theorem Cursor.Reaches.refl (c : Cursor) : c.Reaches c := ⟨[], .nil c⟩

theorem Cursor.Reaches.trans {c d e : Cursor} (h : c.Reaches d) (h' : d.Reaches e) :
    c.Reaches e := by
  obtain ⟨s, hs⟩ := h
  obtain ⟨t, ht⟩ := h'
  exact ⟨s ++ t, hs.append ht⟩

/-- Wherever the step succeeds, it has read its way from the cursor it was given. -/
def Moves {α : Type} (step : Cursor → Outcome α) : Prop :=
  ∀ c, (step c).Meets (fun _ => True) True fun _ d => c.Reaches d

variable {α β γ : Type}

/-- Where a second step starts from what a first one has reached. -/
theorem Moves.after {step : Cursor → Outcome α} (h : Moves step) {c d : Cursor}
    (hd : c.Reaches d) : (step d).Meets (fun _ => True) True fun _ e => c.Reaches e :=
  (h d).imp fun _ _ he => hd.trans he

theorem Moves.reaches {step : Cursor → Outcome α} (h : Moves step) {c d : Cursor} {a : α}
    (hrun : step c = .ok (some (a, d))) : c.Reaches d := by
  have hc := h c
  rwa [hrun] at hc

theorem moves_advance : Moves fun c => .ok c.advance := by
  intro c
  dsimp only
  rcases hstep : c.advance with _ | ⟨ch, d⟩
  · trivial
  · exact ⟨[ch], Cursor.reads_of_advance hstep⟩

theorem moves_collect (n : Nat) (τ : Fin n → Type)
    {steps : (i : Fin n) → Cursor → Outcome (τ i)} (h : ∀ i, Moves (steps i)) :
    Moves (collect n τ steps) := by
  induction n with
  | zero => exact fun c => .refl c
  | succ n ih =>
      have hmore := ih (fun i => τ i.succ) fun i => h i.succ
      intro c
      rw [collect_succ, Outcome.meets_andThen]
      apply (h 0 c).imp
      intro a d hd
      rw [Outcome.meets_andThen]
      exact Moves.after hmore hd

theorem moves_firstMatch (n : Nat) {steps : Fin n → Cursor → Outcome α}
    (h : ∀ i, Moves (steps i)) : Moves (firstMatch n steps) := by
  induction n with
  | zero => exact fun c => trivial
  | succ n ih =>
      have hmore := ih fun i => h i.succ
      intro c
      rw [firstMatch_succ, Outcome.meets_otherwise]
      exact (h 0 c).mono (fun _ hF => hF) (fun _ => hmore c) fun _ _ hd => hd

namespace Parser

variable {R : Type → Type} {rules : Rules R}

theorem moves_oneOrMore {p : Parser R α} (h : Moves (p.runWith rules)) :
    Moves ((oneOrMore p).runWith rules) := by
  intro c
  apply meets_oneOrMore_of_rounds p (fun _ d => c.Reaches d) (.refl c)
  intro tokens d hd
  refine (h.after hd).mono (fun _ hF => hF) (fun _ => ?_) fun a e he => ?_
  · split
    · trivial
    · exact hd
  · split
    · exact he
    · trivial

/-- One combinator after the other keeps to what its parts reach. -/
theorem moves_runWith (hrules : ∀ {β : Type} (r : R β), Moves (rules r)) (p : Parser R α) :
    Moves (p.runWith rules) := by
  induction p with
  | item =>
      intro c
      rw [runWith]
      exact moves_advance c
  | accept tokenOf =>
      intro c
      rw [runWith_accept, Outcome.meets_andThen]
      apply (moves_advance c).imp
      intro ch d hd
      cases tokenOf ch with
      | none => trivial
      | some a => exact hd
  | literal s =>
      intro c
      exact meets_literal s (fun _ => trivial) fun d hread => ⟨_, hread⟩
  | success a =>
      intro c
      exact (meets_success a).2 (.refl c)
  | failure | raise fault => exact fun c => trivial
  | map p f ih =>
      intro c
      exact (meets_map p f).2 (ih c)
  | convert p f ih =>
      intro c
      rw [meets_convert]
      apply (ih c).imp
      intro a d hd
      cases f a with
      | error fault => trivial
      | ok b => exact hd
  | bind p f ihp ihf =>
      intro c
      rw [meets_bind]
      exact (ihp c).imp fun a d hd => (ihf a).after hd
  | sequence p q combine ihp ihq =>
      intro c
      rw [meets_sequence]
      exact (ihp c).imp fun a d hd => ihq.after hd
  | sequenceAll n τ parts combine ih =>
      intro c
      rw [meets_sequenceAll]
      exact moves_collect n τ ih c
  | orElse p q ihp ihq =>
      intro c
      rw [meets_orElse]
      exact (ihp c).mono (fun _ hF => hF) (fun _ => ihq c) fun _ _ hd => hd
  | choice n alternatives ih =>
      intro c
      rw [runWith]
      exact moves_firstMatch n ih c
  | oneOrMore p ih => exact moves_oneOrMore ih
  | currentRow | currentCol | currentLocation => exact fun c => .refl c
  | ref rule =>
      intro c
      rw [runWith]
      exact hrules rule c

end Parser

/-- A rule reads its way forward, however many references may still be opened. -/
theorem moves_rule {R : Type → Type} (grammar : Grammar R) (depth : Nat) (r : R α) :
    Moves (Grammar.rule grammar depth r) := by
  induction depth generalizing α with
  | zero => exact fun c => trivial
  | succ depth ih => exact Parser.moves_runWith ih (grammar r)

end ParserKit
