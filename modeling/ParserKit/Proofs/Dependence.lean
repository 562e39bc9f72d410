import ParserKit.Proofs.Guarded

/-!
# What a run depends on

A run depends on the rules only at the places where it enters them, and its
faults are those of the rules there or its own.  So two families of rules that
agree at the entries of a parser give one outcome, whatever they do elsewhere.
-/

namespace ParserKit

variable {α β : Type}

/-- The second outcome is the first one, and a fault is one of `F`. -/
def Outcome.SameWithin (F : Fault → Prop) (o o' : Outcome α) : Prop :=
  o' = o ∧ ∀ fault, o = .error fault → F fault

namespace Outcome

variable {F : Fault → Prop} {o o' : Outcome α}

theorem sameWithin_ok (found : Option (α × Cursor)) : SameWithin F (.ok found) (.ok found) :=
  ⟨rfl, nofun⟩

theorem sameWithin_error {fault : Fault} (h : F fault) :
    SameWithin F (.error fault : Outcome α) (.error fault) := by
  refine ⟨rfl, fun _ heq => ?_⟩
  cases heq
  exact h

theorem SameWithin.andThen {next next' : α → Cursor → Outcome β} (h : SameWithin F o o')
    (hnext : ∀ a d, o = .ok (some (a, d)) → SameWithin F (next a d) (next' a d)) :
    SameWithin F (o.andThen next) (o'.andThen next') := by
  obtain ⟨rfl, hF⟩ := h
  rcases o' with fault | (_ | ⟨a, d⟩)
  · exact sameWithin_error (hF fault rfl)
  · exact sameWithin_ok none
  · exact hnext a d rfl

theorem SameWithin.otherwise {other other' : Outcome α} (h : SameWithin F o o')
    (hother : o = .ok none → SameWithin F other other') :
    SameWithin F (o.otherwise other) (o'.otherwise other') := by
  obtain ⟨rfl, hF⟩ := h
  rcases o' with fault | (_ | ⟨a, d⟩)
  · exact sameWithin_error (hF fault rfl)
  · exact hother rfl
  · exact sameWithin_ok _

end Outcome

open Outcome (SameWithin sameWithin_ok sameWithin_error)

section Runs

variable {F : Fault → Prop} {E : Type 1} {P : E → Prop} {c : Cursor}

theorem sameWithin_collect (n : Nat) (τ : Fin n → Type)
    {steps steps' : (i : Fin n) → Cursor → Outcome (τ i)} {entries : Fin n → Cursor → List E}
    (hsteps : ∀ i c, (∀ entry ∈ entries i c, P entry) →
      SameWithin F (steps i c) (steps' i c))
    (hentries : ∀ entry ∈ collectEntries n τ steps entries c, P entry) :
    SameWithin F (collect n τ steps c) (collect n τ steps' c) := by
  induction n generalizing c with
  | zero => exact sameWithin_ok _
  | succ n ih =>
      rw [collect_succ, collect_succ]
      apply (hsteps 0 c fun entry h => hentries entry (mem_collectEntries_succ.2 (.inl h))).andThen
      intro a d hrun
      have hmore := ih (fun i => τ i.succ) (fun i => hsteps i.succ) fun entry h =>
        hentries entry (mem_collectEntries_succ.2 (.inr ⟨a, d, hrun, h⟩))
      exact hmore.andThen fun tokens e _ => sameWithin_ok _

theorem sameWithin_firstMatch (n : Nat) {steps steps' : Fin n → Cursor → Outcome α}
    {entries : Fin n → Cursor → List E}
    (hsteps : ∀ i c, (∀ entry ∈ entries i c, P entry) →
      SameWithin F (steps i c) (steps' i c))
    (hentries : ∀ entry ∈ firstMatchEntries n steps entries c, P entry) :
    SameWithin F (firstMatch n steps c) (firstMatch n steps' c) := by
  induction n with
  | zero => exact sameWithin_ok _
  | succ n ih =>
      rw [firstMatch_succ, firstMatch_succ]
      apply (hsteps 0 c fun entry h =>
        hentries entry (mem_firstMatchEntries_succ.2 (.inl h))).otherwise
      intro hrun
      exact ih (fun i => hsteps i.succ) fun entry h =>
        hentries entry (mem_firstMatchEntries_succ.2 (.inr ⟨hrun, h⟩))

/-- Where every round moves on, the loop adds no fault to those of the rounds. -/
theorem sameWithin_repeatFrom {step step' : Cursor → Outcome α} {entries : Cursor → List E}
    (hstep : ∀ c, (∀ entry ∈ entries c, P entry) → SameWithin F (step c) (step' c))
    (hproceeds : Proceeds True step) (tokens : List α)
    (hentries : ∀ entry ∈ repeatEntries step entries c, P entry) :
    repeatFrom step' tokens c = repeatFrom step tokens c ∧
      ∀ fault, repeatFrom step tokens c = .error fault → F fault := by
  fun_induction repeatFrom step tokens c with
  | case1 tokens c fault hrun =>
      rw [repeatEntries, hrun] at hentries
      obtain ⟨hsame, hF⟩ := hstep c hentries
      rw [repeatFrom, hsame, hrun]
      refine ⟨rfl, fun _ heq => ?_⟩
      cases heq
      exact hF fault hrun
  | case2 tokens c hrun =>
      rw [repeatEntries, hrun] at hentries
      rw [repeatFrom, (hstep c hentries).1, hrun]
      refine ⟨rfl, fun _ heq => ?_⟩
      cases heq
  | case3 tokens c a d hrun hlt ih =>
      rw [repeatEntries, hrun] at hentries
      simp only [hlt, if_true, List.forall_mem_append] at hentries
      rw [repeatFrom, (hstep c hentries.1).1, hrun]
      simp only [hlt, if_true]
      exact ih hentries.2
  | case4 tokens c a d hrun hlt =>
      exact absurd (((hproceeds.ahead hrun).2 trivial).left_lt) hlt

theorem sameWithin_repeatOutcome {step step' : Cursor → Outcome α} {entries : Cursor → List E}
    (hstep : ∀ c, (∀ entry ∈ entries c, P entry) → SameWithin F (step c) (step' c))
    (hproceeds : Proceeds True step)
    (hentries : ∀ entry ∈ repeatEntries step entries c, P entry) :
    SameWithin F (repeatOutcome step c) (repeatOutcome step' c) := by
  obtain ⟨hsame, hF⟩ := sameWithin_repeatFrom hstep hproceeds [] hentries
  rw [repeatOutcome, repeatOutcome, hsame]
  rcases hrun : repeatFrom step [] c with fault | ⟨_ | ⟨a, more⟩, d⟩
  · exact sameWithin_error (hF fault hrun)
  · exact sameWithin_ok none
  · exact sameWithin_ok _

end Runs

/-- What the rules do elsewhere than at the entries of a tame parser has no say in
its outcome, and besides plain faults it ends in none but theirs. -/
theorem Parser.sameWithin_runWith {R : Type → Type} {rules rules' : Rules R}
    {F : Fault → Prop} (hF : ∀ fault, fault.IsPlain → F fault)
    (hrules : ∀ {β : Type} (r : R β), Proceeds True (rules r)) (p : Parser R α) (hp : p.Tame)
    {c : Cursor} (hentries : ∀ entry ∈ p.entriesWith rules c,
      SameWithin F (rules entry.rule entry.cursor) (rules' entry.rule entry.cursor)) :
    SameWithin F (p.runWith rules c) (p.runWith rules' c) := by
  induction p generalizing c with
  | item | literal | success | failure | currentRow | currentCol | currentLocation =>
      rw [runWith, runWith]
      exact sameWithin_ok _
  | accept tokenOf =>
      rw [runWith_accept, runWith_accept]
      exact (sameWithin_ok c.advance).andThen fun ch d _ => sameWithin_ok _
  | raise fault => exact sameWithin_error (hF fault hp)
  | map p f ih =>
      rw [runWith_map, runWith_map]
      exact (ih hp hentries).andThen fun a d _ => sameWithin_ok _
  | convert p f ih =>
      rw [runWith_convert, runWith_convert]
      apply (ih hp.1 hentries).andThen
      intro a d _
      cases hf : f a with
      | error fault => exact sameWithin_error (hF fault (hp.2 a fault hf))
      | ok b => exact sameWithin_ok _
  | bind p f ihp ihf =>
      rw [runWith_bind, runWith_bind]
      apply (ihp hp.1 fun entry h => hentries entry (mem_entriesWith_bind.2 (.inl h))).andThen
      intro a d hrun
      exact ihf a (hp.2 a) fun entry h =>
        hentries entry (mem_entriesWith_bind.2 (.inr ⟨a, d, hrun, h⟩))
  | sequence p q combine ihp ihq =>
      rw [runWith_sequence, runWith_sequence]
      apply (ihp hp.1 fun entry h => hentries entry (mem_entriesWith_sequence.2 (.inl h))).andThen
      intro a d hrun
      have hq := ihq hp.2 fun entry h =>
        hentries entry (mem_entriesWith_sequence.2 (.inr ⟨a, d, hrun, h⟩))
      exact hq.andThen fun b e _ => sameWithin_ok _
  | sequenceAll n τ parts combine ih =>
      rw [runWith_sequenceAll, runWith_sequenceAll]
      have hparts := sameWithin_collect n τ (fun i c => ih i (hp i)) hentries
      exact hparts.andThen fun tokens d _ => sameWithin_ok _
  | orElse p q ihp ihq =>
      rw [runWith_orElse, runWith_orElse]
      apply (ihp hp.1 fun entry h => hentries entry (mem_entriesWith_orElse.2 (.inl h))).otherwise
      intro hrun
      exact ihq hp.2 fun entry h => hentries entry (mem_entriesWith_orElse.2 (.inr ⟨hrun, h⟩))
  | choice n alternatives ih =>
      rw [runWith, runWith]
      exact sameWithin_firstMatch n (fun i c => ih i (hp i)) hentries
  | oneOrMore p ih =>
      rw [entriesWith] at hentries
      rw [runWith, runWith]
      have hproceeds : Proceeds True (p.runWith rules) :=
        (proceeds_runWith hrules p).imp fun _ => hp.1
      exact sameWithin_repeatOutcome (fun c => ih hp.2) hproceeds hentries
  | ref rule => exact hentries ⟨rule, c⟩ List.mem_cons_self

/-- Where the rules that are entered end in faults of `F` only, so does the run. -/
theorem Parser.fault_of_runWith {R : Type → Type} {rules : Rules R} {F : Fault → Prop}
    (hF : ∀ fault, fault.IsPlain → F fault)
    (hrules : ∀ {β : Type} (r : R β), Proceeds True (rules r)) (p : Parser R α) (hp : p.Tame)
    {c : Cursor} (hentries : ∀ entry ∈ p.entriesWith rules c,
      ∀ fault, rules entry.rule entry.cursor = .error fault → F fault) {fault : Fault}
    (hrun : p.runWith rules c = .error fault) : F fault :=
  (p.sameWithin_runWith hF hrules hp fun entry h => ⟨rfl, hentries entry h⟩).2 fault hrun

end ParserKit
