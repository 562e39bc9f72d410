import Mathlib
import ParserKit.Parser.Entry
import ParserKit.Parser.Token
import ParserKit.Proofs.Nary
import ParserKit.Proofs.Sequencing

/-!
# Folds of the binary combinators

A choice between several parsers is the binary choice folded over them, and a sequence of several
parsers is a chain of binds with one success at its end.  Both sides stop at the same parser: as
soon as the first few have decided how the run ends, what stands behind them is not run, whatever
it is.  A run is compared by its outcome and by the rules that it enters on its way, each with the
cursor at which it is entered.
-/

namespace ParserKit.Parser

variable {R : Type → Type} {rules : Rules R} {c : Cursor} {α β : Type}

/-- The parsers end alike, and on their way they enter the same rules at the same cursors. -/
def RunAlike (rules : Rules R) (p q : Parser R α) (c : Cursor) : Prop :=
  p.runWith rules c = q.runWith rules c ∧ p.entriesWith rules c = q.entriesWith rules c

theorem RunAlike.trans {p q r : Parser R α} (h : RunAlike rules p q c)
    (h' : RunAlike rules q r c) : RunAlike rules p r c :=
  ⟨h.1.trans h'.1, h.2.trans h'.2⟩

/-- The second parser counts only where the first one fails to match. -/
theorem RunAlike.orElse {p q q' : Parser R α}
    (h : p.runWith rules c = .ok none → RunAlike rules q q' c) :
    RunAlike rules (orElse p q) (orElse p q') c := by
  simp only [RunAlike, runWith, entriesWith]
  rcases hrun : p.runWith rules c with fault | (_ | found)
  · exact ⟨rfl, rfl⟩
  · exact ⟨(h hrun).1, congrArg _ (h hrun).2⟩
  · exact ⟨rfl, rfl⟩

/-- The second parser counts only where the first one has matched. -/
theorem RunAlike.bind {p : Parser R α} {f g : α → Parser R β}
    (h : ∀ a d, p.runWith rules c = .ok (some (a, d)) → RunAlike rules (f a) (g a) d) :
    RunAlike rules (bind p f) (bind p g) c := by
  simp only [RunAlike, runWith, entriesWith]
  rcases hrun : p.runWith rules c with fault | (_ | ⟨a, d⟩)
  · exact ⟨rfl, rfl⟩
  · exact ⟨rfl, rfl⟩
  · exact ⟨(h a d hrun).1, congrArg _ (h a d hrun).2⟩

/-! ## Choice -/

theorem runAlike_choiceOf_nil : RunAlike rules (choiceOf [] : Parser R α) failure c :=
  ⟨runWith_choiceOf_nil, rfl⟩

theorem runAlike_choiceOf_cons (p : Parser R α) (more : List (Parser R α)) :
    RunAlike rules (choiceOf (p :: more)) (orElse p (choiceOf more)) c := by
  refine ⟨runWith_choiceOf_cons p more, ?_⟩
  simp only [choiceOf, entriesWith]
  rfl

theorem runAlike_choiceOf (alternatives : List (Parser R α)) :
    RunAlike rules (choiceOf alternatives) (alternatives.foldr orElse failure) c := by
  induction alternatives with
  | nil => exact runAlike_choiceOf_nil
  | cons p more ih => exact (runAlike_choiceOf_cons p more).trans (.orElse fun _ => ih)

/-- Where the first few alternatives do not all fail to match, the others are not run. -/
theorem runAlike_choiceOf_take {alternatives : List (Parser R α)} {k : Nat}
    (hdecided : (choiceOf (alternatives.take k)).runWith rules c ≠ .ok none)
    (last : Parser R α) :
    RunAlike rules (choiceOf alternatives) ((alternatives.take k).foldr orElse last) c := by
  induction k generalizing alternatives with
  | zero => exact absurd runWith_choiceOf_nil hdecided
  | succ k ih =>
      cases alternatives with
      | nil => exact absurd runWith_choiceOf_nil hdecided
      | cons p more =>
          refine (runAlike_choiceOf_cons p more).trans (.orElse fun hnone => ih ?_)
          rwa [List.take_succ_cons, runWith_choiceOf_cons, runWith_orElse, hnone] at hdecided

/-! ## Sequence -/

/-- Each parser is bound to those behind it, and `last` to the tokens of all. -/
def chained : (n : Nat) → (τ : Fin n → Type) → ((i : Fin n) → Parser R (τ i)) →
    (((i : Fin n) → τ i) → Parser R β) → Parser R β
  | 0, _, _, last => last fun i => i.elim0
  | n + 1, τ, parts, last =>
      bind (parts 0) fun a =>
        chained n (fun i => τ i.succ) (fun i => parts i.succ) fun tokens =>
          last (consToken a tokens)

theorem runAlike_sequenceAll_zero (τ : Fin 0 → Type) (parts : (i : Fin 0) → Parser R (τ i))
    (f : ((i : Fin 0) → τ i) → β) :
    RunAlike rules (sequenceAll 0 τ parts f) (success (f fun i => i.elim0)) c := by
  refine ⟨by simp only [runWith, collect], ?_⟩
  simp only [entriesWith]
  rfl

theorem runAlike_sequenceAll_succ (n : Nat) (τ : Fin (n + 1) → Type)
    (parts : (i : Fin (n + 1)) → Parser R (τ i)) (f : ((i : Fin (n + 1)) → τ i) → β) :
    RunAlike rules (sequenceAll (n + 1) τ parts f)
      (bind (parts 0) fun a => sequenceAll n (fun i => τ i.succ) (fun i => parts i.succ)
        fun tokens => f (consToken a tokens)) c := by
  refine ⟨runWith_sequenceAll_succ n τ parts f, ?_⟩
  simp only [entriesWith]
  refine congrArg (entriesWith rules (parts 0) c ++ ·) ?_
  beta_reduce
  rcases (parts 0).runWith rules c with fault | (_ | ⟨a, d⟩) <;> rfl

theorem runAlike_sequenceAll (n : Nat) (τ : Fin n → Type) (parts : (i : Fin n) → Parser R (τ i))
    (f : ((i : Fin n) → τ i) → β) :
    RunAlike rules (sequenceAll n τ parts f)
      (chained n τ parts fun tokens => success (f tokens)) c := by
  induction n generalizing c with
  | zero => exact runAlike_sequenceAll_zero τ parts f
  | succ n ih => exact (runAlike_sequenceAll_succ n τ parts f).trans (.bind fun _ _ _ => ih ..)

theorem runWith_sequenceAll_id (n : Nat) (τ : Fin n → Type)
    (parts : (i : Fin n) → Parser R (τ i)) :
    (sequenceAll n τ parts id).runWith rules c =
      collect n τ (fun i => (parts i).runWith rules) c := by
  rw [runWith_sequenceAll]
  exact Outcome.andThen_some _

theorem collect_eq_some {n : Nat} {τ : Fin (n + 1) → Type}
    {steps : (i : Fin (n + 1)) → Cursor → Outcome (τ i)} {d e : Cursor} {a : τ 0}
    {tokens : (i : Fin n) → τ i.succ} (hfirst : steps 0 c = .ok (some (a, d)))
    (hmore : collect n (fun i => τ i.succ) (fun i => steps i.succ) d = .ok (some (tokens, e))) :
    collect (n + 1) τ steps c = .ok (some (consToken a tokens, e)) := by
  rw [collect_succ, hfirst, Outcome.some_andThen, hmore, Outcome.some_andThen]

/-- Where the first few parts do not all match, the others are not run. -/
theorem runAlike_sequenceAll_castLE {k n : Nat} (hle : k ≤ n) (τ : Fin n → Type)
    (parts : (i : Fin n) → Parser R (τ i)) (f : ((i : Fin n) → τ i) → β)
    (hdecided : ∀ found, (sequenceAll k (fun i => τ (i.castLE hle))
      (fun i => parts (i.castLE hle)) id).runWith rules c ≠ .ok (some found))
    (last : ((i : Fin k) → τ (i.castLE hle)) → Parser R β) :
    RunAlike rules (sequenceAll n τ parts f)
      (chained k (fun i => τ (i.castLE hle)) (fun i => parts (i.castLE hle)) last) c := by
  induction k generalizing n c with
  | zero => exact absurd rfl (hdecided _)
  | succ k ih =>
      cases n with
      | zero => exact absurd hle (Nat.not_succ_le_zero k)
      | succ n =>
          refine (runAlike_sequenceAll_succ n τ parts f).trans (.bind fun a d hrun => ?_)
          refine ih (Nat.le_of_succ_le_succ hle) _ _ _ ?_ _
          rintro ⟨tokens, e⟩ hmore
          rw [runWith_sequenceAll_id] at hmore
          apply hdecided (consToken a tokens, e)
          rw [runWith_sequenceAll_id]
          exact collect_eq_some hrun hmore

/-- A choice is the binary choice folded over its alternatives, and a sequence is the
chain of its parts, each bound to the next one.  Once the first `k` of them have
decided how the run ends, nothing behind them is run: any other parser may stand
there. -/
theorem nary_are_folds (rules : Rules R) (c : Cursor) (alternatives : List (Parser R α)) {n : Nat}
    (τ : Fin n → Type) (parts : (i : Fin n) → Parser R (τ i))
    (combine : ((i : Fin n) → τ i) → β) :
    (RunAlike rules (choiceOf alternatives) (alternatives.foldr orElse failure) c ∧
      ∀ k, (choiceOf (alternatives.take k)).runWith rules c ≠ .ok none → ∀ last,
        RunAlike rules (choiceOf alternatives) ((alternatives.take k).foldr orElse last) c) ∧
    RunAlike rules (sequenceAll n τ parts combine)
      (chained n τ parts fun tokens => success (combine tokens)) c ∧
    ∀ k (hle : k ≤ n), (∀ found, (sequenceAll k (fun i => τ (i.castLE hle))
        (fun i => parts (i.castLE hle)) id).runWith rules c ≠ .ok (some found)) → ∀ last,
      RunAlike rules (sequenceAll n τ parts combine)
        (chained k (fun i => τ (i.castLE hle)) (fun i => parts (i.castLE hle)) last) c :=
  ⟨⟨runAlike_choiceOf alternatives, fun _ hdecided last => runAlike_choiceOf_take hdecided last⟩,
    runAlike_sequenceAll n τ parts combine, fun _ hle hdecided last =>
      runAlike_sequenceAll_castLE hle τ parts combine hdecided last⟩

/-- The parser in the middle decides, and so the fault behind it does not occur. -/
theorem nary_are_folds_before_fault :
    let alternatives : List (Parser NoRule Char) := [char 'b', char 'a', raise .undefined]
    let parts : Fin 3 → Parser NoRule Char := [char 'a', char 'b', raise .undefined].get
    let stop : Cursor := ⟨#['a', 'c'], 1, ⟨1, 2⟩⟩
    (choiceOf (alternatives.take 2)).run (.start "ac") = .ok (some ('a', stop)) ∧
    (choiceOf alternatives).run (.start "ac") = .ok (some ('a', stop)) ∧
    (sequenceAll 2 (fun _ => Char) (fun i => parts (i.castLE (Nat.le_succ 2))) id).run (.start "ac") =
      .ok none ∧
    (sequenceAll 3 (fun _ => Char) parts fun tokens => tokens 2).run (.start "ac") = .ok none := by
  intro alternatives parts stop
  have hchoice : (choiceOf (alternatives.take 2)).run (.start "ac") = .ok (some ('a', stop)) := by
    cbv
  have hsequence : (sequenceAll 2 (fun _ => Char)
      (fun i => parts (i.castLE (Nat.le_succ 2))) id).run (.start "ac") = .ok none := by
    cbv
  obtain ⟨⟨-, hfront⟩, -, hfront'⟩ := nary_are_folds
    (Grammar.rule NoRule.grammar Grammar.nestingLimit) (.start "ac") alternatives (fun _ => Char)
    parts fun tokens => tokens 2
  refine ⟨hchoice, ?_, hsequence, ?_⟩
  · refine (hfront 2 (fun hnone => ?_) failure).1.trans hchoice
    exact absurd (hchoice.symm.trans hnone) (by simp)
  · refine (hfront' 2 (by decide) (fun found hfound => ?_) fun _ => failure).1.trans ?_
    · exact absurd (hsequence.symm.trans hfound) (by simp)
    · rfl

end ParserKit.Parser
