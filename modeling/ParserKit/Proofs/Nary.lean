import ParserKit.Parser.Run

/-!
# Parsers in a row

A choice between several parsers and a sequence of several parsers unfold into
the binary combinators, one parser after the other.
-/

namespace ParserKit.Parser

variable {R : Type → Type} {rules : Rules R} {c : Cursor} {α β : Type}

theorem runWith_choiceOf_nil :
    (choiceOf [] : Parser R α).runWith rules c = .ok none := by
  simp only [choiceOf, runWith, List.length_nil, firstMatch]

theorem runWith_choiceOf_cons (p : Parser R α) (more : List (Parser R α)) :
    (choiceOf (p :: more)).runWith rules c = (orElse p (choiceOf more)).runWith rules c := by
  simp only [choiceOf, runWith, List.length_cons, firstMatch]
  rfl

theorem runWith_sequenceAll_succ (n : Nat) (τ : Fin (n + 1) → Type)
    (parts : (i : Fin (n + 1)) → Parser R (τ i)) (f : ((i : Fin (n + 1)) → τ i) → β) :
    (sequenceAll (n + 1) τ parts f).runWith rules c =
      (bind (parts 0) fun a => sequenceAll n (fun i => τ i.succ) (fun i => parts i.succ)
        fun tokens => f (consToken a tokens)).runWith rules c := by
  simp only [runWith, collect]
  rcases (parts 0).runWith rules c with fault | (_ | ⟨a, d⟩)
  · rfl
  · rfl
  · dsimp only
    rcases collect n _ _ d with fault | (_ | ⟨tokens, e⟩) <;> rfl

theorem runWith_sequenceOf_cons (p : Parser R α) (more : List (Parser R α)) (f : List α → β) :
    (sequenceOf (p :: more) f).runWith rules c =
      (bind p fun a => sequenceOf more fun as => f (a :: as)).runWith rules c := by
  have htokens : ∀ (a : α) (tokens : Fin more.length → α),
      List.ofFn (consToken (τ := fun _ => α) a tokens) = a :: List.ofFn tokens := by
    intro a tokens
    rw [List.ofFn_succ]
    rfl
  refine (runWith_sequenceAll_succ more.length _ _ _).trans ?_
  simp only [htokens]
  rfl

end ParserKit.Parser
