import Mathlib
import ParserKit.Proofs.SteadyOnStack

/-!
# Where the stack ends

On too few frames a parser ends in the fault of nesting.  A combinator lacks the
frames that one of its parts lacks: the part that runs first, or one that runs where
the parts before it have ended, as far as these were answered at all.
-/

namespace ParserKit.Parser

variable {R : Type → Type} {α β γ : Type} {rules : Rules (Framed R)} {v : Nat}
  {p : Parser R α} {q : Parser R β} {c : Cursor}

/-- On `v` frames, and on fewer, the parser ends in the fault of nesting. -/
def RunsOut (rules : Rules (Framed R)) (v : Nat) (p : Parser R α) (c : Cursor) : Prop :=
  ∀ n ≤ v, (p.onStack n).runWith rules c = .error .tooDeep

/-- What a combinator leaves to a part is too little. -/
theorem RunsOut.below (h : RunsOut rules v p c) {n : Nat} (hn : n ≤ v + callFrames) :
    (p.onStack (n - callFrames)).runWith rules c = .error .tooDeep :=
  h _ (Nat.sub_le_of_le_add hn)

theorem runsOut_satisfy (k : Char → Bool) (c : Cursor) :
    RunsOut rules 5 (satisfy k : Parser R Char) c := by
  intro n hn
  rw [noRoom_onStack_satisfy k (Nat.lt_succ_of_le hn)]
  rfl

theorem runsOut_ref {r : R α} (h : ∀ n ≤ v, rules ⟨r, n⟩ c = .error .tooDeep) :
    RunsOut rules (v + 1) (ref r) c :=
  fun n hn => (runsAs_ref r n).eq_tooDeep (h _ (Nat.sub_le_of_le_add hn))

theorem RunsOut.map (h : RunsOut rules v p c) (f : α → β) :
    RunsOut rules (v + 2) (map p f) c := by
  intro n hn
  apply (runsAs_map p f n).eq_tooDeep
  rw [runWith_map, h.below hn]
  rfl

theorem RunsOut.sequence (h : RunsOut rules v p c) (q : Parser R β) (f : α → β → γ) :
    RunsOut rules (v + 2) (sequence p q f) c := by
  intro n hn
  apply (runsAs_sequence p q f n).eq_tooDeep
  rw [runWith_sequence, h.below hn]
  rfl

/-- The part behind the first one runs out of frames wherever the first one has ended. -/
theorem runsOut_sequence_of_meets (f : α → β → γ)
    (h : ∀ n, ((p.onStack n).runWith rules c).Meets (· = .tooDeep) False
      fun _ d => RunsOut rules v q d) :
    RunsOut rules (v + 2) (sequence p q f) c := by
  intro n hn
  apply (runsAs_sequence p q f n).eq_tooDeep
  apply Outcome.Meets.eq_error
  rw [meets_sequence]
  apply (h _).imp
  intro a d hq
  rw [hq.below hn]
  rfl

theorem RunsOut.withLocation (h : RunsOut rules v p c) :
    RunsOut rules (v + 2) (withLocation p) c := by
  intro n hn
  apply (runsAs_withLocation p n).eq_tooDeep
  rw [runWith_withLocation, h.below hn]
  rfl

theorem RunsOut.choiceOf (h : RunsOut rules v p c) (more : List (Parser R α)) :
    RunsOut rules (v + 2) (choiceOf (p :: more)) c := by
  intro n hn
  apply (runsAs_choiceOf (p :: more) n).eq_tooDeep
  rw [List.map_cons, runWith_choiceOf_cons, runWith_orElse, h.below hn]
  rfl

theorem RunsOut.many (h : RunsOut rules v p c) : RunsOut rules (v + 4) (many p) c := by
  intro n hn
  apply (runsAs_many p n).eq_tooDeep
  have hround : (p.onStack (n - callFrames - callFrames)).runWith rules c = .error .tooDeep :=
    h.below (Nat.sub_le_of_le_add hn)
  have hrounds : (oneOrMore (p.onStack (n - callFrames - callFrames))).runWith rules c =
      .error .tooDeep := by
    rw [runWith, repeatOutcome, repeatFrom, hround]
  rw [Parser.many, runWith_orElse, hrounds]
  rfl

theorem runsOut_space (c : Cursor) : RunsOut rules 11 (space : Parser R Unit) c :=
  (runsOut_satisfy _ c).many.map _

/-- The blanks before a token need the most frames. -/
theorem runsOut_token (p : Parser R α) (c : Cursor) : RunsOut rules 15 (token p) c :=
  ((runsOut_space c).sequence p _).sequence space _

end ParserKit.Parser
