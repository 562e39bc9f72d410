import ParserKit.Parser.Token
import ParserKit.Proofs.Nary

/-!
# Runs that go on

A combinator that runs a parser and goes on from its token ends where that run
ends, if there is no token; and an alternative runs where there is no match.
Stated once, these two shapes are all that a proof about a combinator has to
open.
-/

namespace ParserKit

variable {α β γ : Type}

/-- Go on from the token and the cursor behind it, if there are any. -/
def Outcome.andThen (o : Outcome α) (next : α → Cursor → Outcome β) : Outcome β :=
  match o with
  | .error fault => .error fault
  | .ok none => .ok none
  | .ok (some (a, d)) => next a d

/-- Another outcome in the place of a failure to match. -/
def Outcome.otherwise (o other : Outcome α) : Outcome α :=
  match o with
  | .ok none => other
  | outcome => outcome

@[simp]
theorem Outcome.some_andThen (a : α) (d : Cursor) (next : α → Cursor → Outcome β) :
    Outcome.andThen (.ok (some (a, d))) next = next a d :=
  rfl

@[simp]
theorem Outcome.andThen_some (o : Outcome α) :
    (o.andThen fun a d => .ok (some (a, d))) = o := by
  rcases o with fault | (_ | ⟨a, d⟩) <;> rfl

theorem Outcome.andThen_assoc (o : Outcome α) (next : α → Cursor → Outcome β)
    (more : β → Cursor → Outcome γ) :
    (o.andThen next).andThen more = o.andThen fun a d => (next a d).andThen more := by
  rcases o with fault | (_ | ⟨a, d⟩) <;> rfl

theorem collect_succ (n : Nat) (τ : Fin (n + 1) → Type)
    (steps : (i : Fin (n + 1)) → Cursor → Outcome (τ i)) (c : Cursor) :
    collect (n + 1) τ steps c =
      (steps 0 c).andThen fun a d =>
        (collect n (fun i => τ i.succ) (fun i => steps i.succ) d).andThen fun tokens e =>
          .ok (some (consToken a tokens, e)) := by
  rw [collect]
  rcases steps 0 c with fault | (_ | ⟨a, d⟩)
  · rfl
  · rfl
  · rcases hmore : collect n (fun i => τ i.succ) (fun i => steps i.succ) d with
      fault | (_ | ⟨tokens, e⟩) <;> simp only [Outcome.andThen, hmore]

theorem firstMatch_succ (n : Nat) (steps : Fin (n + 1) → Cursor → Outcome α) (c : Cursor) :
    firstMatch (n + 1) steps c =
      (steps 0 c).otherwise (firstMatch n (fun i => steps i.succ) c) := by
  rw [firstMatch]
  rcases steps 0 c with fault | (_ | ⟨a, d⟩) <;> rfl

namespace Parser

variable {R : Type → Type} {rules : Rules R} {c : Cursor}

theorem runWith_accept (tokenOf : Char → Option α) :
    (accept tokenOf : Parser R α).runWith rules c =
      Outcome.andThen (.ok c.advance) fun ch d => .ok ((tokenOf ch).map fun a => (a, d)) := by
  rw [runWith]
  rcases c.advance with _ | ⟨ch, d⟩ <;> rfl

theorem runWith_map (p : Parser R α) (f : α → β) :
    (map p f).runWith rules c = (p.runWith rules c).andThen fun a d => .ok (some (f a, d)) := by
  rw [runWith]
  rcases p.runWith rules c with fault | (_ | ⟨a, d⟩) <;> rfl

theorem runWith_convert (p : Parser R α) (f : α → Except Fault β) :
    (convert p f).runWith rules c =
      (p.runWith rules c).andThen fun a d => (f a).map fun b => some (b, d) := by
  rw [runWith]
  rcases p.runWith rules c with fault | (_ | ⟨a, d⟩)
  · rfl
  · rfl
  · cases hf : f a <;> simp only [Outcome.andThen, hf] <;> rfl

theorem runWith_bind (p : Parser R α) (f : α → Parser R β) :
    (bind p f).runWith rules c =
      (p.runWith rules c).andThen fun a d => (f a).runWith rules d := by
  rw [runWith]
  rcases p.runWith rules c with fault | (_ | ⟨a, d⟩) <;> rfl

theorem runWith_sequence (p : Parser R α) (q : Parser R β) (f : α → β → γ) :
    (sequence p q f).runWith rules c =
      (p.runWith rules c).andThen fun a d =>
        (q.runWith rules d).andThen fun b e => .ok (some (f a b, e)) := by
  rw [runWith]
  rcases p.runWith rules c with fault | (_ | ⟨a, d⟩)
  · rfl
  · rfl
  · rcases hq : q.runWith rules d with fault | (_ | ⟨b, e⟩) <;> simp only [Outcome.andThen, hq]

theorem runWith_sequenceAll (n : Nat) (τ : Fin n → Type) (parts : (i : Fin n) → Parser R (τ i))
    (f : ((i : Fin n) → τ i) → β) :
    (sequenceAll n τ parts f).runWith rules c =
      (collect n τ (fun i => (parts i).runWith rules) c).andThen fun tokens d =>
        .ok (some (f tokens, d)) := by
  rw [runWith]
  rcases collect n τ _ c with fault | (_ | ⟨tokens, d⟩) <;> rfl

theorem runWith_orElse (p q : Parser R α) :
    (orElse p q).runWith rules c = (p.runWith rules c).otherwise (q.runWith rules c) := by
  rw [runWith]
  rcases p.runWith rules c with fault | (_ | ⟨a, d⟩) <;> rfl

/-- The locations are those of the cursors before and behind the token. -/
theorem runWith_withLocation (p : Parser R α) :
    (withLocation p).runWith rules c =
      (p.runWith rules c).andThen fun a d => .ok (some (⟨a, c.location, d.location⟩, d)) := by
  rw [withLocation, runWith_sequenceAll_succ, runWith_bind]
  -- The first location is a success; the types of the parts are known from here on.
  change (sequenceAll 2 _ _ _).runWith rules c = _
  rw [runWith_sequenceAll_succ, runWith_bind]
  change (p.runWith rules c).andThen _ = _
  rfl

end Parser

end ParserKit
