import ParserKit.Parser.Run

/-!
# Where a parser enters its rules

While a parser runs it enters rules of its grammar, each at some cursor.
`Parser.entriesWith` lists the entries that a parser makes itself, in their
order, and `Grammar.visits` adds the entries that the entered rules make in
turn.  A parser that ends in a fault has made the entries before it.
-/

namespace ParserKit

/-- A rule and the cursor at which it was entered. -/
structure Entry (R : Type → Type) : Type 1 where
  {token : Type}
  rule : R token
  cursor : Cursor

/-- The entries of several steps one behind the other. -/
def collectEntries {E : Type 1} : (n : Nat) → (τ : Fin n → Type) →
    ((i : Fin n) → Cursor → Outcome (τ i)) → (Fin n → Cursor → List E) → Cursor → List E
  | 0, _, _, _, _ => []
  | n + 1, τ, steps, entries, c =>
      entries 0 c ++
        match steps 0 c with
        | .ok (some (_, rest)) =>
            collectEntries n (fun i => τ i.succ) (fun i => steps i.succ)
              (fun i => entries i.succ) rest
        | _ => []

/-- The entries of several alternatives, up to the first that does not fail to
match. -/
def firstMatchEntries {α : Type} {E : Type 1} : (n : Nat) →
    (Fin n → Cursor → Outcome α) → (Fin n → Cursor → List E) → Cursor → List E
  | 0, _, _, _ => []
  | n + 1, steps, entries, c =>
      entries 0 c ++
        match steps 0 c with
        | .ok none =>
            firstMatchEntries n (fun i => steps i.succ) (fun i => entries i.succ) c
        | _ => []

/-- The entries of all rounds of a repetition. -/
def repeatEntries {α : Type} {E : Type 1} (step : Cursor → Outcome α)
    (entries : Cursor → List E) (c : Cursor) : List E :=
  match step c with
  | .ok (some (_, rest)) =>
      if rest.left < c.left then
        entries c ++ repeatEntries step entries rest
      else
        entries c
  | _ => entries c
termination_by c.left

def Parser.entriesWith {R : Type → Type} (rules : Rules R) :
    {α : Type} → Parser R α → Cursor → List (Entry R)
  | _, .map p _, c => entriesWith rules p c
  | _, .convert p _, c => entriesWith rules p c
  | _, .bind p f, c =>
      entriesWith rules p c ++
        match p.runWith rules c with
        | .ok (some (a, rest)) => entriesWith rules (f a) rest
        | _ => []
  | _, .sequence p q _, c =>
      entriesWith rules p c ++
        match p.runWith rules c with
        | .ok (some (_, rest)) => entriesWith rules q rest
        | _ => []
  | _, .sequenceAll n τ parts _, c =>
      collectEntries n τ (fun i => (parts i).runWith rules)
        (fun i => entriesWith rules (parts i)) c
  | _, .orElse p q, c =>
      entriesWith rules p c ++
        match p.runWith rules c with
        | .ok none => entriesWith rules q c
        | _ => []
  | _, .choice n alternatives, c =>
      firstMatchEntries n (fun i => (alternatives i).runWith rules)
        (fun i => entriesWith rules (alternatives i)) c
  | _, .oneOrMore p, c => repeatEntries (p.runWith rules) (entriesWith rules p) c
  | _, .ref rule, c => [⟨rule, c⟩]
  | _, _, _ => []

namespace Grammar

/-- All entries into rules, those inside an entered rule behind its own, while
`depth` references may still be opened. -/
def visitsWithin {R : Type → Type} (grammar : Grammar R) :
    Nat → {α : Type} → Parser R α → Cursor → List (Entry R)
  | 0, _, p, c => p.entriesWith (rule grammar 0) c
  | depth + 1, _, p, c =>
      (p.entriesWith (rule grammar (depth + 1)) c).flatMap fun entry =>
        entry :: visitsWithin grammar depth (grammar entry.rule) entry.cursor

def visits {R : Type → Type} (grammar : Grammar R) {α : Type} (p : Parser R α) :
    Cursor → List (Entry R) :=
  visitsWithin grammar nestingLimit p

end Grammar

end ParserKit
