import ParserKit.Proofs.Dependence

/-!
# Grammars that end

In a grammar whose rules consume, are guarded and are tame, every entry lies
behind the place where the rule that makes it was entered.  So no more entries
are open at one time than characters remain, and beyond that number the limit
on nesting has no say in the outcome.
-/

namespace ParserKit

variable {R : Type → Type} {α : Type}

/-- All rules of the grammar are well-formed. -/
def Grammar.WellFormed (grammar : Grammar R) : Prop :=
  ∀ ⦃α : Type⦄ (r : R α), (grammar r).WellFormed

namespace Grammar

/-- Entries one inside the other, the first made by the parser itself and each
other one by the rule that was entered before it, while `depth` references may
still be opened.  A rule that is entered with none left makes no entries. -/
def Trail (grammar : Grammar R) :
    Nat → {α : Type} → Parser R α → Cursor → List (Entry R) → Prop
  | _, _, _, _, [] => True
  | 0, _, p, c, entry :: trail => entry ∈ p.entriesWith (rule grammar 0) c ∧ trail = []
  | depth + 1, _, p, c, entry :: trail =>
      entry ∈ p.entriesWith (rule grammar (depth + 1)) c ∧
        Trail grammar depth (grammar entry.rule) entry.cursor trail

end Grammar

/-- Whatever the text and wherever the cursor stands, no repetition comes to a
round without a character, every rule is entered behind the place where the rule
around it was entered, and the parser comes to an outcome for which it opens no
more references than characters remain. -/
structure Parser.EndsOver (grammar : Grammar R) (p : Parser R α) : Prop where
  repeats : ∀ depth c place,
    p.runWith (Grammar.rule grammar depth) c ≠ .error (.emptyRepetition place)
  descends : ∀ depth c trail, grammar.Trail depth p c trail →
    (c.offset :: trail.map fun entry => entry.cursor.offset).IsChain (· < ·) ∧
      trail.length ≤ c.left
  ends : ∀ c, ∃ outcome, outcome ≠ .error .tooDeep ∧
    ∀ depth, c.left ≤ depth → p.runWith (Grammar.rule grammar depth) c = outcome

open Outcome (SameWithin)

namespace Grammar

variable {grammar : Grammar R} {p : Parser R α} {c : Cursor} {depth : Nat}

/-- By induction on the depth: a rule that may open no reference ends in a fault. -/
theorem proceeds_rule (hgrammar : grammar.WellFormed) (depth : Nat) (r : R α) :
    Proceeds True (rule grammar depth r) := by
  induction depth generalizing α with
  | zero => exact fun c => trivial
  | succ depth ih =>
      exact (Parser.proceeds_runWith ih (grammar r)).imp fun _ => (hgrammar r).consumes

/-! ## Repetitions -/

theorem runWith_ne_emptyRepetition (hgrammar : grammar.WellFormed) (hp : p.Tame) (depth : Nat)
    (c : Cursor) (place : Location) :
    p.runWith (rule grammar depth) c ≠ .error (.emptyRepetition place) := by
  have hplain : ∀ fault : Fault, fault.IsPlain → fault ≠ .emptyRepetition place :=
    fun _ h => h.2 place
  induction depth generalizing α c with
  | zero =>
      intro hrun
      refine Parser.fault_of_runWith hplain (proceeds_rule hgrammar 0) p hp ?_ hrun rfl
      intro entry _ fault hentry hfault
      cases hentry
      cases hfault
  | succ depth ih =>
      intro hrun
      refine Parser.fault_of_runWith hplain (proceeds_rule hgrammar _) p hp ?_ hrun rfl
      intro entry _ fault hentry hfault
      exact ih (hgrammar entry.rule).tame entry.cursor (hfault ▸ hentry)

/-! ## Entries -/

theorem passes_of_mem_entriesWith (hgrammar : grammar.WellFormed) (hp : p.Guarded)
    {entry : Entry R} (hentry : entry ∈ p.entriesWith (rule grammar depth) c) :
    c.Passes entry.cursor :=
  (p.ahead_entriesWith (proceeds_rule hgrammar depth) hentry).2 hp

/-- The first entry is made behind `c`, and the others inside of it. -/
theorem Trail.uncons {entry : Entry R} {trail : List (Entry R)}
    (h : Trail grammar depth p c (entry :: trail)) :
    entry ∈ p.entriesWith (rule grammar depth) c ∧
      ∃ depth', Trail grammar depth' (grammar entry.rule) entry.cursor trail := by
  cases depth with
  | zero =>
      obtain ⟨hentry, rfl⟩ := h
      exact ⟨hentry, 0, trivial⟩
  | succ depth => exact ⟨h.1, depth, h.2⟩

theorem Trail.descends (hgrammar : grammar.WellFormed) (hp : p.Guarded)
    {trail : List (Entry R)} (h : Trail grammar depth p c trail) :
    (c.offset :: trail.map fun entry => entry.cursor.offset).IsChain (· < ·) ∧
      trail.length ≤ c.left := by
  induction trail generalizing α p c depth with
  | nil => exact ⟨List.isChain_singleton _, Nat.zero_le _⟩
  | cons entry trail ih =>
      obtain ⟨hentry, depth', hinside⟩ := h.uncons
      obtain ⟨hchain, hlength⟩ := ih (hgrammar entry.rule).guarded hinside
      have hpasses := passes_of_mem_entriesWith hgrammar hp hentry
      have hleft := hpasses.left_lt
      refine ⟨List.isChain_cons_cons.2 ⟨hpasses.offset_lt, hchain⟩, ?_⟩
      rw [List.length_cons]
      omega

/-! ## Nesting -/

/-- By induction on the characters that remain, of which each entry leaves
fewer: with as many references to open, a run is not cut short. -/
theorem sameWithin_of_left_le (hgrammar : grammar.WellFormed) (hguarded : p.Guarded)
    (htame : p.Tame) {depth depth' : Nat} (h : c.left ≤ depth)
    (h' : c.left ≤ depth') :
    SameWithin (· ≠ .tooDeep) (p.runWith (rule grammar depth) c)
      (p.runWith (rule grammar depth') c) := by
  induction hleft : c.left using Nat.strong_induction_on generalizing α c depth depth' with
  | _ left ih =>
      apply Parser.sameWithin_runWith (fun _ h => h.1) (proceeds_rule hgrammar depth) p htame
      intro entry hentry
      have hlt := (passes_of_mem_entriesWith hgrammar hguarded hentry).left_lt
      obtain ⟨m, rfl⟩ : ∃ m, depth = m + 1 := ⟨depth - 1, by omega⟩
      obtain ⟨n, rfl⟩ : ∃ n, depth' = n + 1 := ⟨depth' - 1, by omega⟩
      have hrule := hgrammar entry.rule
      exact ih entry.cursor.left (hleft ▸ hlt) hrule.guarded hrule.tame (by omega) (by omega) rfl

/-- A guarded and tame parser over a well-formed grammar ends. -/
theorem WellFormed.endsOver (hgrammar : grammar.WellFormed) (hguarded : p.Guarded)
    (htame : p.Tame) :
    p.EndsOver grammar where
  repeats := runWith_ne_emptyRepetition hgrammar htame
  descends _ _ _ htrail := htrail.descends hgrammar hguarded
  ends c := by
    refine ⟨p.runWith (rule grammar c.left) c, fun hrun => ?_, fun depth hdepth => ?_⟩
    · exact (sameWithin_of_left_le hgrammar hguarded htame le_rfl le_rfl).2 _ hrun rfl
    · exact (sameWithin_of_left_le hgrammar hguarded htame le_rfl hdepth).1

end Grammar

end ParserKit
