import ParserKit.Proofs.Reads
import ParserKit.Proofs.Nary
import ParserKit.Proofs.Sequencing

/-!
# Conditions on outcomes

`Outcome.Meets F N Q` asks of an outcome that a fault satisfies `F`, that no
match happens only under `N`, and that a token and the cursor behind it satisfy
`Q`.  Each combinator has one rule that reduces such a condition on it to
conditions on its parts; a repetition is reduced to one round by an invariant.
Soundness, completeness and the absence of faults are all stated by choosing
the three conditions.
-/

namespace ParserKit

def Outcome.Meets {α : Type} (F : Fault → Prop) (N : Prop) (Q : α → Cursor → Prop) :
    Outcome α → Prop
  | .error fault => F fault
  | .ok none => N
  | .ok (some (a, d)) => Q a d

/-- Nesting is the fault, and what stands in the text nests as deep as the limit. -/
def DeepFault (limit depth : Nat) (fault : Fault) : Prop := fault = .tooDeep ∧ limit ≤ depth

theorem DeepFault.mono {limit depth depth' : Nat} {fault : Fault} (h : DeepFault limit depth fault)
    (hle : depth ≤ depth') : DeepFault limit depth' fault :=
  ⟨h.1, Nat.le_trans h.2 hle⟩

/-- Behind a reference, one level of nesting is used up. -/
theorem DeepFault.succ {limit depth : Nat} {fault : Fault} (h : DeepFault limit depth fault) :
    DeepFault (limit + 1) (depth + 1) fault :=
  ⟨h.1, Nat.succ_le_succ h.2⟩

variable {α β γ : Type} {F F' : Fault → Prop} {N N' : Prop}

theorem Outcome.Meets.mono {Q Q' : α → Cursor → Prop} {o : Outcome α}
    (h : o.Meets F N Q) (hF : ∀ fault, F fault → F' fault) (hN : N → N')
    (hQ : ∀ a d, Q a d → Q' a d) : o.Meets F' N' Q' := by
  rcases o with fault | (_ | ⟨a, d⟩)
  · exact hF fault h
  · exact hN h
  · exact hQ a d h

/-- Weaken only what is known of a token. -/
theorem Outcome.Meets.imp {Q Q' : α → Cursor → Prop} {o : Outcome α}
    (h : o.Meets F N Q) (hQ : ∀ a d, Q a d → Q' a d) : o.Meets F N Q' :=
  h.mono (fun _ hF => hF) id hQ

/-- Where failing is excluded, it may be allowed as well. -/
theorem Outcome.Meets.imp_of_false {Q Q' : α → Cursor → Prop} {o : Outcome α}
    (h : o.Meets F False Q) (hQ : ∀ a d, Q a d → Q' a d) : o.Meets F N Q' :=
  h.mono (fun _ hF => hF) False.elim hQ

/-- Two conditions at a time. -/
theorem Outcome.Meets.and {Q Q' : α → Cursor → Prop} {o : Outcome α} (h : o.Meets F N Q)
    (h' : o.Meets F' N' Q') :
    o.Meets (fun fault => F fault ∧ F' fault) (N ∧ N') fun a d => Q a d ∧ Q' a d := by
  rcases o with fault | (_ | ⟨a, d⟩) <;> exact ⟨h, h'⟩

/-- A condition that holds of no fault and of no token leaves a failure to
match. -/
theorem Outcome.Meets.eq_none {o : Outcome α}
    (h : o.Meets (fun _ => False) True fun _ _ => False) : o = .ok none := by
  rcases o with fault | (_ | ⟨a, d⟩)
  · exact h.elim
  · rfl
  · exact h.elim

/-- What is left is a fault. -/
theorem Outcome.Meets.eq_error {o : Outcome α} {fault : Fault}
    (h : o.Meets (· = fault) False fun _ _ => False) : o = .error fault := by
  rcases o with f | (_ | ⟨a, d⟩)
  · exact congrArg Except.error h
  · exact h.elim
  · exact h.elim

theorem Outcome.meets_andThen {Q : β → Cursor → Prop} (o : Outcome α)
    (next : α → Cursor → Outcome β) :
    (o.andThen next).Meets F N Q ↔ o.Meets F N fun a d => (next a d).Meets F N Q := by
  rcases o with fault | (_ | ⟨a, d⟩) <;> rfl

theorem Outcome.meets_otherwise {Q : α → Cursor → Prop} (o other : Outcome α) :
    (o.otherwise other).Meets F N Q ↔ o.Meets F (other.Meets F N Q) Q := by
  rcases o with fault | (_ | ⟨a, d⟩) <;> rfl

namespace Parser

variable {R : Type → Type} {rules : Rules R} {c : Cursor}

theorem meets_success {Q : α → Cursor → Prop} (a : α) :
    ((success a : Parser R α).runWith rules c).Meets F N Q ↔ Q a c := by
  simp only [runWith, Outcome.Meets]

theorem meets_map {Q : β → Cursor → Prop} (p : Parser R α) (f : α → β) :
    ((map p f).runWith rules c).Meets F N Q ↔
      (p.runWith rules c).Meets F N fun a d => Q (f a) d := by
  rw [runWith_map, Outcome.meets_andThen]
  rfl

theorem meets_convert {Q : β → Cursor → Prop} (p : Parser R α) (f : α → Except Fault β) :
    ((convert p f).runWith rules c).Meets F N Q ↔
      (p.runWith rules c).Meets F N fun a d =>
        match f a with
        | .error fault => F fault
        | .ok b => Q b d := by
  simp only [runWith]
  rcases p.runWith rules c with fault | (_ | ⟨a, d⟩)
  · rfl
  · rfl
  · cases h : f a <;> simp only [Outcome.Meets, h]

theorem meets_sequence {Q : γ → Cursor → Prop} (p : Parser R α) (q : Parser R β)
    (f : α → β → γ) :
    ((sequence p q f).runWith rules c).Meets F N Q ↔
      (p.runWith rules c).Meets F N fun a d =>
        (q.runWith rules d).Meets F N fun b e => Q (f a b) e := by
  simp only [runWith_sequence, Outcome.meets_andThen]
  rfl

theorem meets_bind {Q : β → Cursor → Prop} (p : Parser R α) (f : α → Parser R β) :
    ((bind p f).runWith rules c).Meets F N Q ↔
      (p.runWith rules c).Meets F N fun a d => ((f a).runWith rules d).Meets F N Q := by
  rw [runWith_bind, Outcome.meets_andThen]

theorem meets_orElse {Q : α → Cursor → Prop} (p q : Parser R α) :
    ((orElse p q).runWith rules c).Meets F N Q ↔
      (p.runWith rules c).Meets F ((q.runWith rules c).Meets F N Q) Q := by
  rw [runWith_orElse, Outcome.meets_otherwise]

theorem meets_choiceOf_nil {Q : α → Cursor → Prop} :
    ((choiceOf [] : Parser R α).runWith rules c).Meets F N Q ↔ N := by
  rw [runWith_choiceOf_nil, Outcome.Meets]

theorem meets_choiceOf_cons {Q : α → Cursor → Prop} (p : Parser R α)
    (more : List (Parser R α)) :
    ((choiceOf (p :: more)).runWith rules c).Meets F N Q ↔
      (p.runWith rules c).Meets F (((choiceOf more).runWith rules c).Meets F N Q) Q := by
  rw [runWith_choiceOf_cons, meets_orElse]

theorem meets_ref {Q : α → Cursor → Prop} (rule : R α) :
    ((ref rule).runWith rules c).Meets F N Q ↔ (rules rule c).Meets F N Q := by
  simp only [runWith]

theorem meets_sequenceAll {Q : β → Cursor → Prop} (n : Nat) (τ : Fin n → Type)
    (parts : (i : Fin n) → Parser R (τ i)) (f : ((i : Fin n) → τ i) → β) :
    ((sequenceAll n τ parts f).runWith rules c).Meets F N Q ↔
      (collect n τ (fun i => (parts i).runWith rules) c).Meets F N fun tokens d =>
        Q (f tokens) d := by
  rw [runWith_sequenceAll, Outcome.meets_andThen]
  rfl

/-- Conditions under which failing is allowed pass from all alternatives to the
choice. -/
theorem meets_choiceOf {Q : α → Cursor → Prop} (alternatives : List (Parser R α)) (hN : N)
    (h : ∀ p ∈ alternatives, (p.runWith rules c).Meets F N Q) :
    ((choiceOf alternatives).runWith rules c).Meets F N Q := by
  induction alternatives with
  | nil => exact meets_choiceOf_nil.2 hN
  | cons p more ih =>
      rw [meets_choiceOf_cons]
      have hmore := ih fun q hq => h q (List.mem_cons_of_mem p hq)
      exact (h p List.mem_cons_self).mono (fun _ hF => hF) (fun _ => hmore) fun _ _ hQ => hQ

/-- Alternatives that fail to match are passed over. -/
theorem meets_choiceOf_append {Q : α → Cursor → Prop} (before : List (Parser R α))
    {p : Parser R α} {after : List (Parser R α)}
    (hbefore : ∀ q ∈ before, q.runWith rules c = .ok none)
    (hp : (p.runWith rules c).Meets F False Q) :
    ((choiceOf (before ++ p :: after)).runWith rules c).Meets F N Q := by
  induction before with
  | nil =>
      rw [List.nil_append, meets_choiceOf_cons]
      exact hp.imp_of_false fun _ _ hQ => hQ
  | cons q more ih =>
      rw [List.cons_append, meets_choiceOf_cons, hbefore q List.mem_cons_self]
      exact ih fun p hp => hbefore p (List.mem_cons_of_mem q hp)

/-! ## Repetition -/

/-- The rule for the loop behind every repetition: `I` holds of the tokens found
so far and the cursor reached, and each round ends the loop, or moves on and
keeps `I`, or stays where it is, which is a fault. -/
theorem repeatFrom_of_rounds {step : Cursor → Outcome α} {Q : List α → Cursor → Prop}
    (I : List α → Cursor → Prop)
    (hstep : ∀ tokens d, I tokens d →
      (step d).Meets F (Q tokens d) fun a e =>
        if e.left < d.left then I (tokens ++ [a]) e else F (.emptyRepetition d.location))
    (tokens : List α) (c : Cursor) (hstart : I tokens.reverse c) :
    match repeatFrom step tokens c with
    | .error fault => F fault
    | .ok (found, d) => Q found d := by
  fun_induction repeatFrom step tokens c with
  | case1 tokens c fault hrun =>
      have := hstep _ _ hstart
      rwa [hrun] at this
  | case2 tokens c hrun =>
      have := hstep _ _ hstart
      rwa [hrun] at this
  | case3 tokens c a rest hrun hlt ih =>
      have := hstep _ _ hstart
      rw [hrun, Outcome.Meets, if_pos hlt] at this
      exact ih (by simpa using this)
  | case4 tokens c a rest hrun hlt =>
      have := hstep _ _ hstart
      rwa [hrun, Outcome.Meets, if_neg hlt] at this

theorem meets_oneOrMore_of_rounds {Q : List α → Cursor → Prop} (p : Parser R α)
    (I : List α → Cursor → Prop) (hstart : I [] c)
    (hstep : ∀ tokens d, I tokens d →
      (p.runWith rules d).Meets F (if tokens = [] then N else Q tokens d) fun a e =>
        if e.left < d.left then I (tokens ++ [a]) e else F (.emptyRepetition d.location)) :
    ((oneOrMore p).runWith rules c).Meets F N Q := by
  have h := repeatFrom_of_rounds I hstep [] c hstart
  simp only [runWith, repeatOutcome]
  rcases hrun : repeatFrom (p.runWith rules) [] c with fault | ⟨_ | ⟨a, more⟩, d⟩
  · simpa only [hrun, Outcome.Meets] using h
  · simpa only [hrun, if_true, Outcome.Meets] using h
  · simpa only [hrun, reduceCtorEq, if_false, Outcome.Meets] using h

theorem meets_many_of_rounds {Q : List α → Cursor → Prop} (p : Parser R α)
    (I : List α → Cursor → Prop) (hstart : I [] c)
    (hstep : ∀ tokens d, I tokens d →
      (p.runWith rules d).Meets F (Q tokens d) fun a e =>
        if e.left < d.left then I (tokens ++ [a]) e else F (.emptyRepetition d.location)) :
    ((many p).runWith rules c).Meets F N Q := by
  rw [many, meets_orElse, meets_success]
  -- Only a first round that fails leaves no token, and then the cursor has not moved.
  refine meets_oneOrMore_of_rounds p (fun tokens d => I tokens d ∧ (tokens = [] → d = c))
    ⟨hstart, fun _ => rfl⟩ fun tokens d hI => ?_
  refine (hstep tokens d hI.1).mono (fun _ h => h) (fun hQ => ?_) fun a e h => ?_
  · by_cases hempty : tokens = []
    · rw [if_pos hempty, ← hI.2 hempty, ← hempty]
      exact hQ
    · rwa [if_neg hempty]
  · split at h
    · rename_i hlt
      rw [if_pos hlt]
      exact ⟨h, by simp⟩
    · rename_i hlt
      rwa [if_neg hlt]

/-! Where every round is known to move on, no round is a fault. -/

theorem repeatFrom_of_invariant {step : Cursor → Outcome α} {Q : List α → Cursor → Prop}
    (I : List α → Cursor → Prop)
    (hstep : ∀ tokens d, I tokens d →
      (step d).Meets F (Q tokens d) fun a e => e.left < d.left ∧ I (tokens ++ [a]) e)
    (tokens : List α) (c : Cursor) (hstart : I tokens.reverse c) :
    match repeatFrom step tokens c with
    | .error fault => F fault
    | .ok (found, d) => Q found d := by
  refine repeatFrom_of_rounds I (fun tokens d hI => (hstep tokens d hI).imp ?_) tokens c hstart
  intro a e h
  rw [if_pos h.1]
  exact h.2

theorem meets_oneOrMore_of_invariant {Q : List α → Cursor → Prop} (p : Parser R α)
    (I : List α → Cursor → Prop) (hstart : I [] c)
    (hstep : ∀ tokens d, I tokens d →
      (p.runWith rules d).Meets F (if tokens = [] then N else Q tokens d) fun a e =>
        e.left < d.left ∧ I (tokens ++ [a]) e) :
    ((oneOrMore p).runWith rules c).Meets F N Q := by
  refine meets_oneOrMore_of_rounds p I hstart fun tokens d hI => (hstep tokens d hI).imp ?_
  intro a e h
  rw [if_pos h.1]
  exact h.2

theorem meets_many_of_invariant {Q : List α → Cursor → Prop} (p : Parser R α)
    (I : List α → Cursor → Prop) (hstart : I [] c)
    (hstep : ∀ tokens d, I tokens d →
      (p.runWith rules d).Meets F (Q tokens d) fun a e =>
        e.left < d.left ∧ I (tokens ++ [a]) e) :
    ((many p).runWith rules c).Meets F N Q := by
  refine meets_many_of_rounds p I hstart fun tokens d hI => (hstep tokens d hI).imp ?_
  intro a e h
  rw [if_pos h.1]
  exact h.2

end Parser

end ParserKit
