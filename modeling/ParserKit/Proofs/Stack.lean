import Mathlib
import ParserKit.Parser.Stack
import ParserKit.Proofs.Movement

/-!
# Running on the stack

A parser on the stack ends as it does where there is room for everything, or in
the fault of nesting: the stack never changes an answer.  And where a parser fits
the frames that it is given, it is the other way round.  Both are one relation
between outcomes that every combinator keeps.
-/

namespace ParserKit

variable {R S : Type → Type} {α β γ : Type}

/-- The outcome is the other one, unless it is the fault of nesting. -/
def Outcome.Approximates (o o' : Outcome α) : Prop := o = .error .tooDeep ∨ o = o'

namespace Outcome.Approximates

variable {o o' : Outcome α}

theorem refl (o : Outcome α) : o.Approximates o := .inr rfl

theorem andThen {next next' : α → Cursor → Outcome β} (h : o.Approximates o')
    (hnext : ∀ a d, (next a d).Approximates (next' a d)) :
    (o.andThen next).Approximates (o'.andThen next') := by
  rcases h with rfl | rfl
  · exact .inl rfl
  · rcases o with fault | (_ | ⟨a, d⟩)
    · exact .inr rfl
    · exact .inr rfl
    · exact hnext a d

theorem otherwise {other other' : Outcome α} (h : o.Approximates o')
    (hother : other.Approximates other') :
    (o.otherwise other).Approximates (o'.otherwise other') := by
  rcases h with rfl | rfl
  · exact .inl rfl
  · rcases o with fault | (_ | ⟨a, d⟩)
    · exact .inr rfl
    · exact hother
    · exact .inr rfl

/-- What is not the fault of nesting is the other outcome. -/
theorem eq_of_ne (h : o.Approximates o') {answer : Outcome α} (ho : o = answer)
    (hne : answer ≠ .error .tooDeep) : o' = answer := by
  rcases h with rfl | rfl
  · exact absurd ho.symm hne
  · exact ho

theorem eq_of_ok (h : o.Approximates o') {found : Option (α × Cursor)} (hok : o = .ok found) :
    o' = .ok found :=
  h.eq_of_ne hok (by simp)

/-- The other outcome meets the condition, and nesting is a fault that is allowed. -/
theorem meets (h : o.Approximates o') {F : Fault → Prop} {N : Prop} {Q : α → Cursor → Prop}
    (hF : F .tooDeep) (hmeets : o'.Meets F N Q) : o.Meets F N Q := by
  rcases h with rfl | rfl
  · exact hF
  · exact hmeets

end Outcome.Approximates

theorem approximates_collect (n : Nat) (τ : Fin n → Type)
    {steps steps' : (i : Fin n) → Cursor → Outcome (τ i)}
    (h : ∀ i c, (steps i c).Approximates (steps' i c)) (c : Cursor) :
    (collect n τ steps c).Approximates (collect n τ steps' c) := by
  induction n generalizing c with
  | zero => exact .refl _
  | succ n ih =>
      rw [collect_succ, collect_succ]
      apply (h 0 c).andThen
      intro a d
      exact (ih (fun i => τ i.succ) (fun i => h i.succ) d).andThen fun _ _ => .refl _

theorem approximates_firstMatch (n : Nat) {steps steps' : Fin n → Cursor → Outcome α}
    (h : ∀ i c, (steps i c).Approximates (steps' i c)) (c : Cursor) :
    (firstMatch n steps c).Approximates (firstMatch n steps' c) := by
  induction n with
  | zero => exact .refl _
  | succ n ih =>
      rw [firstMatch_succ, firstMatch_succ]
      exact (h 0 c).otherwise (ih fun i => h i.succ)

theorem repeatFrom_eq_or {step step' : Cursor → Outcome α}
    (h : ∀ c, (step c).Approximates (step' c)) (tokens : List α) (c : Cursor) :
    repeatFrom step tokens c = .error .tooDeep ∨
      repeatFrom step tokens c = repeatFrom step' tokens c := by
  fun_induction repeatFrom step tokens c with
  | case1 tokens c fault hrun =>
      rcases h c with hdeep | hsame
      · rw [hrun, Except.error.injEq] at hdeep
        exact .inl (congrArg Except.error hdeep)
      · rw [repeatFrom, ← hsame, hrun]
        exact .inr rfl
  | case2 tokens c hrun =>
      rw [repeatFrom, (h c).eq_of_ok hrun]
      exact .inr rfl
  | case3 tokens c a rest hrun hlt ih =>
      rw [repeatFrom.eq_1 step', (h c).eq_of_ok hrun]
      simpa only [if_pos hlt] using ih
  | case4 tokens c a rest hrun hlt =>
      rw [repeatFrom.eq_1 step', (h c).eq_of_ok hrun]
      simp only [if_neg hlt, or_true]

theorem approximates_repeatOutcome {step step' : Cursor → Outcome α}
    (h : ∀ c, (step c).Approximates (step' c)) (c : Cursor) :
    (repeatOutcome step c).Approximates (repeatOutcome step' c) := by
  rcases repeatFrom_eq_or h [] c with hdeep | hsame
  · rw [Outcome.Approximates, repeatOutcome, hdeep]
    exact .inl rfl
  · rw [Outcome.Approximates, repeatOutcome, repeatOutcome, hsame]
    exact .inr rfl

namespace Parser

/-! ## One combinator after the other -/

section

variable {rules : Rules R} {rules' : Rules S}

/-- Wherever the parsers start, the first one ends as the second one does, or in the
fault of nesting. -/
def RunsWithin (rules : Rules R) (rules' : Rules S) (p : Parser R α) (p' : Parser S α) : Prop :=
  ∀ c, (p.runWith rules c).Approximates (p'.runWith rules' c)

variable {p : Parser R α} {p' : Parser S α}

theorem runsWithin_of_eq (h : ∀ c, p.runWith rules c = p'.runWith rules' c) :
    RunsWithin rules rules' p p' :=
  fun c => .inr (h c)

theorem RunsWithin.map (h : RunsWithin rules rules' p p') (f : α → β) :
    RunsWithin rules rules' (map p f) (map p' f) := by
  intro c
  rw [runWith_map, runWith_map]
  exact (h c).andThen fun _ _ => .refl _

theorem RunsWithin.convert (h : RunsWithin rules rules' p p') (f : α → Except Fault β) :
    RunsWithin rules rules' (convert p f) (convert p' f) := by
  intro c
  rw [runWith_convert, runWith_convert]
  exact (h c).andThen fun _ _ => .refl _

theorem RunsWithin.bind (h : RunsWithin rules rules' p p') {f : α → Parser R β}
    {f' : α → Parser S β} (hf : ∀ a, RunsWithin rules rules' (f a) (f' a)) :
    RunsWithin rules rules' (bind p f) (bind p' f') := by
  intro c
  rw [runWith_bind, runWith_bind]
  exact (h c).andThen fun a d => hf a d

theorem RunsWithin.sequence (h : RunsWithin rules rules' p p') {q : Parser R β} {q' : Parser S β}
    (hq : RunsWithin rules rules' q q') (combine : α → β → γ) :
    RunsWithin rules rules' (sequence p q combine) (sequence p' q' combine) := by
  intro c
  rw [runWith_sequence, runWith_sequence]
  exact (h c).andThen fun _ d => (hq d).andThen fun _ _ => .refl _

theorem runsWithin_sequenceAll {n : Nat} {τ : Fin n → Type} {parts : (i : Fin n) → Parser R (τ i)}
    {parts' : (i : Fin n) → Parser S (τ i)}
    (h : ∀ i, RunsWithin rules rules' (parts i) (parts' i)) (combine : ((i : Fin n) → τ i) → β) :
    RunsWithin rules rules' (sequenceAll n τ parts combine) (sequenceAll n τ parts' combine) := by
  intro c
  rw [runWith_sequenceAll, runWith_sequenceAll]
  exact (approximates_collect n τ h c).andThen fun _ _ => .refl _

theorem RunsWithin.orElse (h : RunsWithin rules rules' p p') {q : Parser R α} {q' : Parser S α}
    (hq : RunsWithin rules rules' q q') :
    RunsWithin rules rules' (orElse p q) (orElse p' q') := by
  intro c
  rw [runWith_orElse, runWith_orElse]
  exact (h c).otherwise (hq c)

theorem runsWithin_choice {n : Nat} {alternatives : Fin n → Parser R α}
    {alternatives' : Fin n → Parser S α}
    (h : ∀ i, RunsWithin rules rules' (alternatives i) (alternatives' i)) :
    RunsWithin rules rules' (choice n alternatives) (choice n alternatives') := by
  intro c
  rw [runWith, runWith]
  exact approximates_firstMatch n h c

theorem RunsWithin.oneOrMore (h : RunsWithin rules rules' p p') :
    RunsWithin rules rules' (oneOrMore p) (oneOrMore p') := by
  intro c
  rw [runWith, runWith]
  exact approximates_repeatOutcome h c

end

/-! ## The stack changes no answer -/

section

variable {rules : Rules R} {rules' : Rules (Framed R)} {cost n : Nat}

theorem runWith_taking (below : Nat → Parser R α) (c : Cursor) :
    (taking cost n below).runWith rules c =
      if cost ≤ n then (below (n - cost)).runWith rules c else .error .tooDeep := by
  rw [taking]
  split
  · rfl
  · rw [runWith]

theorem runsWithin_taking_left {below : Nat → Parser S α} {rules' : Rules S} {p : Parser R α}
    (h : cost ≤ n → RunsWithin rules' rules (below (n - cost)) p) :
    RunsWithin rules' rules (taking cost n below) p := by
  intro c
  rw [runWith_taking]
  split
  · exact h ‹_› c
  · exact .inl rfl

theorem runsWithin_taking_right {below : Nat → Parser S α} {rules' : Rules S} {p : Parser R α}
    (hle : cost ≤ n) (h : RunsWithin rules rules' p (below (n - cost))) :
    RunsWithin rules rules' p (taking cost n below) := by
  intro c
  rw [runWith_taking, if_pos hle]
  exact h c

/-- From the start of the parser to each of its references, at least `v` frames are
taken, of which `taken` were taken before. -/
def Charges (v : Nat) : {α : Type} → Parser R α → Nat → Prop
  | _, map p _, taken => p.Charges v (taken + callFrames)
  | _, convert p _, taken => p.Charges v (taken + callFrames)
  | _, bind p f, taken =>
      p.Charges v (taken + callFrames) ∧ ∀ a, (f a).Charges v (taken + callFrames)
  | _, sequence p q _, taken =>
      p.Charges v (taken + callFrames) ∧ q.Charges v (taken + callFrames)
  | _, sequenceAll _ _ parts _, taken => ∀ i, (parts i).Charges v (taken + callFrames)
  | _, orElse p q, taken => p.Charges v (taken + callFrames) ∧ q.Charges v (taken + callFrames)
  | _, choice _ alternatives, taken => ∀ i, (alternatives i).Charges v (taken + callFrames)
  | _, oneOrMore p, taken => p.Charges v (taken + callFrames)
  | _, ref _, taken => v ≤ taken + 1
  | _, _, _ => True

theorem charges_zero (p : Parser R α) (taken : Nat) : p.Charges 0 taken := by
  induction p generalizing taken with
  | item | accept | literal | success | failure | raise | currentRow | currentCol
  | currentLocation => trivial
  | map p _ ih | convert p _ ih | oneOrMore p ih => exact ih _
  | bind p f ihp ihf => exact ⟨ihp _, fun a => ihf a _⟩
  | sequence p q _ ihp ihq | orElse p q ihp ihq => exact ⟨ihp _, ihq _⟩
  | sequenceAll _ _ parts _ ih | choice _ alternatives ih => exact fun i => ih i _
  | ref r => exact Nat.zero_le _

/-- On the stack a parser ends as it does without, if its rules do. -/
theorem onStack_runsWithin {v total : Nat}
    (hrules : ∀ {β : Type} (r : R β) (m : Nat), m + v ≤ total →
      ∀ c, (rules' ⟨r, m⟩ c).Approximates (rules r c))
    (p : Parser R α) {taken : Nat} (hcharges : p.Charges v taken) (hn : n + taken ≤ total) :
    RunsWithin rules' rules (p.onStack n) p := by
  induction p generalizing n taken with
  | item | accept | literal | success | failure | raise | currentRow | currentCol
  | currentLocation =>
      apply runsWithin_taking_left
      intro _
      exact runsWithin_of_eq fun c => by simp only [runWith]
  | map p f ih =>
      exact runsWithin_taking_left fun hle => (ih hcharges (by omega)).map f
  | convert p f ih =>
      exact runsWithin_taking_left fun hle => (ih hcharges (by omega)).convert f
  | bind p f ihp ihf =>
      exact runsWithin_taking_left fun hle =>
        (ihp hcharges.1 (by omega)).bind fun a => ihf a (hcharges.2 a) (by omega)
  | sequence p q combine ihp ihq =>
      exact runsWithin_taking_left fun hle =>
        (ihp hcharges.1 (by omega)).sequence (ihq hcharges.2 (by omega)) combine
  | sequenceAll k τ parts combine ih =>
      exact runsWithin_taking_left fun hle =>
        runsWithin_sequenceAll (fun i => ih i (hcharges i) (by omega)) combine
  | orElse p q ihp ihq =>
      exact runsWithin_taking_left fun hle =>
        (ihp hcharges.1 (by omega)).orElse (ihq hcharges.2 (by omega))
  | choice k alternatives ih =>
      exact runsWithin_taking_left fun hle =>
        runsWithin_choice fun i => ih i (hcharges i) (by omega)
  | oneOrMore p ih =>
      exact runsWithin_taking_left fun hle => (ih hcharges (by omega)).oneOrMore
  | ref r =>
      apply runsWithin_taking_left
      intro hle c
      rw [runWith, runWith]
      rw [Charges] at hcharges
      exact hrules r _ (by omega) c

/-! ## A parser that fits the stack -/

/-- On `n` frames there is room for each part of the parser, and for each of its
references there are `w` frames left. -/
def FitsIn (w : Nat) : {α : Type} → Parser R α → Nat → Prop
  | _, item, n => cursorFrames ≤ n
  | _, accept _, n => cursorFrames ≤ n
  | _, literal _, n => cursorFrames ≤ n
  | _, success _, n => callFrames ≤ n
  | _, failure, n => callFrames ≤ n
  | _, raise _, n => 1 ≤ n
  | _, map p _, n => callFrames ≤ n ∧ p.FitsIn w (n - callFrames)
  | _, convert p _, n => callFrames ≤ n ∧ p.FitsIn w (n - callFrames)
  | _, bind p f, n =>
      callFrames ≤ n ∧ p.FitsIn w (n - callFrames) ∧ ∀ a, (f a).FitsIn w (n - callFrames)
  | _, sequence p q _, n =>
      callFrames ≤ n ∧ p.FitsIn w (n - callFrames) ∧ q.FitsIn w (n - callFrames)
  | _, sequenceAll _ _ parts _, n =>
      callFrames ≤ n ∧ ∀ i, (parts i).FitsIn w (n - callFrames)
  | _, orElse p q, n => callFrames ≤ n ∧ p.FitsIn w (n - callFrames) ∧ q.FitsIn w (n - callFrames)
  | _, choice _ alternatives, n =>
      callFrames ≤ n ∧ ∀ i, (alternatives i).FitsIn w (n - callFrames)
  | _, oneOrMore p, n => callFrames ≤ n ∧ p.FitsIn w (n - callFrames)
  | _, currentRow, n => callFrames ≤ n
  | _, currentCol, n => callFrames ≤ n
  | _, currentLocation, n => cursorFrames ≤ n
  | _, ref _, n => w + 1 ≤ n

/-- More frames leave more to the references. -/
theorem FitsIn.mono {w w' n m : Nat} {p : Parser R α} (h : p.FitsIn w n) (hle : n ≤ m)
    (hrefs : n + w' ≤ m + w) : p.FitsIn w' m := by
  induction p generalizing n m with
  | item | accept | literal | success | failure | raise | currentRow | currentCol
  | currentLocation => exact Nat.le_trans h hle
  | map p f ih | convert p f ih | oneOrMore p ih =>
      obtain ⟨hn, hp⟩ := h
      exact ⟨hn.trans hle, ih hp (by omega) (by omega)⟩
  | bind p f ihp ihf =>
      obtain ⟨hn, hp, hf⟩ := h
      exact ⟨hn.trans hle, ihp hp (by omega) (by omega),
        fun a => ihf a (hf a) (by omega) (by omega)⟩
  | sequence p q combine ihp ihq | orElse p q ihp ihq =>
      obtain ⟨hn, hp, hq⟩ := h
      exact ⟨hn.trans hle, ihp hp (by omega) (by omega), ihq hq (by omega) (by omega)⟩
  | sequenceAll k τ parts combine ih | choice k alternatives ih =>
      obtain ⟨hn, hparts⟩ := h
      exact ⟨hn.trans hle, fun i => ih i (hparts i) (by omega) (by omega)⟩
  | ref r =>
      rw [FitsIn] at h ⊢
      omega

/-- Where a parser fits the stack, it ends as it does on the stack, if its rules do. -/
theorem FitsIn.runsWithin {w : Nat} {p : Parser R α} (h : p.FitsIn w n)
    (hrules : ∀ {β : Type} (r : R β) (m : Nat), w ≤ m →
      ∀ c, (rules r c).Approximates (rules' ⟨r, m⟩ c)) :
    RunsWithin rules rules' p (p.onStack n) := by
  induction p generalizing n with
  | item | accept | success | failure | raise | currentRow | currentCol
  | currentLocation =>
      apply runsWithin_taking_right h
      exact runsWithin_of_eq fun c => by simp only [runWith]
  | literal s =>
      have hle : (if s.isEmpty then callFrames else cursorFrames) ≤ n := by
        apply Nat.le_trans _ h
        split <;> decide
      apply runsWithin_taking_right hle
      exact runsWithin_of_eq fun c => by simp only [runWith]
  | map p f ih => exact runsWithin_taking_right h.1 ((ih h.2).map f)
  | convert p f ih => exact runsWithin_taking_right h.1 ((ih h.2).convert f)
  | bind p f ihp ihf =>
      exact runsWithin_taking_right h.1 ((ihp h.2.1).bind fun a => ihf a (h.2.2 a))
  | sequence p q combine ihp ihq =>
      exact runsWithin_taking_right h.1 ((ihp h.2.1).sequence (ihq h.2.2) combine)
  | sequenceAll k τ parts combine ih =>
      exact runsWithin_taking_right h.1 (runsWithin_sequenceAll (fun i => ih i (h.2 i)) combine)
  | orElse p q ihp ihq =>
      exact runsWithin_taking_right h.1 ((ihp h.2.1).orElse (ihq h.2.2))
  | choice k alternatives ih =>
      exact runsWithin_taking_right h.1 (runsWithin_choice fun i => ih i (h.2 i))
  | oneOrMore p ih => exact runsWithin_taking_right h.1 (ih h.2).oneOrMore
  | ref r =>
      rw [FitsIn] at h
      apply runsWithin_taking_right (by omega)
      intro c
      rw [runWith, runWith]
      exact hrules r _ (by omega) c

end

/-! ## Frames of the parsers that grammars start from -/

section

variable {w n m : Nat} {p : Parser R α}

theorem FitsIn.of_le (h : p.FitsIn w n) (hle : n ≤ m) : p.FitsIn w m :=
  h.mono hle (Nat.add_le_add_right hle w)

theorem FitsIn.choiceOf {alternatives : List (Parser R α)}
    (h : ∀ p ∈ alternatives, p.FitsIn w n) : (choiceOf alternatives).FitsIn w (n + 2) :=
  ⟨Nat.le_add_left 2 n, fun i => h _ (List.get_mem alternatives i)⟩

theorem FitsIn.sequenceOf {parts : List (Parser R α)} (h : ∀ p ∈ parts, p.FitsIn w n)
    (combine : List α → β) : (sequenceOf parts combine).FitsIn w (n + 2) :=
  ⟨Nat.le_add_left 2 n, fun i => h _ (List.get_mem parts i)⟩

theorem FitsIn.many (h : p.FitsIn w n) (hn : 2 ≤ n) : (many p).FitsIn w (n + 4) :=
  ⟨Nat.le_add_left 2 (n + 2), ⟨Nat.le_add_left 2 n, h⟩, hn.trans (Nat.le_add_right n 2)⟩

theorem FitsIn.withLocation (h : p.FitsIn w n) (hn : 6 ≤ n) :
    (withLocation p).FitsIn w (n + 2) :=
  ⟨Nat.le_add_left 2 n, fun
    | 0 => hn
    | 1 => h
    | 2 => hn⟩

theorem fitsIn_ref (r : R α) : (ref r).FitsIn w (w + 1) :=
  Nat.le_refl (w + 1)

theorem FitsIn.optional (h : p.FitsIn w n) (hn : 2 ≤ n) (default : α) :
    (Parser.optional p default).FitsIn w (n + 2) :=
  ⟨Nat.le_add_left 2 n, h, hn⟩

theorem fitsIn_satisfy (k : Char → Bool) : (satisfy k : Parser R Char).FitsIn w 6 :=
  Nat.le_refl 6

theorem fitsIn_space : (space : Parser R Unit).FitsIn w 12 :=
  ⟨by decide, (fitsIn_satisfy _).many (by decide)⟩

theorem FitsIn.token (h : p.FitsIn w n) (hn : 12 ≤ n) : (token p).FitsIn w (n + 4) := by
  have hspace : (space : Parser R Unit).FitsIn w n := fitsIn_space.of_le hn
  exact ⟨Nat.le_add_left 2 (n + 2), ⟨Nat.le_add_left 2 n, hspace, h⟩,
    hspace.of_le (Nat.le_add_right n 2)⟩

theorem fitsIn_symbol (s : String) : (symbol s : Parser R String).FitsIn w 16 := by
  have hliteral : (literal s : Parser R String).FitsIn w 12 := by
    rw [FitsIn]
    decide
  exact hliteral.token (Nat.le_refl 12)

theorem fitsIn_nat : (nat : Parser R Nat).FitsIn w 10 :=
  ⟨by decide, by decide, fitsIn_satisfy _⟩

theorem fitsIn_ident : (ident : Parser R String).FitsIn w 12 :=
  ⟨by decide, (fitsIn_satisfy _).of_le (by decide), (fitsIn_satisfy _).many (by decide)⟩

end

end Parser

/-! ## Grammars on the stack -/

namespace Grammar

variable {grammar : Grammar R} {v w : Nat}

/-- On the stack a rule ends as it does without. -/
theorem rule_onStack_approximates (grammar : Grammar R) (fuel n : Nat) (r : R α) (c : Cursor) :
    (rule (onStack grammar) fuel ⟨r, n⟩ c).Approximates (rule grammar fuel r c) := by
  induction fuel generalizing n α c with
  | zero => exact .inl rfl
  | succ fuel ih =>
      exact Parser.onStack_runsWithin (fun r m _ c => ih m r c) (grammar r)
        ((grammar r).charges_zero 0) (Nat.le_refl n) c

/-- If each reference takes `v` frames, the stack bounds how many of them are open. -/
theorem rule_onStack_approximates_of_charges
    (hcharges : ∀ {β : Type} (r : R β), (grammar r).Charges v 0)
    {depth fuel n : Nat} (hn : n < v * depth) (r : R α) (c : Cursor) :
    (rule (onStack grammar) fuel ⟨r, n⟩ c).Approximates (rule grammar depth r c) := by
  induction fuel generalizing depth n α c with
  | zero => exact .inl rfl
  | succ fuel ih =>
      cases depth with
      | zero => exact absurd hn (Nat.not_lt_zero n)
      | succ depth =>
          refine Parser.onStack_runsWithin (fun r m hm c => ih ?_ r c) (grammar r) (hcharges r)
            (Nat.le_refl n) c
          rw [Nat.mul_succ] at hn
          omega

/-- If each rule fits `v + w` frames and leaves `w` to its references, `v` frames for
each open reference are enough. -/
theorem rule_approximates_onStack (hfits : ∀ {β : Type} (r : R β), (grammar r).FitsIn w (v + w))
    {depth fuel n : Nat} (hfuel : depth ≤ fuel) (hn : v * depth + w ≤ n) (r : R α) (c : Cursor) :
    (rule grammar depth r c).Approximates (rule (onStack grammar) fuel ⟨r, n⟩ c) := by
  induction depth generalizing fuel n α c with
  | zero => exact .inl rfl
  | succ depth ih =>
      obtain ⟨fuel, rfl⟩ := Nat.exists_eq_add_of_lt hfuel
      rw [Nat.mul_succ] at hn
      have hrule : (grammar r).FitsIn (v * depth + w) n :=
        (hfits r).mono (by omega) (by omega)
      exact hrule.runsWithin (fun r m hm c => ih (Nat.le_add_right depth fuel) hm r c) c

/-- The stack changes no answer. -/
theorem onStack_approximates (grammar : Grammar R) (fuel n : Nat) (p : Parser R α) (c : Cursor) :
    ((p.onStack n).runWith (rule (onStack grammar) fuel) c).Approximates
      (p.runWith (rule grammar fuel) c) :=
  Parser.onStack_runsWithin (fun r m _ c => rule_onStack_approximates grammar fuel m r c) p
    (p.charges_zero 0) (Nat.le_refl n) c

theorem runOnStack_approximates (grammar : Grammar R) (p : Parser R α) (c : Cursor) :
    (runOnStack grammar p c).Approximates (grammar.run p c) :=
  onStack_approximates grammar nestingLimit stackFrames p c

theorem moves_runOnStack (grammar : Grammar R) (p : Parser R α) :
    Moves (runOnStack grammar p) :=
  Parser.moves_runWith (moves_rule (onStack grammar) nestingLimit) (p.onStack stackFrames)

end Grammar

/-- A parser without references that fits the stack runs as it does without. -/
theorem Parser.FitsIn.run_approximates {w : Nat} {p : Parser NoRule α}
    (h : p.FitsIn w stackFrames) (c : Cursor) : (p.run c).Approximates (p.runOnStack c) :=
  h.runsWithin (fun r => nomatch r) c

end ParserKit
