import Mathlib
import ParserKit.Proofs.Stack
import ParserKit.Proofs.Tokens

/-!
# Reading again on the stack

On the stack a combinator runs on its parts as it always does, unless there are too
few frames to begin with: then it ends in the fault of nesting at every cursor.  So
it is steady where the combinator is, and it starts with the same characters.  That
a part has failed to match somewhere shows that there was room for it, and that it
fails to match again wherever it may not start.
-/

namespace ParserKit

open CharClass

variable {R : Type → Type} {α β γ : Type} {k k' : Char → Bool} {F G : List Char → Prop}

/-- The step for which there is no room. -/
def noRoom : Cursor → Outcome α := fun _ => .error .tooDeep

/-- The first step is the second one, unless there is no room for it. -/
def RunsAs (step step' : Cursor → Outcome α) : Prop := step = noRoom ∨ step = step'

section

variable {step step' step'' : Cursor → Outcome α} {c d : Cursor}

theorem RunsAs.refl (step : Cursor → Outcome α) : RunsAs step step := .inr rfl

theorem RunsAs.trans (h : RunsAs step step') (h' : RunsAs step' step'') : RunsAs step step'' := by
  rcases h with rfl | rfl
  · exact .inl rfl
  · exact h'

/-- Where the step has answered there is room for it. -/
theorem RunsAs.eq_of_ok (h : RunsAs step step') {found : Option (α × Cursor)}
    (hok : step c = .ok found) : step = step' := by
  rcases h with rfl | rfl
  · cases hok
  · rfl

theorem RunsAs.ok (h : RunsAs step step') {found : Option (α × Cursor)}
    (hok : step c = .ok found) : step' c = .ok found :=
  h.eq_of_ok hok ▸ hok

/-- What the other step answers is answered here, if anything is answered anywhere. -/
theorem RunsAs.apply_eq (h : RunsAs step step') {found : Option (α × Cursor)}
    (hok : step d = .ok found) (c : Cursor) : step c = step' c :=
  congrFun (h.eq_of_ok hok) c

/-- Where there is no room for the other step there is none here. -/
theorem RunsAs.eq_noRoom (h : RunsAs step step') (h' : step' = noRoom) : step = noRoom := by
  rcases h with rfl | rfl
  · rfl
  · exact h'

theorem RunsAs.eq_tooDeep (h : RunsAs step step') (hdeep : step' c = .error .tooDeep) :
    step c = .error .tooDeep := by
  rcases h with rfl | rfl
  · rfl
  · exact hdeep

theorem RunsAs.steady (h : RunsAs step step') (hsteady : Steady F step') : Steady F step := by
  rcases h with rfl | rfl
  · intro c d a s c' rest hrun
    cases hrun
  · exact hsteady

theorem RunsAs.tight (h : RunsAs step step') (htight : Tight step') : Tight step := by
  rcases h with rfl | rfl
  · exact fun c => trivial
  · exact htight

theorem RunsAs.takes (h : RunsAs step step') (htakes : Takes step') : Takes step := by
  rcases h with rfl | rfl
  · intro c a d s hrun
    cases hrun
  · exact htakes

theorem RunsAs.total (h : RunsAs step step') (htotal : Total step') : Total step := by
  rcases h with rfl | rfl
  · exact fun c => trivial
  · exact htotal

/-- The step starts with a character of the class `k`, if there is room for it. -/
def MayStart (k : Char → Bool) (step : Cursor → Outcome α) : Prop :=
  step = noRoom ∨ StartsWith k step

theorem RunsAs.mayStart (h : RunsAs step step') (h' : MayStart k step') : MayStart k step := by
  rcases h with rfl | rfl
  · exact .inl rfl
  · exact h'

/-- Where the step has answered, it is one that starts with these characters. -/
theorem MayStart.startsWith (h : MayStart k step) {found : Option (α × Cursor)}
    (hok : step c = .ok found) : StartsWith k step := by
  rcases h with rfl | h
  · cases hok
  · exact h

theorem MayStart.takes (h : MayStart k step) : Takes step := by
  intro c a d s hrun hread
  exact (h.startsWith hrun).takes hrun hread

theorem MayStart.leads (h : MayStart k step) {a : α} {s : List Char}
    (hrun : step c = .ok (some (a, d))) (hread : c.Reads s d) : Leads k s :=
  (h.startsWith hrun).leads hrun hread

/-- Steps that start with different characters are alternatives in any order. -/
theorem MayStart.excludes {other : Cursor → Outcome α} (h : MayStart k step)
    (h' : MayStart k' other) (hapart : Apart k k') : Excludes step other := by
  intro c d a s c' rest hnone hrun hread hc'
  apply (h.startsWith hnone).eq_none
  exact (hc' ▸ (h'.leads hrun hread).append rest : Leads k' c'.remaining).not_of_apart hapart

end

namespace Parser

variable {S : Type → Type} {rules : Rules S} {p : Parser S α}

/-! ## Parts that run first

A combinator for whose first part there is no room has none either. -/

theorem noRoom_map (h : p.runWith rules = noRoom) (f : α → β) :
    (map p f).runWith rules = noRoom := by
  funext c
  rw [runWith_map, h]
  rfl

theorem noRoom_convert (h : p.runWith rules = noRoom) (f : α → Except Fault β) :
    (convert p f).runWith rules = noRoom := by
  funext c
  rw [runWith_convert, h]
  rfl

theorem noRoom_sequence (h : p.runWith rules = noRoom) (q : Parser S β) (f : α → β → γ) :
    (sequence p q f).runWith rules = noRoom := by
  funext c
  rw [runWith_sequence, h]
  rfl

theorem noRoom_oneOrMore (h : p.runWith rules = noRoom) :
    (oneOrMore p).runWith rules = noRoom := by
  funext c
  rw [runWith, repeatOutcome, repeatFrom, h]
  rfl

theorem noRoom_many (h : p.runWith rules = noRoom) : (many p).runWith rules = noRoom := by
  funext c
  rw [many, runWith_orElse, noRoom_oneOrMore h]
  rfl

theorem noRoom_withLocation (h : p.runWith rules = noRoom) :
    (withLocation p).runWith rules = noRoom := by
  funext c
  rw [runWith_withLocation, h]
  rfl

/-- Blanks are no fault, so the parser behind them has no room. -/
theorem noRoom_token (h : p.runWith rules = noRoom) : (token p).runWith rules = noRoom := by
  funext c
  apply Outcome.Meets.eq_error
  rw [token, discardRight, meets_sequence, discardLeft, meets_sequence]
  apply meets_space
  intro blanks d _ _ _
  rw [h]
  rfl

end Parser

section

variable {S : Type → Type} {rules : Rules S} {p q : Parser S α}

theorem RunsAs.map (h : RunsAs (p.runWith rules) (q.runWith rules)) (f : α → β) :
    RunsAs ((Parser.map p f).runWith rules) ((Parser.map q f).runWith rules) := by
  refine h.imp (fun h => Parser.noRoom_map h f) fun h => ?_
  funext c
  rw [Parser.runWith_map, Parser.runWith_map, h]

theorem RunsAs.convert (h : RunsAs (p.runWith rules) (q.runWith rules)) (f : α → Except Fault β) :
    RunsAs ((Parser.convert p f).runWith rules) ((Parser.convert q f).runWith rules) := by
  refine h.imp (fun h => Parser.noRoom_convert h f) fun h => ?_
  funext c
  rw [Parser.runWith_convert, Parser.runWith_convert, h]

theorem RunsAs.oneOrMore (h : RunsAs (p.runWith rules) (q.runWith rules)) :
    RunsAs ((Parser.oneOrMore p).runWith rules) ((Parser.oneOrMore q).runWith rules) := by
  refine h.imp Parser.noRoom_oneOrMore fun h => ?_
  funext c
  rw [Parser.runWith, Parser.runWith, h]

theorem RunsAs.many (h : RunsAs (p.runWith rules) (q.runWith rules)) :
    RunsAs ((Parser.many p).runWith rules) ((Parser.many q).runWith rules) := by
  refine h.imp Parser.noRoom_many fun h => ?_
  funext c
  simp only [Parser.many, Parser.runWith, h]

theorem MayStart.map (h : MayStart k (p.runWith rules)) (f : α → β) :
    MayStart k ((Parser.map p f).runWith rules) :=
  h.imp (fun h => Parser.noRoom_map h f) fun h => Parser.startsWith_map h f

theorem MayStart.withLocation (h : MayStart k (p.runWith rules)) :
    MayStart k ((Parser.withLocation p).runWith rules) :=
  h.imp Parser.noRoom_withLocation Parser.startsWith_withLocation

theorem MayStart.sequence (hrules : ∀ {δ : Type} (r : S δ), Moves (rules r))
    (h : MayStart k (p.runWith rules)) (q : Parser S β) (f : α → β → γ) :
    MayStart k ((Parser.sequence p q f).runWith rules) :=
  h.imp (fun h => Parser.noRoom_sequence h q f) fun h => Parser.startsWith_sequence hrules h

theorem MayStart.token (hrules : ∀ {δ : Type} (r : S δ), Moves (rules r))
    (h : MayStart k (p.runWith rules)) : MayStart k ((Parser.token p).runWith rules) :=
  h.imp Parser.noRoom_token fun h => Parser.startsWith_token hrules h

end

namespace Parser

variable {rules : Rules (Framed R)} {p : Parser R α} {n : Nat}

/-! ## One combinator at a time -/

theorem taking_of_le {S : Type → Type} {cost : Nat} {below : Nat → Parser S α} (h : cost ≤ n) :
    taking cost n below = below (n - cost) :=
  if_pos h

theorem runsAs_taking {S : Type → Type} {rules : Rules S} (cost n : Nat)
    (below : Nat → Parser S α) :
    RunsAs ((taking cost n below).runWith rules) ((below (n - cost)).runWith rules) := by
  rw [taking]
  split
  · exact .inr rfl
  · left
    funext c
    rw [runWith, noRoom]

theorem runsAs_satisfy (k : Char → Bool) (n : Nat) :
    RunsAs (((satisfy k : Parser R Char).onStack n).runWith rules)
      ((satisfy k : Parser (Framed R) Char).runWith rules) :=
  runsAs_taking ..

theorem runsAs_literal (s : String) (n : Nat) :
    RunsAs (((literal s : Parser R String).onStack n).runWith rules)
      ((literal s : Parser (Framed R) String).runWith rules) :=
  runsAs_taking ..

theorem runsAs_map (p : Parser R α) (f : α → β) (n : Nat) :
    RunsAs (((map p f).onStack n).runWith rules)
      ((map (p.onStack (n - callFrames)) f).runWith rules) :=
  runsAs_taking ..

theorem runsAs_sequence (p : Parser R α) (q : Parser R β) (f : α → β → γ) (n : Nat) :
    RunsAs (((sequence p q f).onStack n).runWith rules)
      ((sequence (p.onStack (n - callFrames)) (q.onStack (n - callFrames)) f).runWith rules) :=
  runsAs_taking ..

theorem runsAs_orElse (p q : Parser R α) (n : Nat) :
    RunsAs (((orElse p q).onStack n).runWith rules)
      ((orElse (p.onStack (n - callFrames)) (q.onStack (n - callFrames))).runWith rules) :=
  runsAs_taking ..

theorem runsAs_ref (r : R α) (n : Nat) :
    RunsAs (((ref r).onStack n).runWith rules) (rules ⟨r, n - 1⟩) := by
  have href : RunsAs (((ref r).onStack n).runWith rules)
      ((ref (⟨r, n - 1⟩ : Framed R α)).runWith rules) :=
    runsAs_taking ..
  refine href.trans (.inr ?_)
  funext c
  rw [runWith]

theorem runWith_choice_get {S : Type → Type} {rules : Rules S} (alternatives : List (Parser R α))
    (g : Parser R α → Parser S α) (c : Cursor) :
    (choice alternatives.length fun i => g (alternatives.get i)).runWith rules c =
      (choiceOf (alternatives.map g)).runWith rules c := by
  induction alternatives with
  | nil =>
      rw [List.map_nil, runWith_choiceOf_nil, runWith]
      rfl
  | cons p more ih =>
      rw [List.map_cons, runWith_choiceOf_cons, runWith_orElse, ← ih, runWith, runWith]
      exact firstMatch_succ more.length _ c

theorem runsAs_choiceOf (alternatives : List (Parser R α)) (n : Nat) :
    RunsAs (((choiceOf alternatives).onStack n).runWith rules)
      ((choiceOf (alternatives.map fun p => p.onStack (n - callFrames))).runWith rules) := by
  have hchoice : RunsAs (((choiceOf alternatives).onStack n).runWith rules)
      ((choice alternatives.length fun i =>
        (alternatives.get i).onStack (n - callFrames)).runWith rules) :=
    runsAs_taking ..
  refine hchoice.trans (.inr ?_)
  funext c
  exact runWith_choice_get alternatives (fun p => p.onStack (n - callFrames)) c

/-- There is room for a success without characters where there is room for a combinator. -/
theorem runsAs_orElse_success {S : Type → Type} {rules : Rules S} (n : Nat)
    (below : Nat → Parser S α) (a : α) :
    RunsAs ((orElse (taking callFrames n below)
      (taking callFrames n fun _ => success a)).runWith rules)
      ((orElse (below (n - callFrames)) (success a)).runWith rules) := by
  by_cases hn : callFrames ≤ n
  · rw [taking_of_le hn, taking_of_le hn]
    exact .refl _
  · left
    funext c
    rw [runWith_orElse, runWith_taking, if_neg hn]
    rfl

theorem runsAs_many (p : Parser R α) (n : Nat) :
    RunsAs (((many p).onStack n).runWith rules)
      ((many (p.onStack (n - callFrames - callFrames))).runWith rules) :=
  (runsAs_orElse (oneOrMore p) (success []) n).trans (runsAs_orElse_success ..)

theorem runsAs_optional_map (p : Parser R α) (f : α → β) (default : β) (n : Nat) :
    RunsAs (((Parser.optional (map p f) default).onStack n).runWith rules)
      ((Parser.optional (map (p.onStack (n - callFrames - callFrames)) f) default).runWith
        rules) :=
  (runsAs_orElse (map p f) (success default) n).trans (runsAs_orElse_success ..)

/-! ## Tokens -/

theorem noRoom_onStack_satisfy (k : Char → Bool) (hn : n < cursorFrames) :
    ((satisfy k : Parser R Char).onStack n).runWith rules = noRoom := by
  funext c
  have hless : ¬ cursorFrames ≤ n := Nat.not_le.2 hn
  exact (runWith_taking _ c).trans (if_neg hless)

/-- Blanks take twelve frames. -/
theorem onStack_space (hn : 12 ≤ n) : (space : Parser R Unit).onStack n = space := by
  simp only [space, void, many, ofClass, satisfy, onStack, callFrames, cursorFrames]
  rw [taking_of_le (by omega), taking_of_le (by omega), taking_of_le (by omega),
    taking_of_le (by omega), taking_of_le (by omega)]

theorem noRoom_onStack_space (hn : n < 12) :
    ((space : Parser R Unit).onStack n).runWith rules = noRoom := by
  apply (runsAs_map (many (ofClass .space)) _ n).eq_noRoom
  apply noRoom_map
  apply (runsAs_many (ofClass .space) _).eq_noRoom
  apply noRoom_many
  apply noRoom_onStack_satisfy
  simp only [callFrames, cursorFrames]
  omega

theorem runsAs_space (n : Nat) :
    RunsAs (((space : Parser R Unit).onStack n).runWith rules)
      ((space : Parser (Framed R) Unit).runWith rules) := by
  by_cases hn : 12 ≤ n
  · rw [onStack_space hn]
    exact .refl _
  · exact .inl (noRoom_onStack_space (by omega))

theorem runsAs_token (p : Parser R α) (n : Nat) :
    RunsAs (((token p).onStack n).runWith rules)
      ((token (p.onStack (n - callFrames - callFrames))).runWith rules) := by
  refine (runsAs_sequence (discardLeft space p) space _ n).trans ?_
  by_cases hn : 16 ≤ n
  · have hfront : (discardLeft space p).onStack (n - callFrames) =
        discardLeft space (p.onStack (n - callFrames - callFrames)) := by
      rw [discardLeft, onStack, taking_of_le (by simp only [callFrames]; omega),
        onStack_space (by simp only [callFrames]; omega)]
      rfl
    rw [hfront, onStack_space (by simp only [callFrames]; omega)]
    exact .refl _
  · left
    apply noRoom_sequence
    apply (runsAs_sequence space p _ _).eq_noRoom
    apply noRoom_sequence
    apply noRoom_onStack_space
    simp only [callFrames]
    omega

theorem tight_token_onStack (p : Parser R α) (n : Nat) :
    Tight (((token p).onStack n).runWith rules) :=
  (runsAs_token p n).tight (tight_token _)

theorem runsAs_withLocation (p : Parser R α) (n : Nat) :
    RunsAs (((withLocation p).onStack n).runWith rules)
      ((withLocation (p.onStack (n - callFrames))).runWith rules) := by
  refine RunsAs.trans (runsAs_taking callFrames n fun m => sequenceAll 3 (LocatedParts α) _ _) ?_
  by_cases hn : cursorFrames ≤ n - callFrames
  · right
    rw [withLocation]
    congr 2
    funext i
    exact i.cases (taking_of_le hn)
      (Fin.cases rfl (Fin.cases (taking_of_le hn) fun j => j.elim0))
  · left
    funext c
    rw [runWith_sequenceAll, collect_succ]
    have hfirst : ((currentLocation : Parser R Location).onStack (n - callFrames)).runWith
        rules c = .error .tooDeep :=
      (runWith_taking _ c).trans (if_neg hn)
    exact congrArg (fun o => (Outcome.andThen (Outcome.andThen o _) _)) hfirst

theorem runsAs_nat (n : Nat) :
    RunsAs (((nat : Parser R Nat).onStack n).runWith rules)
      ((nat : Parser (Framed R) Nat).runWith rules) := by
  have hdigits : RunsAs (((oneOrMore digit : Parser R (List Char)).onStack
      (n - callFrames)).runWith rules) ((oneOrMore digit : Parser (Framed R) _).runWith rules) :=
    (runsAs_taking ..).trans (RunsAs.oneOrMore (runsAs_satisfy ..))
  exact (runsAs_taking ..).trans (hdigits.convert natOfDigits)

section Moving

variable (hrules : ∀ {δ : Type} (r : Framed R δ), Moves (rules r))

include hrules

theorem mayStart_symbol {ch : Char} (hspace : isSpace ch = false) (n : Nat) :
    MayStart (· == ch)
      (((symbol (String.singleton ch) : Parser R String).onStack n).runWith rules) := by
  apply (runsAs_token ..).mayStart
  apply MayStart.token hrules
  exact (runsAs_literal ..).mayStart (.inr (startsWith_literal (String.toList_singleton ch) hspace))

theorem mayStart_ident (n : Nat) :
    MayStart isLetter (((ident : Parser R String).onStack n).runWith rules) := by
  apply (runsAs_sequence ..).mayStart
  apply MayStart.sequence hrules
  apply (runsAs_satisfy ..).mayStart
  refine .inr (startsWith_satisfy fun ch hletter => ?_)
  exact isSpace_eq_false_of_isAlphanum (by simp [isAlphanum, hletter])

/-- A token that a blank ends. -/
theorem steady_token_onStack (hp : ∀ m, Steady F ((p.onStack m).runWith rules))
    (htakes : ∀ m, Takes ((p.onStack m).runWith rules))
    (hblank : ∀ ch rest, isSpace ch = true → F (ch :: rest)) (n : Nat) :
    Steady (fun rest => Stops isSpace rest ∧ F rest) (((token p).onStack n).runWith rules) :=
  (runsAs_token ..).steady (steady_token hrules (hp _) (htakes _) hblank)

theorem steady_symbol_onStack {ch : Char} (hspace : isSpace ch = false) (n : Nat) :
    Steady (Stops isSpace)
      (((symbol (String.singleton ch) : Parser R String).onStack n).runWith rules) := by
  have hword : StartsWith (· == ch)
      ((literal (String.singleton ch) : Parser (Framed R) String).runWith rules) :=
    startsWith_literal (String.toList_singleton ch) hspace
  have htoken := steady_token_onStack (F := fun _ => True) (p := literal (String.singleton ch))
    hrules (fun m => (runsAs_literal _ m).steady (steady_literal _))
    (fun m => (runsAs_literal _ m).takes hword.takes) (fun _ _ _ => trivial) n
  exact htoken.mono fun rest hrest => ⟨hrest, trivial⟩

theorem steady_ident_onStack (n : Nat) :
    Steady (Stops isAlphanum) (((ident : Parser R String).onStack n).runWith rules) := by
  have hmore : ∀ m, Steady (Stops isAlphanum)
      (((many alphanum : Parser R (List Char)).onStack m).runWith rules) := fun m =>
    ((runsAs_many _ m).trans (runsAs_satisfy _ _).many).steady (steady_many_satisfy hrules _)
  apply (runsAs_sequence ..).steady
  apply steady_sequence hrules ((runsAs_satisfy ..).steady
    (steady_satisfy (F := fun _ => True) isLetter)) (hmore _)
  intros
  exact .inl trivial

end Moving

end Parser

end ParserKit
