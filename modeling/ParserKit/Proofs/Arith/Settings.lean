import Mathlib
import ParserKit.Proofs.Arith.Agreement

/-!
# What the settings decide

Whatever evaluation comes to fits the width, and a greater width takes away
problems of width and changes nothing else.  To let unbound names stand for zero
is to bind the names of the tree to zero where they are not bound.
-/

namespace ParserKit.Arith

/-- The integers of a width in bits; the lower half of them are negative. -/
def InWidth (bits v : Int) : Prop := -2 ^ (bits.toNat - 1) ≤ v ∧ v < 2 ^ (bits.toNat - 1)

variable {bits bits' v : Int}

theorem inWidth_zero (bits : Int) : InWidth bits 0 := by
  have hpow : (0 : Int) < 2 ^ (bits.toNat - 1) := by positivity
  exact ⟨by omega, hpow⟩

theorem InWidth.mono (h : InWidth bits v) (hle : bits ≤ bits') : InWidth bits' v := by
  have hexponent : bits.toNat - 1 ≤ bits'.toNat - 1 := by omega
  have hpow : (2 : Int) ^ (bits.toNat - 1) ≤ 2 ^ (bits'.toNat - 1) :=
    pow_le_pow_right₀ (by norm_num) hexponent
  obtain ⟨hlow, hhigh⟩ := h
  exact ⟨by omega, by omega⟩

/-- A text is evaluated as the tree that is read from it.  Where none is read,
all evaluators answer alike, and with no value. -/
theorem evaluateText_cases (text : String) :
    (∃ tree, read text = .ok (some tree) ∧
      ∀ e : Evaluator, e.evaluateText text = e.evaluate tree) ∨
    ∃ answer, (∀ v, answer ≠ .ok (.value v)) ∧ ∀ e : Evaluator, e.evaluateText text = answer := by
  simp only [read, Evaluator.evaluateText]
  rcases readAt text with fault | ⟨_ | tree, stopped⟩
  · cases fault <;> exact .inr ⟨_, by simp, fun _ => rfl⟩
  · exact .inr ⟨_, by simp, fun _ => rfl⟩
  · exact .inl ⟨tree, rfl, fun _ => rfl⟩

namespace Evaluator

variable {e e' : Evaluator} {W : Stop → Prop} {V : Int → Prop} {run run' : Walk Int}

theorem checked_of_inWidth (hbits : 0 ≤ e.settings.integerBits)
    (h : InWidth e.settings.integerBits v) (span : Option Span) : e.checked v span = .ok v := by
  rw [checked_eq hbits, inRange, if_pos (.inr h)]
  rfl

theorem checked_of_unbounded (hbits : e.settings.integerBits = 0) (v : Int)
    (span : Option Span) : e.checked v span = .ok v := by
  rw [checked_eq (Int.le_of_eq hbits.symm), inRange, if_pos (.inl hbits)]
  rfl

theorem checked_of_not_inWidth (hbits : 1 ≤ e.settings.integerBits)
    (h : ¬ InWidth e.settings.integerBits v) (span : Option Span) :
    e.checked v span = .error (Problem.outOfRange v e.settings.integerBits span).stop := by
  have hzero : e.settings.integerBits ≠ 0 := by omega
  rw [InWidth] at h
  rw [checked_eq (by omega), inRange, if_neg (not_or.2 ⟨hzero, h⟩)]
  rfl

/-- Evaluators that differ in the width only find the same for a name, if they
treat values alike. -/
theorem namesAlike_of_checksAlike (hchecks : ChecksAlike W V e e') (hzero : V 0)
    (hstore : e'.store = e.store) (hpolicy : e'.settings.unbound = e.settings.unbound)
    (names : List String) : NamesAlike W V e e' names := by
  intro name _ span
  rw [nameValue, nameValue, hstore, hpolicy]
  cases e.store.value? name with
  | some v => exact hchecks v span
  | none =>
      cases e.settings.unbound with
      | zero => exact ⟨hzero, rfl⟩
      | error => exact agrees_error _

/-! ## Values -/

/-- A value that comes out of a check is of the width. -/
theorem checksAlike_self (hbits : 1 ≤ e.settings.integerBits) :
    ChecksAlike (fun _ => False) (InWidth e.settings.integerBits) e e := by
  intro v span
  by_cases h : InWidth e.settings.integerBits v
  · rw [checked_of_inWidth (by omega) h]
    exact ⟨h, rfl⟩
  · rw [checked_of_not_inWidth hbits h]
    exact agrees_error _

theorem inWidth_of_agrees (h : Agrees (fun _ => False) (InWidth bits) run run)
    (hrun : run = .ok v) : InWidth bits v := by
  rw [hrun] at h
  exact h.1

theorem inWidth_of_walk (hbits : 1 ≤ e.settings.integerBits) {depth : Nat} {node : Node}
    (h : e.walk depth node = .ok v) : InWidth e.settings.integerBits v := by
  have hchecks := checksAlike_self hbits
  have hnames := namesAlike_of_checksAlike hchecks (inWidth_zero _) rfl rfl node.names
  exact inWidth_of_agrees ((agrees_walk hchecks node hnames).1 depth) h

theorem inWidth_of_takeStep (hbits : 1 ≤ e.settings.integerBits) {depth : Nat} {reached : Int}
    {operator : Operator} {operand : Node} {span : Option Span}
    (h : e.takeStep depth reached operator operand span = .ok v) :
    InWidth e.settings.integerBits v := by
  have hchecks := checksAlike_self hbits
  have hnames := namesAlike_of_checksAlike hchecks (inWidth_zero _) rfl rfl operand.names
  have hoperand := (agrees_walk hchecks operand hnames).1 depth
  exact inWidth_of_agrees (agrees_takeStep hchecks hoperand reached operator span) h

theorem answer_eq_value (h : answer run = .ok (.value v)) : run = .ok v := by
  rcases run with (problem | _ | reason) | w
  · cases h
  · cases h
  · cases h
  · cases h
    rfl

/-- The values of trees are just the integers of the width.  A text has no other
value, and neither has any part of a tree or any step of a chain. -/
theorem evaluate_inWidth (e : Evaluator) (hbits : 1 ≤ e.settings.integerBits) :
    (∀ v, (∃ tree, e.evaluate tree = .ok (.value v)) ↔ InWidth e.settings.integerBits v) ∧
    (∀ text v, e.evaluateText text = .ok (.value v) → InWidth e.settings.integerBits v) ∧
    (∀ depth node v, e.walk depth node = .ok v → InWidth e.settings.integerBits v) ∧
    ∀ depth reached operator operand span v,
      e.takeStep depth reached operator operand span = .ok v →
        InWidth e.settings.integerBits v := by
  have htree : ∀ tree v, e.evaluate tree = .ok (.value v) → InWidth e.settings.integerBits v :=
    fun _ _ h => inWidth_of_walk hbits (answer_eq_value h)
  refine ⟨fun v => ⟨fun ⟨tree, h⟩ => htree tree v h, fun h => ?_⟩, fun text v h => ?_,
    fun _ _ _ => inWidth_of_walk hbits, fun _ _ _ _ _ _ => inWidth_of_takeStep hbits⟩
  · refine ⟨.number v none, ?_⟩
    rw [evaluate, walkLimit, walk, checked_of_inWidth (by omega) h]
    rfl
  · rcases evaluateText_cases text with ⟨tree, -, htext⟩ | ⟨answer, hvalue, htext⟩
    · rw [htext] at h
      exact htree tree v h
    · rw [htext] at h
      exact absurd h (hvalue v)

/-- The least integer of eight bits is reached, and not passed. -/
theorem evaluate_inWidth_least :
    let e : Evaluator := ⟨⟨.error, 8⟩, [("x", 3)]⟩
    1 ≤ e.settings.integerBits ∧ e.evaluateText "-125 - x" = .ok (.value (-128)) ∧
      InWidth 8 (-128) ∧ ¬ ∃ tree, e.evaluate tree = .ok (.value 128) := by
  intro e
  have hvalue : e.evaluateText "-125 - x" = .ok (.value (-128)) := by cbv
  obtain ⟨htrees, htexts, -⟩ := evaluate_inWidth e (by decide)
  refine ⟨by decide, hvalue, htexts _ _ hvalue, ?_⟩
  rw [htrees]
  exact fun h => absurd h.2 (by decide)

/-! ## Greater widths -/

/-- The evaluator with another width. -/
def withWidth (e : Evaluator) (bits : Int) : Evaluator :=
  { e with settings := { e.settings with integerBits := bits } }

/-- The stop over a value that does not fit the width. -/
def WidthStop (bits : Int) (stop : Stop) : Prop :=
  ∃ v span, stop = (Problem.outOfRange v bits span).stop

theorem answer_of_widthStop {stop : Stop} (h : WidthStop bits stop) {evaluation : Evaluation}
    (hanswer : answer (.error stop) = .ok evaluation) :
    ∃ problem, evaluation = .failed problem ∧ problem.code = "E103" := by
  obtain ⟨v, span, hstop⟩ := h
  rw [hstop, Problem.stop] at hanswer
  split at hanswer
  · cases hanswer
    exact ⟨_, rfl, rfl⟩
  · cases hanswer

theorem answer_of_agrees (h : Agrees (WidthStop bits) V run run') {evaluation : Evaluation}
    (hcode : ∀ problem, evaluation = .failed problem → problem.code ≠ "E103")
    (hanswer : answer run = .ok evaluation) : answer run' = .ok evaluation := by
  cases run with
  | error stop =>
      rcases h with hstop | rfl
      · obtain ⟨problem, hfailed, hwidth⟩ := answer_of_widthStop hstop hanswer
        exact absurd hwidth (hcode problem hfailed)
      · exact hanswer
  | ok v =>
      obtain ⟨-, rfl⟩ := h
      exact hanswer

/-- What fits a width fits a greater one. -/
theorem checksAlike_withWidth (hbits : 1 ≤ e.settings.integerBits)
    (hwider : e.settings.integerBits ≤ bits' ∨ bits' = 0) :
    ChecksAlike (WidthStop e.settings.integerBits) (fun _ => True) e (e.withWidth bits') := by
  intro v span
  by_cases h : InWidth e.settings.integerBits v
  · have hchecked : (e.withWidth bits').checked v span = .ok v := by
      rcases hwider with hle | hzero
      · have hwide : InWidth (e.withWidth bits').settings.integerBits v := h.mono hle
        have hpos : 0 ≤ bits' := by omega
        exact checked_of_inWidth hpos hwide span
      · exact checked_of_unbounded hzero v span
    rw [checked_of_inWidth (by omega) h, hchecked]
    exact ⟨trivial, rfl⟩
  · rw [checked_of_not_inWidth hbits h]
    exact .inl ⟨v, span, rfl⟩

/-- An answer in a width, other than that a value does not fit, is the answer in
every greater width and in none. -/
theorem evaluate_withWidth (e : Evaluator) (bits' : Int) (hbits : 1 ≤ e.settings.integerBits)
    (hwider : e.settings.integerBits ≤ bits' ∨ bits' = 0) (evaluation : Evaluation)
    (hcode : ∀ problem, evaluation = .failed problem → problem.code ≠ "E103") :
    (∀ tree, e.evaluate tree = .ok evaluation →
      (e.withWidth bits').evaluate tree = .ok evaluation) ∧
    ∀ text, e.evaluateText text = .ok evaluation →
      (e.withWidth bits').evaluateText text = .ok evaluation := by
  have hchecks := checksAlike_withWidth hbits hwider
  have htree : ∀ tree, e.evaluate tree = .ok evaluation →
      (e.withWidth bits').evaluate tree = .ok evaluation := by
    intro tree h
    have hnames := namesAlike_of_checksAlike hchecks trivial rfl rfl tree.names
    exact answer_of_agrees ((agrees_walk hchecks tree hnames).1 walkLimit) hcode h
  refine ⟨htree, fun text h => ?_⟩
  rcases evaluateText_cases text with ⟨tree, -, htext⟩ | ⟨answer, -, htext⟩
  · rw [htext] at h ⊢
    exact htree tree h
  · rwa [htext] at h ⊢

/-- Division by zero is reported in eight bits, in sixteen and in any number. -/
theorem evaluate_withWidth_division :
    let e : Evaluator := ⟨⟨.error, 8⟩, [("x", 100)]⟩
    1 ≤ e.settings.integerBits ∧ e.settings.integerBits ≤ 16 ∧ ∃ problem,
      e.evaluateText "x / (x - 100)" = .ok (.failed problem) ∧ problem.code = "E102" ∧
      (e.withWidth 16).evaluateText "x / (x - 100)" = .ok (.failed problem) ∧
      (e.withWidth 0).evaluateText "x / (x - 100)" = .ok (.failed problem) := by
  intro e
  have hreport : ∃ problem, problem.code = "E102" ∧
      e.evaluateText "x / (x - 100)" = .ok (.failed problem) := by
    refine ⟨?_, ?_, ?_⟩
    rotate_left 2
    · cbv
      rfl
    · rfl
  obtain ⟨problem, hcode, hproblem⟩ := hreport
  have hother : ∀ other, Evaluation.failed problem = .failed other → other.code ≠ "E103" := by
    rintro _ ⟨⟩
    simp [hcode]
  have hwide := (evaluate_withWidth e 16 (by decide) (by decide) (.failed problem) hother).2
  have hall := (evaluate_withWidth e 0 (by decide) (by decide) (.failed problem) hother).2
  exact ⟨by decide, by decide, problem, hproblem, hcode, hwide _ hproblem, hall _ hproblem⟩

/-! ## Unbound names -/

/-- For these names the second store has what the first one has, and zero where
that has nothing. -/
structure ZeroExtends (store store' : Store) (names : List String) : Prop where
  bound : ∀ name ∈ names, ∀ v, store.value? name = some v → store'.value? name = some v
  unbound : ∀ name ∈ names, store.value? name = none → store'.value? name = some 0

section Policy

variable {store store' : Store} {names : List String}

/-- Nothing but the width counts when a value is checked. -/
theorem checksAlike_policy (W : Stop → Prop) (bits : Int) (store store' : Store) :
    ChecksAlike W (fun _ => True) ⟨⟨.zero, bits⟩, store⟩ ⟨⟨.error, bits⟩, store'⟩ := by
  intro v span
  unfold checked
  dsimp only
  exact agrees_self _

/-- An unbound name that stands for zero is found as zero is. -/
theorem namesAlike_of_zeroExtends (hbits : 0 ≤ bits) (h : ZeroExtends store store' names) :
    NamesAlike (fun _ => False) (fun _ => True) ⟨⟨.zero, bits⟩, store⟩ ⟨⟨.error, bits⟩, store'⟩
      names := by
  intro name hname span
  rw [nameValue, nameValue]
  cases hvalue : store.value? name with
  | some v =>
      rw [h.bound name hname v hvalue]
      exact checksAlike_policy _ bits store store' v span
  | none =>
      have hzero : (⟨⟨.error, bits⟩, store'⟩ : Evaluator).checked 0 span = .ok 0 :=
        checked_of_inWidth hbits (inWidth_zero bits) span
      rw [h.unbound name hname hvalue]
      simp only [hzero]
      exact ⟨trivial, rfl⟩

/-- Names that are not bound and stand for zero make no difference to names that
are bound to zero, and names that are not in the tree make none at all. -/
theorem evaluate_zero_policy (bits : Int) (hbits : 0 ≤ bits) (store store' : Store) :
    (∀ tree, ZeroExtends store store' tree.names →
      evaluate ⟨⟨.zero, bits⟩, store⟩ tree = evaluate ⟨⟨.error, bits⟩, store'⟩ tree) ∧
    ∀ text, (∀ tree, read text = .ok (some tree) → ZeroExtends store store' tree.names) →
      evaluateText ⟨⟨.zero, bits⟩, store⟩ text = evaluateText ⟨⟨.error, bits⟩, store'⟩ text := by
  have hchecks := checksAlike_policy (fun _ => False) bits store store'
  have htree : ∀ tree, ZeroExtends store store' tree.names →
      evaluate ⟨⟨.zero, bits⟩, store⟩ tree = evaluate ⟨⟨.error, bits⟩, store'⟩ tree := by
    intro tree h
    have hwalk := (agrees_walk hchecks tree (namesAlike_of_zeroExtends hbits h)).1 walkLimit
    rw [evaluate, evaluate, hwalk.eq]
  refine ⟨htree, fun text h => ?_⟩
  rcases evaluateText_cases text with ⟨tree, hread, htext⟩ | ⟨answer, -, htext⟩
  · rw [htext, htext]
    exact htree tree (h tree hread)
  · rw [htext, htext]

/-- One bound name, one that is not, and others that do not stand in the tree. -/
theorem evaluate_zero_policy_difference :
    let tree : Node := .chain .expression (.identifier "x" none)
      (.step .subtract (.negate (.identifier "u" none)) .done none)
    ZeroExtends [("x", 5), ("z", 9)] [("u", 0), ("x", 5), ("y", 1)] tree.names ∧ 0 ≤ (4 : Int) ∧
      evaluate ⟨⟨.zero, 4⟩, [("x", 5), ("z", 9)]⟩ tree = .ok (.value 5) ∧
      evaluate ⟨⟨.zero, 4⟩, [("x", 5), ("z", 9)]⟩ tree =
        evaluate ⟨⟨.error, 4⟩, [("u", 0), ("x", 5), ("y", 1)]⟩ tree := by
  intro tree
  have hextends : ZeroExtends [("x", 5), ("z", 9)] [("u", 0), ("x", 5), ("y", 1)] tree.names := by
    constructor <;> decide
  have hequal := (evaluate_zero_policy 4 (by decide) _ _).1 tree hextends
  exact ⟨hextends, by decide, by cbv, hequal⟩

end Policy

end Evaluator

end ParserKit.Arith
