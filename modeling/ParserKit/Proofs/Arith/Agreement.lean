import ParserKit.Proofs.Arith.Formula

/-!
# Walks that agree

One tree is walked twice, by evaluators with different settings or stores.  If
both treat single values alike, and the names of the tree as well, they come to
the same value or stop over the same problem.  Two things are left open, so that
one induction over the tree serves several results: for which stops of the first
walk nothing is asked of the second, and which values both keep to.
-/

namespace ParserKit.Arith

/-- The names that stand in a tree. -/
def Node.names : Node → List String
  | .identifier name _ => [name]
  | .number _ _ | .done | .foreign _ => []
  | .negate operand => operand.names
  | .paren body => body.names
  | .chain _ head tail => head.names ++ tail.names
  | .step _ operand rest _ => operand.names ++ rest.names

/-- The second run comes to the value of the first, which is one of `V`, or
stops as the first does, unless that is a stop of `W`. -/
def Agrees (W : Stop → Prop) (V : Int → Prop) : Walk Int → Walk Int → Prop
  | .error stop, run' => W stop ∨ run' = .error stop
  | .ok v, run' => V v ∧ run' = .ok v

variable {W : Stop → Prop} {V V' : Int → Prop} {run run' : Walk Int}

theorem agrees_error (stop : Stop) : Agrees W V (.error stop) (.error stop) := .inr rfl

/-- A run that neither evaluator has a say in. -/
theorem agrees_self (run : Walk Int) : Agrees W (fun _ => True) run run := by
  cases run with
  | error stop => exact agrees_error stop
  | ok v => exact ⟨trivial, rfl⟩

theorem Agrees.bind {next next' : Int → Walk Int} (h : Agrees W V run run')
    (hnext : ∀ v, V v → Agrees W V' (next v) (next' v)) :
    Agrees W V' (run >>= next) (run' >>= next') := by
  cases run with
  | error stop =>
      rcases h with hstop | rfl
      · exact .inl hstop
      · exact agrees_error stop
  | ok v =>
      obtain ⟨hv, rfl⟩ := h
      exact hnext v hv

/-- Runs that no stop can part are the same. -/
theorem Agrees.eq (h : Agrees (fun _ => False) V run run') : run' = run := by
  cases run with
  | error stop => exact h.resolve_left id
  | ok v => exact h.2

namespace Evaluator

variable {e e' : Evaluator}

/-- What stands for steps and is none has no operand to look into, except for a
sign. -/
theorem walkSteps_eq_noOperand (e : Evaluator) (depth : Nat) (reached : Int) {node : Node}
    (hdone : node ≠ .done)
    (hstep : ∀ operator operand rest span, node ≠ .step operator operand rest span)
    (hnegate : ∀ operand, node ≠ .negate operand) :
    e.walkSteps depth reached node = .error (.aborted (.noOperand node.kind)) := by
  rw [walkSteps]
  · exact hdone
  · exact hstep
  · exact hnegate

theorem walkSteps_negate (e : Evaluator) (depth : Nat) (reached : Int) (operand : Node) :
    e.walkSteps depth reached (.negate operand) =
      e.walk depth operand >>= fun _ => .error (.aborted (.notAnOperator "Negate")) := by
  rw [walkSteps]
  cases e.walk depth operand <;> rfl

/-- Both evaluators treat every value that has to fit a width alike. -/
abbrev ChecksAlike (W : Stop → Prop) (V : Int → Prop) (e e' : Evaluator) : Prop :=
  ∀ v span, Agrees W V (e.checked v span) (e'.checked v span)

/-- Both evaluators find the same for all of these names. -/
abbrev NamesAlike (W : Stop → Prop) (V : Int → Prop) (e e' : Evaluator) (names : List String) :
    Prop :=
  ∀ name ∈ names, ∀ span, Agrees W V (e.nameValue name span) (e'.nameValue name span)

theorem agrees_takeStep (hchecks : ChecksAlike W V e e') {depth : Nat} {operand : Node}
    (hoperand : Agrees W V (e.walk depth operand) (e'.walk depth operand)) (reached : Int)
    (operator : Operator) (span : Option Span) :
    Agrees W V (e.takeStep depth reached operator operand span)
      (e'.takeStep depth reached operator operand span) := by
  apply hoperand.bind
  intro rhs _
  apply (agrees_self (apply operator reached rhs span)).bind
  intro result _
  exact hchecks result span

/-- A walk that may not enter a node runs out of depth with either evaluator. -/
theorem agrees_walk_of_succ {node : Node}
    (h : ∀ depth, Agrees W V (e.walk (depth + 1) node) (e'.walk (depth + 1) node))
    (depth : Nat) : Agrees W V (e.walk depth node) (e'.walk depth node) := by
  cases depth with
  | zero =>
      rw [walk_zero, walk_zero]
      exact agrees_error .tooDeep
  | succ depth => exact h depth

theorem agrees_walk_negate (hchecks : ChecksAlike W V e e') {depth : Nat} {operand : Node}
    (hoperand : Agrees W V (e.walk depth operand) (e'.walk depth operand)) :
    Agrees W V (e.walk (depth + 1) (.negate operand)) (e'.walk (depth + 1) (.negate operand)) := by
  rcases number_or_forall_ne operand with ⟨v, span, rfl⟩ | hne
  · rw [walk_negate_number, walk_negate_number]
    exact hchecks (-v) span
  · rw [walk_negate e depth hne, walk_negate e' depth hne]
    apply hoperand.bind
    intro v _
    exact hchecks (-v) none

/-- What has no value of its own has none for either evaluator. -/
theorem agrees_walkSteps_of_ne {node : Node} (hdone : node ≠ .done)
    (hstep : ∀ operator operand rest span, node ≠ .step operator operand rest span)
    (hnegate : ∀ operand, node ≠ .negate operand) (depth : Nat) (reached : Int) :
    Agrees W V (e.walkSteps depth reached node) (e'.walkSteps depth reached node) := by
  rw [walkSteps_eq_noOperand e depth reached hdone hstep hnegate,
    walkSteps_eq_noOperand e' depth reached hdone hstep hnegate]
  exact agrees_error _

/-- Walks over a node agree, and so do the steps that it stands for, taken from
a value of `V`. -/
theorem agrees_walk (hchecks : ChecksAlike W V e e') (node : Node)
    (hnames : NamesAlike W V e e' node.names) :
    (∀ depth, Agrees W V (e.walk depth node) (e'.walk depth node)) ∧
      ∀ depth reached, V reached →
        Agrees W V (e.walkSteps depth reached node) (e'.walkSteps depth reached node) := by
  induction node with
  | identifier name span =>
      refine ⟨agrees_walk_of_succ fun depth => ?_, fun depth reached _ => ?_⟩
      · exact hnames name (List.mem_singleton_self name) span
      · exact agrees_walkSteps_of_ne (by simp) (by simp) (by simp) depth reached
  | number v span =>
      refine ⟨agrees_walk_of_succ fun depth => ?_, fun depth reached _ => ?_⟩
      · exact hchecks v span
      · exact agrees_walkSteps_of_ne (by simp) (by simp) (by simp) depth reached
  | negate operand ih =>
      have hoperand := (ih hnames).1
      refine ⟨agrees_walk_of_succ fun depth => ?_, fun depth reached _ => ?_⟩
      · exact agrees_walk_negate hchecks (hoperand depth)
      · rw [walkSteps_negate, walkSteps_negate]
        exact (hoperand depth).bind fun _ _ => agrees_error _
  | paren body ih =>
      refine ⟨agrees_walk_of_succ fun depth => ?_, fun depth reached _ => ?_⟩
      · exact (ih hnames).1 depth
      · exact agrees_walkSteps_of_ne (by simp) (by simp) (by simp) depth reached
  | chain level head tail ihhead ihtail =>
      obtain ⟨hhead, htail⟩ := List.forall_mem_append.1 hnames
      refine ⟨agrees_walk_of_succ fun depth => ?_, fun depth reached _ => ?_⟩
      · rw [walk_chain, walk_chain]
        exact ((ihhead hhead).1 depth).bind ((ihtail htail).2 depth)
      · exact agrees_walkSteps_of_ne (by simp) (by simp) (by simp) depth reached
  | step operator operand rest span ihoperand ihrest =>
      obtain ⟨hoperand, hrest⟩ := List.forall_mem_append.1 hnames
      refine ⟨agrees_walk_of_succ fun depth => agrees_error _, fun depth reached _ => ?_⟩
      rw [walkSteps_step, walkSteps_step]
      have hstep := agrees_takeStep hchecks ((ihoperand hoperand).1 depth) reached operator span
      exact hstep.bind ((ihrest hrest).2 depth)
  | done =>
      refine ⟨agrees_walk_of_succ fun depth => agrees_error _, fun depth reached hreached => ?_⟩
      exact ⟨hreached, rfl⟩
  | foreign kind =>
      refine ⟨agrees_walk_of_succ fun depth => agrees_error _, fun depth reached _ => ?_⟩
      exact agrees_walkSteps_of_ne (by simp) (by simp) (by simp) depth reached

end Evaluator

end ParserKit.Arith
