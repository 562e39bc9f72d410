import ParserKit.Proofs.Arith.Formula

/-!
# What stops a walk

A walk takes a node for its value, or for the steps that it stands for in a
chain.  If it stops early, one of the nodes it came to says why: the node has no
meaning in its place, or it stands too deep, or an operation on integers that it
asks for has no result.
-/

namespace ParserKit.Arith

/-- What a walk takes a node for. -/
inductive Place
  | value
  | steps
  deriving DecidableEq

/-- The nodes that have a meaning in a place. -/
def Place.Takes : Place → Node → Prop
  | value, .step _ _ _ _ | value, .done | value, .foreign _ => False
  | value, _ => True
  | steps, .step _ _ _ _ | steps, .done => True
  | steps, _ => False

/-- A node with its place and with the number of levels of nodes above it. -/
structure Standing where
  place : Place
  level : Nat
  node : Node

namespace Node

/-- How a node and the nodes below it stand.  The steps of a chain stand side by
side. -/
def standing (place : Place) (level : Nat) : Node → List Standing
  | identifier name span => [⟨place, level, identifier name span⟩]
  | number value span => [⟨place, level, number value span⟩]
  | negate operand => ⟨place, level, negate operand⟩ :: operand.standing .value (level + 1)
  | paren body => ⟨place, level, paren body⟩ :: body.standing .value (level + 1)
  | chain l head tail =>
      ⟨place, level, chain l head tail⟩ ::
        (head.standing .value (level + 1) ++ tail.standing .steps (level + 1))
  | step op operand rest span =>
      ⟨place, level, step op operand rest span⟩ ::
        (operand.standing .value level ++ rest.standing .steps level)
  | done => [⟨place, level, done⟩]
  | foreign kind => [⟨place, level, foreign kind⟩]

/-- The span that an operation on behalf of a node is reported with. -/
def span? : Node → Option Span
  | identifier _ span | number _ span | step _ _ _ span => span
  | negate _ | paren _ | chain _ _ _ | done | foreign _ => none

variable {place : Place} {level : Nat}

theorem mem_standing_self (node : Node) : ⟨place, level, node⟩ ∈ node.standing place level := by
  cases node <;> simp [standing]

/-- A node that has a value stands less deep than the nesting of the tree. -/
theorem level_lt_of_mem_standing {node : Node} {s : Standing}
    (hs : s ∈ node.standing place level) (hplace : s.place = .value)
    (htakes : s.place.Takes s.node) : s.level < level + node.nesting := by
  induction node generalizing place level with
  | identifier | number =>
      obtain rfl : s = _ := List.mem_singleton.1 hs
      exact Nat.lt_succ_self level
  | negate operand ih | paren body ih =>
      rw [nesting]
      rcases List.mem_cons.1 hs with rfl | hs
      · exact Nat.lt_add_of_pos_right (Nat.succ_pos _)
      · have hlt := ih hs
        omega
  | chain l head tail ihhead ihtail =>
      rw [nesting]
      rcases List.mem_cons.1 hs with rfl | hs
      · exact Nat.lt_add_of_pos_right (Nat.succ_pos _)
      · rcases List.mem_append.1 hs with hs | hs
        · have hlt := ihhead hs
          omega
        · have hlt := ihtail hs
          omega
  | step op operand rest span ihoperand ihrest =>
      rw [nesting]
      rcases List.mem_cons.1 hs with rfl | hs
      · cases place with
        | value => exact htakes.elim
        | steps => cases hplace
      · rcases List.mem_append.1 hs with hs | hs
        · have hlt := ihoperand hs
          omega
        · have hlt := ihrest hs
          omega
  | done | foreign =>
      obtain rfl : s = _ := List.mem_singleton.1 hs
      cases place with
      | value => exact htakes.elim
      | steps => cases hplace

end Node

/-- A walk came to a node that has no meaning in its place. -/
def Abort.IsMisplaced : Abort → Prop
  | notEvaluable _ | notAnOperator _ | noOperand _ => True
  | unreadable _ | tooManyDigits | negativeWidth => False

namespace Evaluator

variable (e : Evaluator) {depth limit level : Nat} {reached : Int} {place : Place}
variable {span : Option Span} {stop : Stop}

/-- The walk over a node in a place; a walk for steps starts from a value. -/
def walkAt (depth : Nat) (reached : Int) : Place → Node → Walk Int
  | .value, node => e.walk depth node
  | .steps, node => e.walkSteps depth reached node

/-- The codes of the problems that operations on integers are reported with. -/
def walkCodes : List String := ["E101", "E102", "E103", "E104"]

/-- What stops an operation on behalf of a node with the span. -/
inductive OperationStop (span : Option Span) : Stop → Prop
  | reported {problem : Diagnostic} (hcode : problem.code ∈ walkCodes)
      (hlabels : problem.labels.map (·.span) = span.toList) :
      OperationStop span (.reported problem)
  | tooManyDigits : OperationStop span (.aborted .tooManyDigits)
  | negativeWidth : OperationStop span (.aborted .negativeWidth)

/-- Why a walk stops at a node, if nodes at the level `limit` are too deep. -/
inductive StopsAt (limit : Nat) (s : Standing) : Stop → Prop
  | misplaced {reason : Abort} (hplace : ¬ s.place.Takes s.node) (hreason : reason.IsMisplaced) :
      StopsAt limit s (.aborted reason)
  | tooDeep (hplace : s.place = .value) (hlevel : limit ≤ s.level) : StopsAt limit s .tooDeep
  | operation {stop : Stop} (hstop : OperationStop s.node.span? stop) : StopsAt limit s stop

/-- One of the nodes says why a walk stops. -/
def StopsAmong (limit : Nat) (nodes : List Standing) (stop : Stop) : Prop :=
  ∃ s ∈ nodes, StopsAt limit s stop

section

variable {s : Standing} {nodes others : List Standing}

theorem StopsAmong.of_mem (hs : s ∈ nodes) (h : StopsAt limit s stop) :
    StopsAmong limit nodes stop :=
  ⟨s, hs, h⟩

theorem StopsAmong.cons (h : StopsAmong limit nodes stop) : StopsAmong limit (s :: nodes) stop := by
  obtain ⟨s', hs', hstops⟩ := h
  exact .of_mem (List.mem_cons_of_mem s hs') hstops

theorem StopsAmong.append_left (h : StopsAmong limit nodes stop) :
    StopsAmong limit (nodes ++ others) stop := by
  obtain ⟨s', hs', hstops⟩ := h
  exact .of_mem (List.mem_append_left others hs') hstops

theorem StopsAmong.append_right (h : StopsAmong limit nodes stop) :
    StopsAmong limit (others ++ nodes) stop := by
  obtain ⟨s', hs', hstops⟩ := h
  exact .of_mem (List.mem_append_right others hs') hstops

end

/-! ## Operations -/

theorem operationStop_report {α : Type} {code message label : String} (hcode : code ∈ walkCodes)
    (h : (report code message span label : Walk α) = .error stop) : OperationStop span stop := by
  cases h
  refine .reported hcode ?_
  cases span <;> rfl

theorem operationStop_writeInt {v : Int} (h : writeInt v = .error stop) :
    OperationStop span stop := by
  rw [writeInt_eq] at h
  split at h
  · cases h
  · cases h
    exact .tooManyDigits

theorem operationStop_checked {v : Int} (h : e.checked v span = .error stop) :
    OperationStop span stop := by
  unfold checked at h
  dsimp only at h
  split at h
  · cases h
  · split at h
    · cases h
      exact .negativeWidth
    · split at h
      · cases h
      · split at h
        · rename_i hwritten
          cases h
          exact operationStop_writeInt hwritten
        · exact operationStop_report (by simp [walkCodes]) h

theorem operationStop_nameValue {name : String} (h : e.nameValue name span = .error stop) :
    OperationStop span stop := by
  rw [nameValue] at h
  split at h
  · exact e.operationStop_checked h
  · split at h
    · cases h
    · exact operationStop_report (by simp [walkCodes]) h

theorem operationStop_power {base exponent : Int} (h : power base exponent span = .error stop) :
    OperationStop span stop := by
  unfold power at h
  split at h
  · cases h
  · exact operationStop_report (by simp [walkCodes]) h
  · rcases except_bind_eq_error.1 h with hbase | ⟨baseText, -, h⟩
    · exact operationStop_writeInt hbase
    · rcases except_bind_eq_error.1 h with hexponent | ⟨exponentText, -, h⟩
      · exact operationStop_writeInt hexponent
      · exact operationStop_report (by simp [walkCodes]) h

theorem operationStop_apply {operator : Operator} {lhs rhs : Int}
    (h : apply operator lhs rhs span = .error stop) : OperationStop span stop := by
  cases operator with
  | add | subtract | multiply => cases h
  | divide =>
      rw [apply] at h
      split at h
      · cases h
      · exact operationStop_report (by simp [walkCodes]) h
  | power => exact operationStop_power h

/-! ## The walk -/

/-- Where a node with a value stands, only its depth or its own part of the walk
can stop the walk. -/
theorem stopsAmong_of_walk {node : Node} (hlimit : limit ≤ level + depth)
    (h : e.walk depth node = .error stop)
    (hsucc : ∀ depth', limit ≤ level + 1 + depth' → e.walk (depth' + 1) node = .error stop →
      StopsAmong limit (node.standing .value level) stop) :
    StopsAmong limit (node.standing .value level) stop := by
  cases depth with
  | zero =>
      rw [walk_zero] at h
      cases h
      exact .of_mem node.mem_standing_self (.tooDeep rfl hlimit)
  | succ depth => exact hsucc depth (by omega) h

/-- A node that is taken for steps and has no operand stops the walk. -/
theorem stopsAmong_of_noOperand {node : Node} (htakes : ¬ Place.steps.Takes node)
    (hwalk : ∀ depth' reached',
      e.walkSteps depth' reached' node = .error (.aborted (.noOperand node.kind)))
    (h : e.walkAt depth reached .steps node = .error stop) :
    StopsAmong limit (node.standing .steps level) stop := by
  rw [walkAt, hwalk] at h
  cases h
  exact .of_mem node.mem_standing_self (.misplaced htakes trivial)

/-- A node that is taken for a value and has none stops the walk. -/
theorem stopsAmong_of_notEvaluable {node : Node} (htakes : ¬ Place.value.Takes node)
    (hwalk : ∀ depth', e.walk (depth' + 1) node = .error (.aborted (.notEvaluable node.kind)))
    (hlimit : limit ≤ level + depth) (h : e.walk depth node = .error stop) :
    StopsAmong limit (node.standing .value level) stop := by
  apply e.stopsAmong_of_walk hlimit h
  intro depth' _ h
  rw [hwalk] at h
  cases h
  exact .of_mem node.mem_standing_self (.misplaced htakes trivial)

/-- One of the nodes that a walk comes to says why the walk stops. -/
theorem stopsAmong_standing (node : Node) (hlimit : limit ≤ level + depth)
    (h : e.walkAt depth reached place node = .error stop) :
    StopsAmong limit (node.standing place level) stop := by
  induction node generalizing place level depth reached with
  | identifier name span =>
      cases place with
      | value =>
          apply e.stopsAmong_of_walk hlimit h
          intro depth' _ h
          have hstop : OperationStop span stop := e.operationStop_nameValue h
          exact .of_mem (Node.mem_standing_self _) (.operation hstop)
      | steps => exact e.stopsAmong_of_noOperand id (fun _ _ => rfl) h
  | number v span =>
      cases place with
      | value =>
          apply e.stopsAmong_of_walk hlimit h
          intro depth' _ h
          have hstop : OperationStop span stop := e.operationStop_checked h
          exact .of_mem (Node.mem_standing_self _) (.operation hstop)
      | steps => exact e.stopsAmong_of_noOperand id (fun _ _ => rfl) h
  | negate operand ih =>
      have hbelow : ∀ {depth'}, limit ≤ level + 1 + depth' →
          e.walk depth' operand = .error stop →
            StopsAmong limit ((Node.negate operand).standing place level) stop := by
        intro depth' hlimit h
        have hoperand : e.walkAt depth' 0 .value operand = .error stop := h
        exact (ih hlimit hoperand).cons
      cases place with
      | value =>
          apply e.stopsAmong_of_walk hlimit h
          intro depth' hlimit h
          rcases number_or_forall_ne operand with ⟨v, span, rfl⟩ | hne
          · -- The literal is checked behind the sign, under its own span.
            rw [walk_negate_number] at h
            have hstop : OperationStop span stop := e.operationStop_checked h
            have hliteral : StopsAmong limit
                ((Node.number v span).standing .value (level + 1)) stop :=
              .of_mem (Node.mem_standing_self _) (.operation hstop)
            exact hliteral.cons
          · rw [walk_negate e depth' hne] at h
            rcases except_bind_eq_error.1 h with h | ⟨v, -, h⟩
            · exact hbelow hlimit h
            · have hstop : OperationStop none stop := e.operationStop_checked h
              exact .of_mem (Node.mem_standing_self _) (.operation hstop)
      | steps =>
          rw [walkAt, walkSteps] at h
          split at h
          · rename_i hoperand
            cases h
            exact hbelow (by omega) hoperand
          · cases h
            exact .of_mem (Node.mem_standing_self _) (.misplaced id trivial)
  | paren body ih =>
      cases place with
      | value =>
          apply e.stopsAmong_of_walk hlimit h
          intro depth' hlimit h
          have hbody : e.walkAt depth' 0 .value body = .error stop := h
          exact (ih hlimit hbody).cons
      | steps => exact e.stopsAmong_of_noOperand id (fun _ _ => rfl) h
  | chain l head tail ihhead ihtail =>
      cases place with
      | value =>
          apply e.stopsAmong_of_walk hlimit h
          intro depth' hlimit h
          rw [walk_chain] at h
          rcases except_bind_eq_error.1 h with (hhead : e.walkAt depth' 0 .value head = _) |
            ⟨v, -, (htail : e.walkAt depth' v .steps tail = _)⟩
          · exact (ihhead hlimit hhead).append_left.cons
          · exact (ihtail hlimit htail).append_right.cons
      | steps => exact e.stopsAmong_of_noOperand id (fun _ _ => rfl) h
  | step operator operand rest span ihoperand ihrest =>
      cases place with
      | value => exact e.stopsAmong_of_notEvaluable id (fun _ => rfl) hlimit h
      | steps =>
          rw [walkAt, walkSteps_step] at h
          rcases except_bind_eq_error.1 h with hstep |
            ⟨next, -, (hrest : e.walkAt depth next .steps rest = _)⟩
          · rcases except_bind_eq_error.1 hstep with
              (hoperand : e.walkAt depth 0 .value operand = _) | ⟨rhs, -, hstep⟩
            · exact (ihoperand hlimit hoperand).append_left.cons
            · have hstop : OperationStop span stop := by
                rcases except_bind_eq_error.1 hstep with happly | ⟨result, -, hchecked⟩
                · exact operationStop_apply happly
                · exact e.operationStop_checked hchecked
              exact .of_mem (Node.mem_standing_self _) (.operation hstop)
          · exact (ihrest hlimit hrest).append_right.cons
  | done =>
      cases place with
      | value => exact e.stopsAmong_of_notEvaluable id (fun _ => rfl) hlimit h
      | steps =>
          rw [walkAt, walkSteps] at h
          cases h
  | foreign kind =>
      cases place with
      | value => exact e.stopsAmong_of_notEvaluable id (fun _ => rfl) hlimit h
      | steps => exact e.stopsAmong_of_noOperand id (fun _ _ => rfl) h

/-- A problem of evaluation belongs to a node of the tree. -/
theorem exists_standing_of_evaluate {tree : Node} {problem : Diagnostic}
    (h : e.evaluate tree = .ok (.failed problem)) :
    ∃ s ∈ tree.standing .value 0,
      problem.code ∈ walkCodes ∧ problem.labels.map (·.span) = s.node.span?.toList ∨
      problem = tooDeepProblem ∧ s.place = .value ∧ walkLimit ≤ s.level := by
  rw [evaluate] at h
  cases hwalk : e.walk walkLimit tree with
  | ok v => simp [hwalk, answer] at h
  | error stop =>
      rw [hwalk] at h
      have hstop : e.walkAt walkLimit 0 .value tree = .error stop := hwalk
      obtain ⟨s, hs, hstops⟩ := e.stopsAmong_standing tree (Nat.zero_add walkLimit).ge hstop
      refine ⟨s, hs, ?_⟩
      cases hstops with
      | misplaced => cases h
      | tooDeep hplace hlevel =>
          obtain rfl : tooDeepProblem = problem := by simpa [answer] using h
          exact .inr ⟨rfl, hplace, hlevel⟩
      | operation hstop =>
          cases hstop with
          | reported hcode hlabels =>
              obtain rfl : _ = problem := by simpa [answer] using h
              exact .inl ⟨hcode, hlabels⟩
          | tooManyDigits | negativeWidth => cases h

theorem code_of_evaluate {tree : Node} {problem : Diagnostic}
    (h : e.evaluate tree = .ok (.failed problem)) :
    problem.code ∈ walkCodes ∨ problem.code = "E105" := by
  obtain ⟨s, -, ⟨hcode, -⟩ | ⟨rfl, -⟩⟩ := e.exists_standing_of_evaluate h
  · exact .inl hcode
  · exact .inr rfl

end Evaluator

end ParserKit.Arith
