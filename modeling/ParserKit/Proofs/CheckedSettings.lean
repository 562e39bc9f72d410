import Mathlib
import ParserKit.Command.Run
import ParserKit.Proofs.Except

/-!
# Settings are checked

Settings are the values that the table of a configuration gives, and the defaults
for those that it does not give.  A table that gives other values is rejected,
and there are four reasons for it.  The command `eval` reports them and ends with
exit code 1, if the sections are tables and no value that is shown in a report
nests too deeply; if not, it may end without an answer.
-/

namespace ParserKit

namespace Toml.Value

mutual

/-- How many values stand inside one another in a value. -/
def levels : Value → Nat
  | array items => itemLevels items + 1
  | table entries => entryLevels entries + 1
  | _ => 1

def itemLevels : List Value → Nat
  | [] => 0
  | item :: more => max (levels item) (itemLevels more)

def entryLevels : List (String × Value) → Nat
  | [] => 0
  | (_, v) :: more => max (levels v) (entryLevels more)

end

variable {shown : Value → Except Unshown String} {depth : Nat} {v : Value}

theorem levels_pos (v : Value) : 0 < v.levels := by
  cases v <;> simp [levels]

theorem lt_itemLevels (hshown : ∀ v, shown v = .error .tooDeep → depth < v.levels)
    {items : List Value} (h : itemTexts shown items = .error .tooDeep) :
    depth < itemLevels items := by
  induction items with
  | nil => cases h
  | cons item more ih =>
      rw [itemLevels, lt_max_iff]
      exact (except_pair_eq_error h).imp (hshown item) ih

theorem lt_entryLevels (hshown : ∀ v, shown v = .error .tooDeep → depth < v.levels)
    {entries : List (String × Value)} (h : entryTexts shown entries = .error .tooDeep) :
    depth < entryLevels entries := by
  induction entries with
  | nil => cases h
  | cons entry more ih =>
      obtain ⟨key, v⟩ := entry
      rw [entryLevels, lt_max_iff]
      exact (except_pair_eq_error h).imp (hshown v) ih

/-- Nesting keeps a value from being shown only if it is deeper than is allowed. -/
theorem lt_levels_of_tooDeep (h : v.textWithin depth = .error .tooDeep) : depth < v.levels := by
  induction depth generalizing v with
  | zero => exact v.levels_pos
  | succ depth ih =>
      rw [textWithin.eq_def] at h
      cases v with
      | array items =>
          rcases except_bind_eq_error.1 h with hitems | ⟨_, -, h⟩
          · exact Nat.succ_lt_succ (lt_itemLevels (fun _ => ih) hitems)
          · cases h
      | table entries =>
          rcases except_bind_eq_error.1 h with hentries | ⟨_, -, h⟩
          · exact Nat.succ_lt_succ (lt_entryLevels (fun _ => ih) hentries)
          · cases h
      -- An integer may have too many digits, but that is another complaint.
      | integer n => cases hn : Decimal.write n <;> simp [hn, Except.mapError] at h
      | boolean | float | string | date | time | dateTime => cases h

theorem isTooDeep_eq_false (h : v.levels ≤ showingLimit) : v.isTooDeep = false := by
  rw [isTooDeep]
  split
  · rename_i htext
    exact absurd (lt_levels_of_tooDeep htext) (Nat.not_lt.2 h)
  · rfl

end Toml.Value

theorem UnboundPolicy.ofName?_eq_some_iff {name : String} {policy : UnboundPolicy} :
    ofName? name = some policy ↔ name = policy.name := by
  constructor
  · intro h
    unfold ofName? at h
    split at h <;> cases h <;> rfl
  · rintro rfl
    cases policy <;> rfl

namespace Settings

open Toml (Table Value)

/-- A section is a table, if it is there. -/
def IsSection (t : Table) (name : String) : Prop :=
  ∀ v, Table.get? t name = some v → ∃ entries, v = .table entries

/-- The value that a table gives for a key in a section. -/
def given? (t : Table) (name key : String) : Option Value :=
  match Table.get? t name with
  | some (.table entries) => Table.get? entries key
  | _ => none

/-- A setting is the given value as it is written, or the default if none is given. -/
def Chosen {α : Type} (given : Option Value) (written : α → Value) (default x : α) : Prop :=
  match given with
  | some v => v = written x
  | none => x = default

/-- A table gives these settings. -/
structure GivenBy (t : Table) (s : Settings) : Prop where
  evaluation : IsSection t "evaluation"
  unbound : Chosen (given? t "evaluation" "unbound") (fun policy => .string policy.name) .error
    s.evaluation.unbound
  integerBits : Chosen (given? t "evaluation" "integer_bits") .integer 64
    s.evaluation.integerBits
  integerBits_nonneg : 0 ≤ s.evaluation.integerBits
  output : IsSection t "output"
  color : Chosen (given? t "output" "color") .boolean true s.output.color

/-- A table gives no settings because of this problem. -/
inductive Rejects (t : Table) : Problem → Prop
  | notATable {name : String} {v : Value} (hname : name = "evaluation" ∨ name = "output")
      (hv : Table.get? t name = some v) (hkind : ∀ entries, v ≠ .table entries) :
      Rejects t (.notATable v.kind)
  | badUnbound {v : Value} (hv : given? t "evaluation" "unbound" = some v)
      (hname : ∀ policy : UnboundPolicy, v ≠ .string policy.name) : Rejects t (.badUnbound v)
  | badIntegerBits {v : Value} (hv : given? t "evaluation" "integer_bits" = some v)
      (hbits : ∀ bits, 0 ≤ bits → v ≠ .integer bits) : Rejects t .badIntegerBits
  | badColor {v : Value} (hv : given? t "output" "color" = some v)
      (hcolor : ∀ color, v ≠ .boolean color) : Rejects t (.badColor v)

/-- The problems of a table can be reported: its sections are tables, and the values that a
report shows do not nest too deeply. -/
structure Reportable (t : Table) : Prop where
  evaluation : IsSection t "evaluation"
  unbound : ∀ v, given? t "evaluation" "unbound" = some v → v.levels ≤ Value.showingLimit
  output : IsSection t "output"
  color : ∀ v, given? t "output" "color" = some v → v.levels ≤ Value.showingLimit

variable {t entries : Table} {name key : String} {v : Value} {problem : Problem}

theorem given?_of_absent (h : Table.get? t name = none) : given? t name key = none := by
  rw [given?, h]

theorem given?_of_table (h : Table.get? t name = some (.table entries)) :
    given? t name key = Table.get? entries key := by
  rw [given?, h]

theorem isSection_of_absent (h : Table.get? t name = none) : IsSection t name :=
  fun _ hv => absurd (h.symm.trans hv) nofun

theorem isSection_of_table (h : Table.get? t name = some (.table entries)) : IsSection t name :=
  fun _ hv => ⟨entries, (Option.some.inj (h.symm.trans hv)).symm⟩

theorem not_isSection (hv : Table.get? t name = some v) (h : ∀ entries, v ≠ .table entries) :
    ¬ IsSection t name := by
  intro hsection
  obtain ⟨entries, heq⟩ := hsection v hv
  exact h entries heq

theorem unboundOf_eq_ok_iff {policy : UnboundPolicy} :
    unboundOf entries = .ok policy ↔
      Chosen (Table.get? entries "unbound") (fun policy => .string policy.name) .error policy := by
  rw [unboundOf]
  split
  · rename_i hv
    simp only [hv, Chosen, Except.ok.injEq]
    exact eq_comm
  · rename_i name hv
    simp only [hv, Chosen, Value.string.injEq, ← UnboundPolicy.ofName?_eq_some_iff]
    cases UnboundPolicy.ofName? name <;> simp
  · rename_i v hstring hv
    simp only [hv, Chosen, reduceCtorEq, false_iff]
    exact hstring _

theorem rejected_unbound (h : unboundOf entries = .error problem) :
    ∃ v, Table.get? entries "unbound" = some v ∧
      (∀ policy : UnboundPolicy, v ≠ .string policy.name) ∧ problem = .badUnbound v := by
  rw [unboundOf] at h
  split at h
  · cases h
  · rename_i name hv
    split at h
    · cases h
    · rename_i hname
      cases h
      refine ⟨_, hv, fun policy heq => ?_, rfl⟩
      have hpolicy := UnboundPolicy.ofName?_eq_some_iff.2 (Value.string.inj heq)
      exact absurd (hname.symm.trans hpolicy) nofun
  · rename_i v hstring hv
    cases h
    exact ⟨v, hv, fun policy => hstring policy.name, rfl⟩

theorem integerBitsOf_eq_ok_iff {bits : Int} :
    integerBitsOf entries = .ok bits ↔
      Chosen (Table.get? entries "integer_bits") .integer 64 bits ∧ 0 ≤ bits := by
  rw [integerBitsOf]
  split
  · rename_i hv
    simp only [hv, Chosen, Except.ok.injEq]
    omega
  · rename_i given hv
    simp only [hv, Chosen, Value.integer.injEq]
    split
    · simp only [reduceCtorEq, false_iff]
      omega
    · rw [Except.ok.injEq]
      omega
  · rename_i v hinteger hv
    simp only [hv, Chosen, reduceCtorEq, false_iff]
    exact fun h => hinteger _ h.1

theorem rejected_integerBits (h : integerBitsOf entries = .error problem) :
    ∃ v, Table.get? entries "integer_bits" = some v ∧
      (∀ bits, 0 ≤ bits → v ≠ .integer bits) ∧ problem = .badIntegerBits := by
  rw [integerBitsOf] at h
  split at h
  · cases h
  · rename_i given hv
    split at h
    · rename_i hneg
      cases h
      refine ⟨_, hv, fun bits hbits heq => ?_, rfl⟩
      have hgiven := Value.integer.inj heq
      omega
    · cases h
  · rename_i v hinteger hv
    cases h
    exact ⟨v, hv, fun bits _ => hinteger bits, rfl⟩

theorem evaluationOf_eq_ok_iff {s : EvaluationSettings} :
    evaluationOf t = .ok s ↔
      IsSection t "evaluation" ∧
        Chosen (given? t "evaluation" "unbound") (fun policy => .string policy.name) .error
          s.unbound ∧
        Chosen (given? t "evaluation" "integer_bits") .integer 64 s.integerBits ∧
        0 ≤ s.integerBits := by
  obtain ⟨policy, bits⟩ := s
  rw [evaluationOf]
  split
  · rename_i habsent
    simp only [isSection_of_absent habsent, given?_of_absent habsent, Chosen, Except.ok.injEq,
      EvaluationSettings.mk.injEq, true_and]
    constructor
    · rintro ⟨rfl, rfl⟩
      exact ⟨rfl, rfl, by decide⟩
    · rintro ⟨rfl, rfl, -⟩
      exact ⟨rfl, rfl⟩
  · rename_i entries htable
    rw [given?_of_table htable, given?_of_table htable, ← unboundOf_eq_ok_iff,
      ← integerBitsOf_eq_ok_iff]
    simp only [isSection_of_table htable, true_and]
    constructor
    · intro h
      obtain ⟨_, _, hpolicy, hbits, h⟩ := except_pair_eq_ok.1 h
      cases h
      exact ⟨hpolicy, hbits⟩
    · rintro ⟨hpolicy, hbits⟩
      exact except_pair_eq_ok.2 ⟨_, _, hpolicy, hbits, rfl⟩
  · rename_i v htable hv
    simp only [reduceCtorEq, false_iff]
    exact fun h => not_isSection hv htable h.1

theorem rejects_of_evaluationOf (h : evaluationOf t = .error problem) : Rejects t problem := by
  rw [evaluationOf] at h
  split at h
  · cases h
  · rename_i entries htable
    rcases except_pair_eq_error h with h | h
    · obtain ⟨v, hv, hname, rfl⟩ := rejected_unbound h
      exact .badUnbound ((given?_of_table htable).trans hv) hname
    · obtain ⟨v, hv, hbits, rfl⟩ := rejected_integerBits h
      exact .badIntegerBits ((given?_of_table htable).trans hv) hbits
  · rename_i v htable hv
    cases h
    exact .notATable (.inl rfl) hv htable

theorem outputOf_eq_ok_iff {s : OutputSettings} :
    outputOf t = .ok s ↔
      IsSection t "output" ∧ Chosen (given? t "output" "color") .boolean true s.color := by
  obtain ⟨color⟩ := s
  rw [outputOf]
  split
  · rename_i habsent
    simp only [isSection_of_absent habsent, given?_of_absent habsent, Chosen, Except.ok.injEq,
      OutputSettings.mk.injEq, true_and]
    exact eq_comm
  · rename_i entries htable
    rw [given?_of_table htable]
    simp only [isSection_of_table htable, true_and]
    split
    · rename_i hv
      simp only [hv, Chosen, Except.ok.injEq, OutputSettings.mk.injEq]
      exact eq_comm
    · rename_i given hv
      simp [hv, Chosen]
    · rename_i v hboolean hv
      simp only [hv, Chosen, reduceCtorEq, false_iff]
      exact hboolean color
  · rename_i v htable hv
    simp only [reduceCtorEq, false_iff]
    exact fun h => not_isSection hv htable h.1

theorem rejects_of_outputOf (h : outputOf t = .error problem) : Rejects t problem := by
  rw [outputOf] at h
  split at h
  · cases h
  · rename_i entries htable
    split at h
    · cases h
    · cases h
    · rename_i v hboolean hv
      cases h
      exact .badColor ((given?_of_table htable).trans hv) hboolean
  · rename_i v htable hv
    cases h
    exact .notATable (.inr rfl) hv htable

theorem ofTable_eq_ok_iff {s : Settings} : ofTable t = .ok s ↔ s.GivenBy t := by
  have hboth : ofTable t = .ok s ↔
      evaluationOf t = .ok s.evaluation ∧ outputOf t = .ok s.output := by
    constructor
    · intro h
      obtain ⟨_, _, hevaluation, houtput, h⟩ := except_pair_eq_ok.1 h
      cases h
      exact ⟨hevaluation, houtput⟩
    · rintro ⟨hevaluation, houtput⟩
      exact except_pair_eq_ok.2 ⟨_, _, hevaluation, houtput, rfl⟩
  rw [hboth, evaluationOf_eq_ok_iff, outputOf_eq_ok_iff]
  constructor
  · rintro ⟨⟨hevaluation, hunbound, hbits, hnonneg⟩, houtput, hcolor⟩
    exact ⟨hevaluation, hunbound, hbits, hnonneg, houtput, hcolor⟩
  · rintro ⟨hevaluation, hunbound, hbits, hnonneg, houtput, hcolor⟩
    exact ⟨⟨hevaluation, hunbound, hbits, hnonneg⟩, houtput, hcolor⟩

example : ({} : Settings).GivenBy [] := ofTable_eq_ok_iff.1 rfl

theorem rejects_of_ofTable (h : ofTable t = .error problem) : Rejects t problem :=
  (except_pair_eq_error h).elim rejects_of_evaluationOf rejects_of_outputOf

theorem Rejects.isReported (h : Rejects t problem) (ht : Reportable t) :
    problem.isReported = true := by
  cases h with
  | notATable hname hv hkind =>
      rcases hname with rfl | rfl
      · exact absurd ht.evaluation (not_isSection hv hkind)
      · exact absurd ht.output (not_isSection hv hkind)
  | badUnbound hv _ => simp [Problem.isReported, Value.isTooDeep_eq_false (ht.unbound _ hv)]
  | badIntegerBits => rfl
  | badColor hv _ => simp [Problem.isReported, Value.isTooDeep_eq_false (ht.color _ hv)]

end Settings

namespace Command

open Settings (Problem Rejects Reportable)

/-- A text as it reaches the terminal. -/
def World.shown (w : World) (s : String) : String := if w.color then s else Ansi.strip s

/-- The words ask `eval` for an expression, and the configuration that is found is the one at
this path with this content. -/
def ConfiguredBy (w : World) (words : List String) (path content : String) : Prop :=
  ∃ i given, evalSpec.gather words = .ok i ∧ i.has .help = false ∧
    CommandSpec.checkArguments evalSpec.arguments i.arguments = .ok () ∧
    checkConfig w (i.last? .config) = .ok given ∧ configOf w given = .ok (some (path, content))

variable {w : World} {words : List String} {path content : String} {problem : Problem}

theorem runGroup_of_load_error (h : ConfiguredBy w words path content)
    (hload : Settings.load content = .error problem) :
    runGroup w ("eval" :: words) = settingsFailure path problem := by
  obtain ⟨i, given, hgather, hhelp, harguments, hgiven, hconfig⟩ := h
  have hgroup : runGroup w ("eval" :: words) = runCommand evalSpec (runEval w) words := rfl
  rw [hgroup, runCommand, hgather]
  simp only [hhelp, Bool.false_eq_true, if_false]
  rw [runEval, hgiven]
  simp only [harguments, hconfig, hload]

theorem shown_errorLine (w : World) (message : String) :
    w.shown ("error: " ++ message ++ "\n") = "error: " ++ w.shown message ++ "\n" := by
  rw [World.shown, World.shown]
  split
  · rfl
  · rw [Ansi.strip_line, Ansi.strip_append (by decide)]

/-- A problem that is reported ends the command with a line that says so. -/
theorem run_of_reported (h : ConfiguredBy w words path content)
    (hload : Settings.load content = .error problem) (hproblem : problem.isReported = true) :
    run w ("eval" :: words) =
      .ok ⟨1, "", "error: " ++ w.shown (problem.message path) ++ "\n"⟩ := by
  rw [run, runGroup_of_load_error h hload, settingsFailure, if_pos hproblem, ← shown_errorLine,
    World.shown]
  cases w.color
  · simp [failed, Ansi.strip_eq_self]
  · rfl

/-- A problem that cannot be reported ends the command without an answer. -/
theorem run_of_not_reported (h : ConfiguredBy w words path content)
    (hload : Settings.load content = .error problem) (hproblem : problem.isReported = false) :
    run w ("eval" :: words) = .error (.badSettings path problem) := by
  rw [run, runGroup_of_load_error h hload, settingsFailure, if_neg (by simp [hproblem])]

/-- The settings of a configuration are those that its table gives.  If there are none, the table is
rejected, and if its problems can be reported then `eval` reports the one that is found. -/
theorem settings_given_or_reported {t : Toml.Table} (hread : Toml.read content = .ok t) :
    (∀ s, Settings.load content = .ok s ↔ s.GivenBy t) ∧
    (∀ problem, Settings.load content = .error problem → Rejects t problem) ∧
    (Reportable t → (∃ s : Settings, s.GivenBy t) ∨
      ∃ problem, Settings.load content = .error problem ∧ problem.isReported = true ∧
        ∀ w words path, ConfiguredBy w words path content →
          run w ("eval" :: words) =
            .ok ⟨1, "", "error: " ++ w.shown (problem.message path) ++ "\n"⟩) := by
  have hload : Settings.load content = Settings.ofTable t := by rw [Settings.load, hread]
  refine ⟨fun s => ?_, fun problem h => ?_, fun ht => ?_⟩
  · rw [hload, Settings.ofTable_eq_ok_iff]
  · exact Settings.rejects_of_ofTable (hload.symm.trans h)
  · cases h : Settings.ofTable t with
    | ok s => exact .inl ⟨s, Settings.ofTable_eq_ok_iff.1 h⟩
    | error problem =>
        have hproblem := (Settings.rejects_of_ofTable h).isReported ht
        have herror := hload.trans h
        exact .inr ⟨problem, herror, hproblem, fun _ _ _ hw => run_of_reported hw herror hproblem⟩

/-- A list in the place of a name. -/
theorem settings_given_or_reported_list :
    ∃ content t problem w words path, Toml.read content = .ok t ∧ Reportable t ∧
      Settings.load content = .error problem ∧ ConfiguredBy w words path content ∧
      run w ("eval" :: words) = .ok ⟨1, "",
        "error: /combinator.toml: evaluation.unbound must be 'error' or 'zero', " ++
          "got ['zero', 1]\n"⟩ := by
  have hread : Toml.read "[evaluation]\nunbound = ['zero', 1]" =
      .ok [("evaluation", .table [("unbound", .array [.string "zero", .integer 1])])] := by
    cbv
  have ht : Reportable
      [("evaluation", .table [("unbound", .array [.string "zero", .integer 1])])] := by
    refine ⟨Settings.isSection_of_table rfl, fun v hv => ?_, Settings.isSection_of_absent rfl,
      fun v hv => ?_⟩
    · cases Option.some.inj hv
      decide
    · cases hv
  have hw : ConfiguredBy
      ⟨.ofList [(["combinator.toml"], .file "[evaluation]\nunbound = ['zero', 1]")], [], true⟩
      ["1"] "/combinator.toml" "[evaluation]\nunbound = ['zero', 1]" :=
    ⟨⟨[], ["1"]⟩, none, rfl, rfl, rfl, rfl, rfl⟩
  have hload : Settings.load "[evaluation]\nunbound = ['zero', 1]" =
      .error (.badUnbound (.array [.string "zero", .integer 1])) := by
    rw [Settings.load, hread]
    rfl
  have hmessage : (Problem.badUnbound (.array [.string "zero", .integer 1])).message
      "/combinator.toml" =
        "/combinator.toml: evaluation.unbound must be 'error' or 'zero', " ++
          "got ['zero', 1]" := by
    decide +kernel
  rcases (settings_given_or_reported hread).2.2 ht with ⟨s, hs⟩ | ⟨problem, hproblem, -, hrun⟩
  · cases hs.unbound
  · cases hload.symm.trans hproblem
    refine ⟨_, _, _, _, _, _, hread, ht, hload, hw, (hrun _ _ _ hw).trans ?_⟩
    rw [hmessage]
    rfl

/-- A number in the place of a section is a problem that is not reported: the command ends without
an answer. -/
theorem not_reported_number :
    Toml.read "evaluation = 1" = .ok [("evaluation", .integer 1)] ∧
      Settings.load "evaluation = 1" = .error (.notATable "int") ∧
      (Problem.notATable "int").isReported = false ∧
      run ⟨.ofList [(["combinator.toml"], .file "evaluation = 1")], [], true⟩ ["eval", "1"] =
        .error (.badSettings "/combinator.toml" (.notATable "int")) := by
  have hread : Toml.read "evaluation = 1" = .ok [("evaluation", .integer 1)] := by cbv
  have hload : Settings.load "evaluation = 1" = .error (.notATable "int") := by
    rw [Settings.load, hread]
    rfl
  have hw : ConfiguredBy ⟨.ofList [(["combinator.toml"], .file "evaluation = 1")], [], true⟩ ["1"]
      "/combinator.toml" "evaluation = 1" :=
    ⟨⟨[], ["1"]⟩, none, rfl, rfl, rfl, rfl, rfl⟩
  exact ⟨hread, hload, rfl, run_of_not_reported hw hload rfl⟩

end Command

end ParserKit
