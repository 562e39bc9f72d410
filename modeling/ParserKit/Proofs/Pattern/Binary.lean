import Mathlib.Data.List.Forall2
import ParserKit.Pattern.Compile
import ParserKit.Proofs.Outcome

/-!
# Patterns node by node

Compiling a pattern gathers the parts of each chain, and the two checks walk
over the gathered parts as well.  Here the same is said by recursion on the
tree, one node at a time and without a limit on nesting, and what the gathering
versions answer is shown to agree.
-/

namespace ParserKit.Pattern

open ParserKit.Parser

variable {R : Type → Type} {rules : Rules R} {c : Cursor}

namespace Node

def parser : Node → Parser R String
  | char s => charText s
  | concat left right => sequence left.parser right.parser (· ++ ·)
  | alternation left right => orElse left.parser right.parser
  | star body => map (many body.parser) joined
  | group body => body.parser
  | foreign _ _ => failure

/-- The pattern can match nothing. -/
def nullable : Node → Bool
  | char _ => false
  | concat left right => left.nullable && right.nullable
  | alternation left right => left.nullable || right.nullable
  | star _ => true
  | group body => body.nullable
  | foreign _ _ => false

/-- The first star over a pattern that can match nothing. -/
def emptyStar : Node → Option Node
  | char _ => none
  | concat left right => left.emptyStar.or right.emptyStar
  | alternation left right => left.emptyStar.or right.emptyStar
  | star body => if body.nullable then some (star body) else body.emptyStar
  | group body => body.emptyStar
  | foreign _ _ => none

theorem all_nullable_concatSpine (node : Node) :
    node.concatSpine.all nullable = node.nullable := by
  induction node with
  | concat left right _ ih => rw [concatSpine, List.all_cons, ih, nullable]
  | _ => simp [concatSpine]

theorem any_nullable_alternationSpine (node : Node) :
    node.alternationSpine.any nullable = node.nullable := by
  induction node with
  | alternation left right _ ih => rw [alternationSpine, List.any_cons, ih, nullable]
  | _ => simp [alternationSpine]

theorem findSome?_emptyStar_concatSpine (node : Node) :
    node.concatSpine.findSome? emptyStar = node.emptyStar := by
  induction node with
  | concat left right _ ih =>
      rw [concatSpine, List.findSome?_cons, ih, emptyStar]
      cases left.emptyStar <;> rfl
  | _ => simp [concatSpine]

theorem findSome?_emptyStar_alternationSpine (node : Node) :
    node.alternationSpine.findSome? emptyStar = node.emptyStar := by
  induction node with
  | alternation left right _ ih =>
      rw [alternationSpine, List.findSome?_cons, ih, emptyStar]
      cases left.emptyStar <;> rfl
  | _ => simp [alternationSpine]

end Node

/-- A single-character node reads its character. -/
theorem meets_charText {F : Fault → Prop} {Q : String → Cursor → Prop} (s : String)
    (hfound : ∀ ch d, c.Reads [ch] d → s.toList = [ch] → Q s d) :
    ((charText s : Parser R String).runWith rules c).Meets F True Q := by
  simp only [charText, runWith]
  rcases hstep : c.advance with _ | ⟨ch, d⟩
  · trivial
  · by_cases hs : s.toList = [ch]
    · simpa only [hs, if_true, Option.map_some, Outcome.Meets] using
        hfound ch d (Cursor.reads_of_advance hstep) hs
    · simp only [hs]
      trivial

/-! ## The two checks -/

theorem allParts_eq {test : Node → Except TreeError Bool} {parts : List Node} {b : Bool}
    (htest : ∀ part b, test part = .ok b → b = part.nullable) (h : allParts test parts = .ok b) :
    b = parts.all Node.nullable := by
  induction parts with
  | nil => simpa [allParts] using h.symm
  | cons part more ih =>
      rw [allParts] at h
      rw [List.all_cons]
      rcases hpart : test part with e | _ | _
      · simp [hpart] at h
      · rw [← htest part false hpart]
        simpa [hpart] using h.symm
      · rw [← htest part true hpart]
        exact ih (by simpa [hpart] using h)

theorem anyPart_eq {test : Node → Except TreeError Bool} {parts : List Node} {b : Bool}
    (htest : ∀ part b, test part = .ok b → b = part.nullable) (h : anyPart test parts = .ok b) :
    b = parts.any Node.nullable := by
  induction parts with
  | nil => simpa [anyPart] using h.symm
  | cons part more ih =>
      rw [anyPart] at h
      rw [List.any_cons]
      rcases hpart : test part with e | _ | _
      · simp [hpart] at h
      · rw [← htest part false hpart]
        exact ih (by simpa [hpart] using h)
      · rw [← htest part true hpart]
        simpa [hpart] using h.symm

theorem matchesEmpty_eq {depth : Nat} {node : Node} {b : Bool}
    (h : matchesEmpty depth node = .ok b) : b = node.nullable := by
  induction depth generalizing node b with
  | zero => simp [matchesEmpty] at h
  | succ depth ih =>
      cases node with
      | concat left right =>
          rw [← Node.all_nullable_concatSpine]
          exact allParts_eq (fun _ _ => ih) (by simpa only [matchesEmpty] using h)
      | alternation left right =>
          rw [← Node.any_nullable_alternationSpine]
          exact anyPart_eq (fun _ _ => ih) (by simpa only [matchesEmpty] using h)
      | group body =>
          have hbody : matchesEmpty depth body = .ok b := by simpa only [matchesEmpty] using h
          rw [Node.nullable]
          exact ih hbody
      | char s | star body => simpa [matchesEmpty, Node.nullable] using h.symm
      | foreign kind text => simp [matchesEmpty] at h

theorem firstFound_eq {search : Node → Except TreeError (Option Node)} {parts : List Node}
    {found : Option Node} (hsearch : ∀ part o, search part = .ok o → o = part.emptyStar)
    (h : firstFound search parts = .ok found) : found = parts.findSome? Node.emptyStar := by
  induction parts with
  | nil => simpa [firstFound] using h.symm
  | cons part more ih =>
      rw [firstFound] at h
      rw [List.findSome?_cons]
      rcases hpart : search part with e | _ | node
      · simp [hpart] at h
      · rw [← hsearch part none hpart]
        exact ih (by simpa [hpart] using h)
      · rw [← hsearch part (some node) hpart]
        simpa [hpart] using h.symm

theorem emptyRepeat_eq {depth : Nat} {node : Node} {found : Option Node}
    (h : emptyRepeat depth node = .ok found) : found = node.emptyStar := by
  induction depth generalizing node found with
  | zero => simp [emptyRepeat] at h
  | succ depth ih =>
      cases node with
      | concat left right =>
          rw [← Node.findSome?_emptyStar_concatSpine]
          exact firstFound_eq (fun _ _ => ih) (by simpa only [emptyRepeat] using h)
      | alternation left right =>
          rw [← Node.findSome?_emptyStar_alternationSpine]
          exact firstFound_eq (fun _ _ => ih) (by simpa only [emptyRepeat] using h)
      | group body =>
          have hbody : emptyRepeat depth body = .ok found := by simpa only [emptyRepeat] using h
          rw [Node.emptyStar]
          exact ih hbody
      | star body =>
          rw [Node.emptyStar]
          rcases hbody : matchesEmpty depth body with e | _ | _
          · simp [emptyRepeat, hbody] at h
          · rw [← matchesEmpty_eq hbody]
            exact ih (by simpa [emptyRepeat, hbody] using h)
          · rw [← matchesEmpty_eq hbody]
            simpa [emptyRepeat, hbody] using h.symm
      | char s | foreign kind text => simpa [emptyRepeat, Node.emptyStar] using h.symm

/-! ## Compilation -/

theorem compileParts_eq_ok {compile : Node → Except TreeError (Parser R String)}
    {parts : List Node} {ps : List (Parser R String)} (h : compileParts compile parts = .ok ps) :
    List.Forall₂ (fun part p => compile part = .ok p) parts ps := by
  induction parts generalizing ps with
  | nil =>
      obtain rfl : [] = ps := by simpa [compileParts] using h
      exact .nil
  | cons part more ih =>
      rw [compileParts] at h
      rcases hpart : compile part with e | p
      · simp [hpart] at h
      · rcases hmore : compileParts compile more with e | qs
        · simp [hpart, hmore] at h
        · obtain rfl : p :: qs = ps := by simpa [hpart, hmore] using h
          exact .cons hpart (ih hmore)

theorem exists_compile_of_mem {compile : Node → Except TreeError (Parser R String)}
    {parts : List Node} {ps : List (Parser R String)} (h : compileParts compile parts = .ok ps)
    {part : Node} (hpart : part ∈ parts) : ∃ p, compile part = .ok p := by
  have hforall := compileParts_eq_ok h
  clear h
  induction hforall with
  | nil => simp at hpart
  | @cons first p _ _ hp _ ih =>
      rw [List.mem_cons] at hpart
      rcases hpart with rfl | hpart
      · exact ⟨p, hp⟩
      · exact ih hpart

theorem forall_mem_of_compileParts {compile : Node → Except TreeError (Parser R String)}
    {parts : List Node} {ps : List (Parser R String)} (h : compileParts compile parts = .ok ps)
    {P : Parser R String → Prop} (hP : ∀ part p, compile part = .ok p → P p) : ∀ p ∈ ps, P p := by
  have hforall := compileParts_eq_ok h
  clear h
  induction hforall with
  | nil => simp
  | cons hp _ ih => exact List.forall_mem_cons.2 ⟨hP _ _ hp, ih⟩

theorem compileParts_mono {compile compile' : Node → Except TreeError (Parser R String)}
    (hmono : ∀ part p, compile part = .ok p → compile' part = .ok p) {parts : List Node}
    {ps : List (Parser R String)} (h : compileParts compile parts = .ok ps) :
    compileParts compile' parts = .ok ps := by
  induction parts generalizing ps with
  | nil => exact h
  | cons part more ih =>
      rw [compileParts] at h ⊢
      rcases hpart : compile part with e | p
      · simp [hpart] at h
      · rcases hmore : compileParts compile more with e | qs
        · simp [hpart, hmore] at h
        · rw [hmono part p hpart, ih hmore]
          simpa [hpart, hmore] using h

/-- How the parser of a pattern comes from the parsers of its parts. -/
inductive CompiledFrom (compile : Node → Except TreeError (Parser R String)) :
    Node → Parser R String → Prop
  | char (s : String) : CompiledFrom compile (.char s) (charText s)
  | concat {left right : Node} {ps : List (Parser R String)}
      (hps : compileParts compile (Node.concat left right).concatSpine = .ok ps) :
      CompiledFrom compile (.concat left right) (sequenceOf ps joined)
  | alternation {left right : Node} {ps : List (Parser R String)}
      (hps : compileParts compile (Node.alternation left right).alternationSpine = .ok ps) :
      CompiledFrom compile (.alternation left right) (choiceOf ps)
  | star {body : Node} {p : Parser R String} (hbody : compile body = .ok p) :
      CompiledFrom compile (.star body) (map (many p) joined)
  | group {body : Node} {p : Parser R String} (hbody : compile body = .ok p) :
      CompiledFrom compile (.group body) p

theorem CompiledFrom.mono {compile compile' : Node → Except TreeError (Parser R String)}
    (hmono : ∀ part p, compile part = .ok p → compile' part = .ok p) {node : Node}
    {p : Parser R String} (h : CompiledFrom compile node p) : CompiledFrom compile' node p := by
  cases h with
  | char s => exact .char s
  | concat hps => exact .concat (compileParts_mono hmono hps)
  | alternation hps => exact .alternation (compileParts_mono hmono hps)
  | star hbody => exact .star (hmono _ _ hbody)
  | group hbody => exact .group (hmono _ _ hbody)

theorem compile_succ_eq_ok_iff {depth : Nat} {node : Node} {p : Parser R String} :
    compile (depth + 1) node = .ok p ↔ CompiledFrom (compile depth) node p := by
  constructor
  · intro h
    cases node with
    | char s =>
        rw [compile] at h
        obtain rfl : charText s = p := by simpa using h
        exact .char s
    | concat left right =>
        rw [compile] at h
        cases hps : compileParts (compile (R := R) depth) (Node.concat left right).concatSpine with
        | error e => simp [hps] at h
        | ok ps =>
            obtain rfl : sequenceOf ps joined = p := by simpa [hps] using h
            exact .concat hps
    | alternation left right =>
        rw [compile] at h
        cases hps : compileParts (compile (R := R) depth)
          (Node.alternation left right).alternationSpine with
        | error e => simp [hps] at h
        | ok ps =>
            obtain rfl : choiceOf ps = p := by simpa [hps] using h
            exact .alternation hps
    | star body =>
        rw [compile] at h
        cases hbody : compile (R := R) depth body with
        | error e => simp [hbody] at h
        | ok q =>
            obtain rfl : map (many q) joined = p := by simpa [hbody] using h
            exact .star hbody
    | group body =>
        rw [compile] at h
        exact .group h
    | foreign kind text => simp [compile] at h
  · intro h
    cases h with
    | char s => rw [compile]
    | concat hps | alternation hps => rw [compile, hps]
    | star hbody => rw [compile, hbody]
    | group hbody => rw [compile, hbody]

/-- A higher limit changes nothing for a pattern that is within the lower one. -/
theorem compile_succ {depth : Nat} {node : Node} {p : Parser R String}
    (h : compile depth node = .ok p) : compile (depth + 1) node = .ok p := by
  induction depth generalizing node p with
  | zero => simp [compile] at h
  | succ depth ih =>
      rw [compile_succ_eq_ok_iff] at h ⊢
      exact h.mono fun _ _ => ih

theorem compile_mono {limit higher : Nat} (hle : limit ≤ higher) {node : Node}
    {p : Parser R String} (h : compile limit node = .ok p) : compile higher node = .ok p := by
  induction hle with
  | refl => exact h
  | step _ ih => exact compile_succ ih

/-- Two parsers that do the same wherever they are run. -/
def Agree (rules : Rules R) (p q : Parser R String) : Prop :=
  ∀ c, p.runWith rules c = q.runWith rules c

/-- The gathered parts of a concatenation, one behind the other. -/
theorem runWith_concatSpine {β : Type} {node : Node} {ps : List (Parser R String)}
    (hps : List.Forall₂ (fun part p => Agree rules p part.parser) node.concatSpine ps)
    (f : String → β) (c : Cursor) :
    (sequenceOf ps fun matched => f (joined matched)).runWith rules c =
      (map node.parser f).runWith rules c := by
  induction node generalizing ps f c with
  | concat left right _ ih =>
      cases hps with
      | @cons _ p _ more hp hmore =>
      rw [runWith_sequenceOf_cons]
      simp only [runWith, Node.parser, hp c]
      rcases left.parser.runWith rules c with fault | (_ | ⟨a, d⟩)
      · rfl
      · rfl
      · have hright := ih hmore (fun s => f (a ++ s)) d
        simp only [joined, String.join_cons] at hright ⊢
        rw [hright, runWith]
        rcases right.parser.runWith rules d with fault | (_ | ⟨b, e⟩) <;> rfl
  | _ =>
      cases hps with
      | @cons _ p _ more hp hmore =>
      cases hmore
      rw [runWith_sequenceOf_cons, runWith_bind, runWith_map, hp c]
      rfl

theorem runWith_alternationSpine {node : Node} {ps : List (Parser R String)}
    (hps : List.Forall₂ (fun part p => Agree rules p part.parser) node.alternationSpine ps)
    (c : Cursor) : (choiceOf ps).runWith rules c = node.parser.runWith rules c := by
  induction node generalizing ps c with
  | alternation left right _ ih =>
      cases hps with
      | @cons _ p _ more hp hmore =>
      rw [runWith_choiceOf_cons, runWith, hp c, ih hmore c, Node.parser, runWith]
  | _ =>
      cases hps with
      | @cons _ p _ more hp hmore =>
      cases hmore
      rw [runWith_choiceOf_cons, runWith, hp c, runWith_choiceOf_nil]
      split <;> simp_all

/-- Whatever limit on nesting a pattern was compiled under, its parser does
what its nodes say. -/
theorem compile_agree {depth : Nat} {node : Node} {p : Parser R String}
    (h : compile depth node = .ok p) : Agree rules p node.parser := by
  induction depth generalizing node p with
  | zero => simp [compile] at h
  | succ depth ih =>
      have hparts : ∀ {parts : List Node} {ps : List (Parser R String)},
          compileParts (compile depth) parts = .ok ps →
            List.Forall₂ (fun part p => Agree rules p part.parser) parts ps :=
        fun hps => (compileParts_eq_ok hps).imp fun _ _ => ih
      cases compile_succ_eq_ok_iff.1 h with
      | char s => exact fun _ => rfl
      | @concat left right ps hps =>
          intro c
          have hspine := runWith_concatSpine (hparts hps) id c
          simp only [id_eq] at hspine
          rw [hspine, runWith]
          rcases (Node.concat left right).parser.runWith rules c with fault | (_ | ⟨a, d⟩) <;> rfl
      | alternation hps => exact runWith_alternationSpine (hparts hps)
      | @star body q hbody =>
          intro c
          have hq : q.runWith rules = body.parser.runWith rules := funext (ih hbody)
          simp only [Node.parser, many, runWith, hq]
      | group hbody =>
          rw [Node.parser]
          exact ih hbody

end ParserKit.Pattern
