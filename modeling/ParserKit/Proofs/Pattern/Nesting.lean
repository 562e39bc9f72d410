import ParserKit.Proofs.Pattern.Binary
import ParserKit.Proofs.Pattern.Reading

/-!
# Nesting of patterns

The limit on nesting only ever stops trees that are nested too deeply.  Every
pattern is compiled under some limit and the checks answer wherever it is
compiled; and a pattern that was read nests four nodes at most for each open
group, which is far below the limit.
-/

namespace ParserKit.Pattern

open ParserKit.Parser

/-- No value that is not a pattern stands in the tree. -/
def Node.isPattern : Node → Bool
  | char _ => true
  | concat left right => left.isPattern && right.isPattern
  | alternation left right => left.isPattern && right.isPattern
  | star body => body.isPattern
  | group body => body.isPattern
  | foreign _ _ => false

variable {R : Type → Type} {limit : Nat} {node body : Node}

/-- The tree is compiled under the limit. -/
def Compiles (R : Type → Type) (limit : Nat) (node : Node) : Prop :=
  ∃ p : Parser R String, compile limit node = .ok p

theorem compileParts_of_compiles {parts : List Node}
    (h : ∀ part ∈ parts, Compiles R limit part) :
    ∃ ps : List (Parser R String), compileParts (compile limit) parts = .ok ps := by
  induction parts with
  | nil => exact ⟨[], rfl⟩
  | cons part more ih =>
      obtain ⟨p, hp⟩ := h part List.mem_cons_self
      obtain ⟨ps, hps⟩ := ih fun part hpart => h part (List.mem_cons_of_mem _ hpart)
      exact ⟨p :: ps, by rw [compileParts, hp, hps]⟩

theorem compiles_char (s : String) : Compiles R (limit + 1) (.char s) :=
  ⟨_, compile_succ_eq_ok_iff.2 (.char s)⟩

theorem Compiles.star (h : Compiles R limit body) : Compiles R (limit + 1) (.star body) := by
  obtain ⟨p, hp⟩ := h
  exact ⟨_, compile_succ_eq_ok_iff.2 (.star hp)⟩

theorem Compiles.group (h : Compiles R limit body) : Compiles R (limit + 1) (.group body) := by
  obtain ⟨p, hp⟩ := h
  exact ⟨_, compile_succ_eq_ok_iff.2 (.group hp)⟩

theorem Compiles.mono (h : Compiles R limit node) {higher : Nat} (hle : limit ≤ higher) :
    Compiles R higher node := by
  obtain ⟨p, hp⟩ := h
  exact ⟨p, compile_mono hle hp⟩

/-! ## Chains -/

/-- The parts of a chain of one kind. -/
def Node.spine (link : Link) (node : Node) : List Node :=
  match link with
  | .concat => node.concatSpine
  | .alternation => node.alternationSpine

theorem spine_join (link : Link) (left right : Node) :
    (Node.join link left right).spine link = left :: right.spine link := by
  cases link <;> rfl

/-- A chain nests no deeper than its parts. -/
theorem compiles_join {link : Link} {left right : Node}
    (h : ∀ part ∈ left :: right.spine link, Compiles R limit part) :
    Compiles R (limit + 1) (Node.join link left right) := by
  rw [← spine_join] at h
  obtain ⟨ps, hps⟩ := compileParts_of_compiles h
  cases link with
  | concat => exact ⟨_, compile_succ_eq_ok_iff.2 (.concat hps)⟩
  | alternation => exact ⟨_, compile_succ_eq_ok_iff.2 (.alternation hps)⟩

theorem spine_nest {link : Link} {first : Node} {more : List Node}
    (h : ∀ node ∈ first :: more, node.spine link = [node]) :
    (Node.nest link first more).spine link = first :: more := by
  induction more generalizing first with
  | nil => exact h first List.mem_cons_self
  | cons second more ih =>
      rw [Node.nest, spine_join, ih fun node hnode => h node (List.mem_cons_of_mem _ hnode)]

theorem compiles_nest {link : Link} {first : Node} {more : List Node}
    (h : ∀ node ∈ first :: more, Compiles R limit node)
    (hspine : ∀ node ∈ first :: more, node.spine link = [node]) :
    Compiles R (limit + 1) (Node.nest link first more) := by
  cases more with
  | nil => exact (h first List.mem_cons_self).mono (Nat.le_succ limit)
  | cons second more =>
      apply compiles_join
      rwa [spine_nest fun node hnode => hspine node (List.mem_cons_of_mem _ hnode)]

theorem spine_join_of_ne {link link' : Link} (h : link' ≠ link) (left right : Node) :
    (Node.join link left right).spine link' = [Node.join link left right] := by
  cases link <;> cases link' <;> first | exact absurd rfl h | rfl

/-! ## Every pattern is compiled under some limit -/

/-- What is known of a tree on the way up: it is compiled, and so is every part
of the chain that it may be. -/
structure ChainCompiles (R : Type → Type) (limit : Nat) (node : Node) : Prop where
  whole : Compiles R limit node
  parts : ∀ link : Link, ∀ part ∈ node.spine link, Compiles R limit part

theorem ChainCompiles.mono (h : ChainCompiles R limit node) {higher : Nat}
    (hle : limit ≤ higher) : ChainCompiles R higher node :=
  ⟨h.whole.mono hle, fun link part hpart => (h.parts link part hpart).mono hle⟩

theorem Compiles.chainCompiles (h : Compiles R limit node)
    (hspine : ∀ link : Link, node.spine link = [node]) : ChainCompiles R limit node := by
  refine ⟨h, fun link part hpart => ?_⟩
  rw [hspine link, List.mem_singleton] at hpart
  exact hpart ▸ h

theorem ChainCompiles.join {link : Link} {left right : Node} (hleft : ChainCompiles R limit left)
    (hright : ChainCompiles R limit right) :
    ChainCompiles R (limit + 1) (Node.join link left right) := by
  have hparts : ∀ part ∈ left :: right.spine link, Compiles R limit part := by
    intro part hpart
    rcases List.mem_cons.1 hpart with rfl | hpart
    · exact hleft.whole
    · exact hright.parts link part hpart
  have hwhole := compiles_join hparts
  refine ⟨hwhole, fun link' part hpart => ?_⟩
  by_cases hlink : link' = link
  · subst hlink
    rw [spine_join] at hpart
    exact (hparts part hpart).mono (Nat.le_succ limit)
  · rw [spine_join_of_ne hlink, List.mem_singleton] at hpart
    exact hpart ▸ hwhole

theorem exists_chainCompiles_join (link : Link) {left right : Node}
    (hleft : ∃ limit, ChainCompiles R limit left) (hright : ∃ limit, ChainCompiles R limit right) :
    ∃ limit, ChainCompiles R limit (Node.join link left right) := by
  obtain ⟨a, ha⟩ := hleft
  obtain ⟨b, hb⟩ := hright
  exact ⟨_, (ha.mono (Nat.le_max_left a b)).join (hb.mono (Nat.le_max_right a b))⟩

theorem exists_chainCompiles (R : Type → Type) (h : node.isPattern = true) :
    ∃ limit, ChainCompiles R limit node := by
  induction node with
  | char s => exact ⟨1, (compiles_char s).chainCompiles fun link => by cases link <;> rfl⟩
  | concat left right ihleft ihright =>
      rw [Node.isPattern, Bool.and_eq_true] at h
      exact exists_chainCompiles_join .concat (ihleft h.1) (ihright h.2)
  | alternation left right ihleft ihright =>
      rw [Node.isPattern, Bool.and_eq_true] at h
      exact exists_chainCompiles_join .alternation (ihleft h.1) (ihright h.2)
  | star body ih =>
      obtain ⟨limit, hbody⟩ := ih h
      exact ⟨_, hbody.whole.star.chainCompiles fun link => by cases link <;> rfl⟩
  | group body ih =>
      obtain ⟨limit, hbody⟩ := ih h
      exact ⟨_, hbody.whole.group.chainCompiles fun link => by cases link <;> rfl⟩
  | foreign kind text => simp [Node.isPattern] at h

theorem exists_compiles (R : Type → Type) (h : node.isPattern = true) :
    ∃ limit, ∀ higher, limit ≤ higher → Compiles R higher node := by
  obtain ⟨limit, hlimit⟩ := exists_chainCompiles R h
  exact ⟨limit, fun _ hle => hlimit.whole.mono hle⟩

/-! ## The checks answer wherever a tree is compiled -/

theorem exists_allParts {test : Node → Except TreeError Bool} {parts : List Node}
    (h : ∀ part ∈ parts, ∃ b, test part = .ok b) : ∃ b, allParts test parts = .ok b := by
  induction parts with
  | nil => exact ⟨true, rfl⟩
  | cons part more ih =>
      obtain ⟨b, hb⟩ := h part List.mem_cons_self
      rw [allParts, hb]
      cases b with
      | false => exact ⟨false, rfl⟩
      | true => exact ih fun part hpart => h part (List.mem_cons_of_mem _ hpart)

theorem exists_anyPart {test : Node → Except TreeError Bool} {parts : List Node}
    (h : ∀ part ∈ parts, ∃ b, test part = .ok b) : ∃ b, anyPart test parts = .ok b := by
  induction parts with
  | nil => exact ⟨false, rfl⟩
  | cons part more ih =>
      obtain ⟨b, hb⟩ := h part List.mem_cons_self
      rw [anyPart, hb]
      cases b with
      | false => exact ih fun part hpart => h part (List.mem_cons_of_mem _ hpart)
      | true => exact ⟨true, rfl⟩

theorem exists_firstFound {search : Node → Except TreeError (Option Node)} {parts : List Node}
    (h : ∀ part ∈ parts, ∃ found, search part = .ok found) :
    ∃ found, firstFound search parts = .ok found := by
  induction parts with
  | nil => exact ⟨none, rfl⟩
  | cons part more ih =>
      obtain ⟨found, hfound⟩ := h part List.mem_cons_self
      rw [firstFound, hfound]
      cases found with
      | none => exact ih fun part hpart => h part (List.mem_cons_of_mem _ hpart)
      | some node => exact ⟨some node, rfl⟩

theorem exists_matchesEmpty (h : Compiles R limit node) :
    ∃ b, matchesEmpty limit node = .ok b := by
  induction limit generalizing node with
  | zero =>
      obtain ⟨p, hp⟩ := h
      simp [compile] at hp
  | succ limit ih =>
      obtain ⟨p, hp⟩ := h
      cases compile_succ_eq_ok_iff.1 hp with
      | char s => exact ⟨false, rfl⟩
      | concat hps => exact exists_allParts fun part hpart => ih (exists_compile_of_mem hps hpart)
      | alternation hps =>
          exact exists_anyPart fun part hpart => ih (exists_compile_of_mem hps hpart)
      | star hbody => exact ⟨true, rfl⟩
      | group hbody => exact ih ⟨_, hbody⟩

theorem exists_emptyRepeat (h : Compiles R limit node) :
    ∃ found, emptyRepeat limit node = .ok found := by
  induction limit generalizing node with
  | zero =>
      obtain ⟨p, hp⟩ := h
      simp [compile] at hp
  | succ limit ih =>
      obtain ⟨p, hp⟩ := h
      cases compile_succ_eq_ok_iff.1 hp with
      | char s => exact ⟨none, rfl⟩
      | concat hps | alternation hps =>
          exact exists_firstFound fun part hpart => ih (exists_compile_of_mem hps hpart)
      | star hbody =>
          obtain ⟨b, hb⟩ := exists_matchesEmpty ⟨_, hbody⟩
          rw [emptyRepeat, hb]
          cases b with
          | false => exact ih ⟨_, hbody⟩
          | true => exact ⟨_, rfl⟩
      | group hbody => exact ih ⟨_, hbody⟩

/-! ## What is read is compiled -/

/-- A tree that is no chain. -/
def Node.Lone (node : Node) : Prop := ∀ link : Link, node.spine link = [node]

variable {rules : Rules Rule} {c : Cursor}

/-- An outcome that is a tree compiled under the limit, with more to say of the
tree. -/
def Shallow (R : Type → Type) (limit : Nat) (Q : Node → Prop) (o : Outcome Node) : Prop :=
  o.Meets (fun _ => True) True fun node _ => Compiles R limit node ∧ Q node

theorem shallow_basic (hrules : ∀ c, Shallow R limit (fun _ => True) (rules .expression c))
    (c : Cursor) : Shallow R (limit + 1) Node.Lone (basic.runWith rules c) := by
  have hplain : Shallow R (limit + 1) Node.Lone (plain.runWith rules c) := by
    rw [Shallow, plain, meets_map]
    apply meets_satisfy isPlain (fun _ => trivial)
    intro ch _ _ _
    exact ⟨compiles_char _, fun link => by cases link <;> rfl⟩
  rw [Shallow, basic, meets_orElse, grouped, meets_map, discardRight, meets_sequence, discardLeft,
    meets_sequence]
  apply meets_char '(' (fun _ => hplain)
  intro d _
  rw [meets_ref]
  refine (hrules d).mono (fun _ h => h) (fun _ => hplain) fun body e hbody => ?_
  apply meets_char ')' (fun _ => hplain)
  intro _ _
  exact ⟨hbody.1.group, fun link => by cases link <;> rfl⟩

theorem shallow_factor (hrules : ∀ c, Shallow R limit (fun _ => True) (rules .expression c))
    (c : Cursor) : Shallow R (limit + 2) Node.Lone (factor.runWith rules c) := by
  rw [Shallow, factor, meets_sequence]
  apply (shallow_basic hrules c).imp
  intro body d hbody
  rw [Parser.optional, meets_orElse, meets_map, meets_success]
  apply meets_char '*' (fun _ => ⟨hbody.1.mono (Nat.le_succ (limit + 1)), hbody.2⟩)
  intro _ _
  exact ⟨hbody.1.star, fun link => by cases link <;> rfl⟩

theorem shallow_linked (link : Link) {P : Node → Prop} {part : PatternParser}
    (hpart : ∀ c, Shallow R limit P (part.runWith rules c)) (c : Cursor) :
    Shallow R limit P ((linked link part).runWith rules c) := by
  cases link with
  | concat => exact hpart c
  | alternation =>
      rw [Shallow, linked, discardLeft, meets_sequence]
      apply meets_char '|' (fun _ => trivial)
      exact fun d _ => hpart d

/-- A chain of parts that are no such chains themselves nests one node deeper
than its parts. -/
theorem shallow_chainParser (link : Link) {P Q : Node → Prop} {part : PatternParser}
    (hspine : ∀ node, P node → node.spine link = [node])
    (hnest : ∀ first more, P first → Q (Node.nest link first more))
    (hpart : ∀ c, Shallow R limit P (part.runWith rules c)) (c : Cursor) :
    Shallow R (limit + 1) Q ((chainParser link part).runWith rules c) := by
  rw [Shallow, chainParser, meets_sequence]
  apply (hpart c).imp
  intro first _ hfirst
  apply meets_many_of_rounds _ (fun more _ => ∀ node ∈ more, Compiles R limit node ∧ P node)
    (by simp)
  intro more e hmore
  refine (shallow_linked link hpart e).mono (fun _ h => h) (fun _ => ?_) fun node _ hnode => ?_
  · have hall : ∀ node ∈ first :: more, Compiles R limit node ∧ P node :=
      List.forall_mem_cons.2 ⟨hfirst, hmore⟩
    exact ⟨compiles_nest (fun node h => (hall node h).1) fun node h => hspine node (hall node h).2,
      hnest first more hfirst.2⟩
  · split
    · exact List.forall_mem_append.2 ⟨hmore, by simpa using hnode⟩
    · trivial

theorem spine_nest_of_ne {link link' : Link} (h : link' ≠ link) {first : Node}
    (hfirst : first.Lone) (more : List Node) :
    (Node.nest link first more).spine link' = [Node.nest link first more] := by
  cases more with
  | nil => exact hfirst link'
  | cons second more => exact spine_join_of_ne h first _

theorem shallow_expression (hrules : ∀ c, Shallow R limit (fun _ => True) (rules .expression c))
    (c : Cursor) : Shallow R (limit + 4) (fun _ => True) (expression.runWith rules c) := by
  rw [expression_eq, term_eq]
  apply shallow_chainParser .alternation (fun _ h => h) (fun _ _ _ => trivial)
  apply shallow_chainParser .concat (fun _ h => h .concat) (fun _ more h => ?_)
    (shallow_factor hrules)
  exact spine_nest_of_ne (by simp) h more

/-- Four nodes for each open group. -/
theorem shallow_rule (R : Type → Type) (depth : Nat) (c : Cursor) :
    Shallow R (4 * depth) (fun _ => True) (Grammar.rule grammar depth .expression c) := by
  induction depth generalizing c with
  | zero => trivial
  | succ depth ih => exact shallow_expression ih c

/-- A canonical tree nests no more nodes than its groups allow. -/
theorem compiles_of_canonical (R : Type → Type) {text : String}
    (hcanonical : Canonical .expression node) (hprint : node.print = text.toList) {n : Nat}
    (hdepth : node.groupDepth ≤ n) : Compiles R (4 * n + 4) node := by
  have hrun := completes_printed n hcanonical hprint
  have hexpression := shallow_expression (shallow_rule R n) (.start text)
  rcases hresult : expression.runWith (Grammar.rule grammar n) (.start text) with
    fault | (_ | ⟨found, d⟩)
  · rw [hresult] at hrun
    exact absurd hrun.2 (Nat.not_le.2 (Nat.lt_succ_of_le hdepth))
  · rw [hresult] at hrun
    exact hrun.elim
  · rw [hresult] at hrun hexpression
    exact hrun.1 ▸ hexpression.1

/-- No pattern that is read is nested too deeply to be compiled. -/
theorem compiles_of_read (R : Type → Type) {text : String} (h : read text = .ok (some node)) :
    Compiles R nestingLimit node := by
  obtain ⟨d, hrun, -⟩ := read_eq_some_iff_run.1 h
  have hexpression := shallow_expression (shallow_rule R roomForGroups) (.start text)
  rw [(runOnStack_approximates_of_groups _).eq_of_ok hrun] at hexpression
  exact hexpression.1.mono (by decide)

end ParserKit.Pattern
