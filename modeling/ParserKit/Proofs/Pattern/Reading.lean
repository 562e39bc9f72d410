import Mathlib
import ParserKit.Proofs.Pattern.Canonical
import ParserKit.Proofs.Pattern.Frames

/-!
# Reading and printing patterns

Reading a pattern and printing a canonical tree are inverse to each other.  One
direction holds of all that is read; for the other one, what stands behind a
pattern must not go on with it, so that the greedy repetitions stop in time.
-/

namespace ParserKit.Pattern

open ParserKit.Parser

/-- One more part of a chain, behind its separator. -/
def linked : Link → PatternParser → PatternParser
  | .concat, part => part
  | .alternation, part => discardLeft (char '|') part

/-- A chain over the parser of its parts. -/
def chainParser (link : Link) (part : PatternParser) : PatternParser :=
  sequence part (many (linked link part)) (.nest link)

theorem term_eq : term = chainParser .concat factor := rfl

theorem expression_eq : expression = chainParser .alternation term := rfl

variable {rules : Rules Rule} {c d : Cursor}

/-! ## What is read is printed -/

/-- An outcome at `c` that is a canonical tree of the characters read. -/
def Sound (shape : Shape) (c : Cursor) : Outcome Node → Prop :=
  Outcome.Meets (· = .tooDeep) True fun node d => Canonical shape node ∧ c.Reads node.print d

theorem isPlain_iff {ch : Char} : isPlain ch = true ↔ ch ∉ specials := by
  simp [isPlain]

theorem sound_plain (c : Cursor) : Sound .basic c (plain.runWith rules c) := by
  rw [Sound, plain, meets_map]
  apply meets_satisfy isPlain (fun _ => trivial)
  intro ch d hread hplain
  exact ⟨.char (isPlain_iff.1 hplain), by rwa [Node.print, String.toList_singleton]⟩

theorem sound_grouped (hrules : ∀ c, Sound .expression c (rules .expression c)) (c : Cursor) :
    Sound .basic c (grouped.runWith rules c) := by
  rw [Sound, grouped, meets_map, discardRight, meets_sequence, discardLeft, meets_sequence]
  apply meets_char '(' (fun _ => trivial)
  intro d₁ hopen
  rw [meets_ref]
  apply (hrules d₁).imp
  rintro body d₂ ⟨hbody, hread⟩
  apply meets_char ')' (fun _ => trivial)
  intro d₃ hclose
  exact ⟨.group hbody, hopen.append (hread.append hclose)⟩

theorem sound_factor (hrules : ∀ c, Sound .expression c (rules .expression c)) (c : Cursor) :
    Sound .factor c (factor.runWith rules c) := by
  have hbasic : Sound .basic c (basic.runWith rules c) := by
    rw [Sound, basic, meets_orElse]
    exact (sound_grouped hrules c).mono (fun _ h => h) (fun _ => sound_plain c) fun _ _ h => h
  rw [Sound, factor, meets_sequence]
  apply hbasic.imp
  rintro body d ⟨hbody, hread⟩
  rw [Parser.optional, meets_orElse, meets_map, meets_success]
  apply meets_char '*' (fun _ => ⟨.once hbody, hread⟩)
  intro e hstar
  exact ⟨.star hbody, hread.append hstar⟩

theorem sound_linked (link : Link) {part : PatternParser}
    (hpart : ∀ c, Sound link.part c (part.runWith rules c)) (c : Cursor) :
    ((linked link part).runWith rules c).Meets (· = .tooDeep) True fun node d =>
      Canonical link.part node ∧ c.Reads (link.separator ++ node.print) d := by
  cases link with
  | concat => exact hpart c
  | alternation =>
      rw [linked, discardLeft, meets_sequence]
      apply meets_char '|' (fun _ => trivial)
      intro d hbar
      apply (hpart d).imp
      rintro node e ⟨hnode, hread⟩
      exact ⟨hnode, hbar.append hread⟩

theorem sound_chainParser (link : Link) {part : PatternParser}
    (hpart : ∀ c, Sound link.part c (part.runWith rules c)) (c : Cursor) :
    Sound link.whole c ((chainParser link part).runWith rules c) := by
  rw [Sound, chainParser, meets_sequence]
  apply (hpart c).imp
  rintro first d ⟨hfirst, hread⟩
  apply meets_many_of_invariant _
    (fun more e => (∀ node ∈ more, Canonical link.part node) ∧ d.Reads (printMore link more) e)
    ⟨by simp, .nil d⟩
  rintro more e ⟨hmore, hread'⟩
  apply (sound_linked link hpart e).mono (fun _ h => h)
  · intro _
    refine ⟨hfirst.nest hmore, ?_⟩
    rw [print_nest]
    exact hread.append hread'
  · rintro node e' ⟨hnode, hread''⟩
    refine ⟨?_, ?_, ?_⟩
    · obtain ⟨ch, s, hprint, -⟩ := hnode.exists_print_eq_cons
      have hleft := hread''.left_eq
      rw [hprint, List.length_append, List.length_cons] at hleft
      omega
    · simpa [or_imp, forall_and] using ⟨hmore, hnode⟩
    · rw [printMore, List.flatMap_append, List.flatMap_singleton]
      exact hread'.append hread''

theorem sound_expression (hrules : ∀ c, Sound .expression c (rules .expression c)) (c : Cursor) :
    Sound .expression c (expression.runWith rules c) := by
  rw [expression_eq, term_eq]
  exact sound_chainParser .alternation (sound_chainParser .concat (sound_factor hrules)) c

theorem sound_rule (depth : Nat) (c : Cursor) :
    Sound .expression c (Grammar.rule grammar depth .expression c) := by
  induction depth generalizing c with
  | zero => exact rfl
  | succ depth ih => exact sound_expression ih c

/-! ## What is printed is read -/

/-- The characters that may stand behind a part. -/
def Shape.mayFollow : Shape → Char → Prop
  | basic, _ => True
  | factor, ch => ch ≠ '*'
  | term, ch => ch = ')' ∨ ch = '|'
  | expression, ch => ch = ')'

def Follows (shape : Shape) (rest : List Char) : Prop := ∀ ch ∈ rest.head?, shape.mayFollow ch

variable {rest : List Char} {node : Node} {limit : Nat}

theorem follows_cons (shape : Shape) (ch : Char) (s : List Char) :
    Follows shape (ch :: s) ↔ shape.mayFollow ch := by
  simp [Follows]

theorem Follows.part {link : Link} (h : Follows link.whole rest) : Follows link.part rest := by
  intro ch hch
  have hwhole := h ch hch
  cases link with
  | concat => rcases hwhole with rfl | rfl <;> simp [Link.part, Shape.mayFollow]
  | alternation => exact .inl hwhole

/-- Behind a part of a chain stands the next part, or what follows the chain. -/
theorem follows_printMore {link : Link} {more : List Node} (h : Follows link.whole rest)
    (hmore : ∀ node ∈ more, Canonical link.part node) :
    Follows link.part (printMore link more ++ rest) := by
  cases more with
  | nil => exact h.part
  | cons node more =>
      obtain ⟨ch, s, hprint, hstar⟩ := (hmore node List.mem_cons_self).exists_print_eq_cons
      rw [printMore, List.flatMap_cons, hprint]
      cases link with
      | concat => exact (follows_cons ..).2 hstar
      | alternation => exact (follows_cons ..).2 (.inr rfl)

/-- The parser `run` reads every canonical tree that is printed in front of
what may follow it, at least if its groups nest less deep than the limit. -/
def Completes (limit : Nat) (shape : Shape) (run : Cursor → Outcome Node) : Prop :=
  ∀ ⦃node rest c⦄, Canonical shape node → Follows shape rest →
    c.remaining = node.print ++ rest →
    (run c).Meets (DeepFault limit node.groupDepth) False fun found d =>
      found = node ∧ d.remaining = rest

theorem grouped_eq_none (h : c.remaining.head? ≠ some '(') :
    grouped.runWith rules c = .ok none := by
  apply Outcome.Meets.eq_none
  rw [grouped, meets_map, discardRight, meets_sequence, discardLeft, meets_sequence,
    char_eq_none h]
  trivial

theorem completes_basic (hrules : Completes limit .expression (rules .expression)) :
    Completes (limit + 1) .basic (basic.runWith rules) := by
  intro node rest c hnode _ hc
  rw [basic, meets_orElse]
  cases hnode with
  | @char ch hplain =>
      rw [Node.print, String.toList_singleton, List.singleton_append] at hc
      have hopen : c.remaining.head? ≠ some '(' := by
        rw [hc]
        rintro ⟨⟩
        exact hplain (by simp [specials])
      rw [grouped_eq_none hopen, Outcome.Meets, plain, meets_map]
      refine meets_satisfy isPlain (fun hstops => ?_) fun ch' d hread _ => ?_
      · rw [hc, stops_cons, isPlain_iff.2 hplain] at hstops
        exact absurd hstops (by simp)
      · have hcons := hread.remaining_eq
        rw [hc, List.singleton_append, List.cons.injEq] at hcons
        exact ⟨by rw [hcons.1], hcons.2.symm⟩
  | @group body hbody =>
      rw [Node.print, List.cons_append, List.append_assoc, List.singleton_append] at hc
      rw [grouped, meets_map, discardRight, meets_sequence, discardLeft, meets_sequence]
      apply meets_char_of_remaining hc
      intro d₁ hd₁
      rw [meets_ref]
      have hclose : Follows .expression (')' :: rest) := (follows_cons ..).2 rfl
      refine (hrules hbody hclose hd₁).mono
        (fun _ => DeepFault.succ) False.elim ?_
      rintro found d₂ ⟨hfound, hd₂⟩
      apply meets_char_of_remaining hd₂
      intro d₃ hd₃
      exact ⟨congrArg Node.group hfound, hd₃⟩

theorem completes_factor (hrules : Completes limit .expression (rules .expression)) :
    Completes (limit + 1) .factor (factor.runWith rules) := by
  intro node rest c hnode hrest hc
  rw [factor, meets_sequence]
  have hanything : ∀ s, Follows .basic s := fun _ _ _ => trivial
  cases hnode with
  | once hbody =>
      apply (completes_basic hrules hbody (hanything _) hc).imp
      rintro found d ⟨hfound, hd⟩
      rw [Parser.optional, meets_orElse, meets_map, meets_success, hfound]
      apply meets_char '*' (fun _ => ⟨rfl, hd⟩)
      intro e hread
      rw [← hd, hread.remaining_eq, List.singleton_append, follows_cons] at hrest
      exact absurd rfl hrest
  | star hbody =>
      rw [Node.print, List.append_assoc] at hc
      apply (completes_basic hrules hbody (hanything _) hc).imp
      rintro found d ⟨hfound, hd⟩
      rw [Parser.optional, meets_orElse, meets_map, meets_success, hfound]
      exact meets_char_of_remaining hd fun e he => ⟨rfl, he⟩

theorem completes_linked {link : Link} {part : PatternParser}
    (hpart : Completes limit link.part (part.runWith rules)) (hnode : Canonical link.part node)
    (hrest : Follows link.part rest) (hc : c.remaining = link.separator ++ (node.print ++ rest)) :
    ((linked link part).runWith rules c).Meets (DeepFault limit node.groupDepth) False
      fun found d => found = node ∧ d.remaining = rest := by
  cases link with
  | concat => exact hpart hnode hrest hc
  | alternation =>
      rw [linked, discardLeft, meets_sequence]
      exact meets_char_of_remaining hc fun d hd => hpart hnode hrest hd

theorem completes_chainParser (link : Link) {part : PatternParser}
    (hpart : Completes limit link.part (part.runWith rules))
    (hstop : ∀ d, Follows link.whole d.remaining → (linked link part).runWith rules d = .ok none) :
    Completes limit link.whole ((chainParser link part).runWith rules) := by
  intro node rest c hnode hrest hc
  obtain ⟨first, more, rfl, hfirst, hmore⟩ := hnode.exists_nest
  have hdepth := groupDepth_le_nest link first more
  rw [print_nest, List.append_assoc] at hc
  rw [chainParser, meets_sequence]
  refine (hpart hfirst (follows_printMore hrest hmore) hc).mono
    (fun _ h => h.mono (hdepth first List.mem_cons_self)) id ?_
  rintro found d ⟨hfound, hd⟩
  rw [hfound]
  apply meets_many_of_invariant _
    (fun parts e => ∃ todo, more = parts ++ todo ∧ e.remaining = printMore link todo ++ rest)
    ⟨more, rfl, hd⟩
  rintro parts e ⟨todo, hsplit, he⟩
  cases todo with
  | nil =>
      rw [List.append_nil] at hsplit
      rw [hstop e (by simpa [he, printMore] using hrest), hsplit]
      exact ⟨rfl, by simpa [printMore] using he⟩
  | cons next todo =>
      subst hsplit
      have hnext : Canonical link.part next := hmore next (by simp)
      have htodo : ∀ node ∈ todo, Canonical link.part node :=
        fun node hmem => hmore node (by simp [hmem])
      rw [printMore, List.flatMap_cons, List.append_assoc, List.append_assoc] at he
      refine (completes_linked hpart hnext (follows_printMore hrest htodo) he).mono
        (fun _ h => h.mono (hdepth next (by simp))) False.elim ?_
      rintro found e' ⟨hfound', he'⟩
      refine ⟨?_, todo, ?_, he'⟩
      · obtain ⟨ch, s, hprint, -⟩ := hnext.exists_print_eq_cons
        rw [Cursor.left_eq_length_remaining, Cursor.left_eq_length_remaining, he, he', hprint]
        simp only [List.length_append, List.length_cons, printMore]
        omega
      · rw [hfound', List.append_assoc, List.singleton_append]

/-- Where a term ends, no further factor begins. -/
theorem factor_eq_none (h : Follows .term c.remaining) : factor.runWith rules c = .ok none := by
  have hgrouped : grouped.runWith rules c = .ok none := by
    apply grouped_eq_none
    intro hhead
    rcases h '(' hhead with h | h <;> simp at h
  apply Outcome.Meets.eq_none
  rw [factor, meets_sequence, basic, meets_orElse, hgrouped, Outcome.Meets, plain, meets_map]
  apply meets_satisfy isPlain (fun _ => trivial)
  intro ch d hread hplain
  rw [hread.remaining_eq, List.singleton_append, follows_cons] at h
  rcases h with rfl | rfl <;> exact absurd hplain (by decide)

theorem bar_eq_none (h : Follows .expression c.remaining) :
    (discardLeft (char '|') term).runWith rules c = .ok none := by
  apply Outcome.Meets.eq_none
  have hbar : c.remaining.head? ≠ some '|' := by
    intro hhead
    simpa [Shape.mayFollow] using h '|' hhead
  rw [discardLeft, meets_sequence, char_eq_none hbar]
  trivial

theorem completes_expression (hrules : Completes limit .expression (rules .expression)) :
    Completes (limit + 1) .expression (expression.runWith rules) := by
  have hterm : Completes (limit + 1) .term (term.runWith rules) :=
    completes_chainParser .concat (completes_factor hrules) fun _ => factor_eq_none
  exact completes_chainParser .alternation hterm fun _ => bar_eq_none

theorem completes_rule (depth : Nat) :
    Completes depth .expression (Grammar.rule grammar depth .expression) := by
  induction depth with
  | zero => exact fun node _ _ _ _ _ => ⟨rfl, Nat.zero_le node.groupDepth⟩
  | succ depth ih => exact completes_expression ih

/-! ## Whole texts -/

theorem readAt_eq (text : String) :
    readAt text = match grammar.runOnStack expression (Cursor.start text) with
      | .error fault => .error fault
      | .ok none => .ok ⟨none, Cursor.start text⟩
      | .ok (some (tree, stop)) => .ok ⟨if stop.atEnd then some tree else none, stop⟩ := by
  rcases hrun : grammar.runOnStack expression (Cursor.start text) with
    fault | (_ | ⟨tree, stop⟩)
  all_goals
    unfold readAt
    simp only [hrun]

/-- A tree is read where the rule ends at the end of the text. -/
theorem read_eq (text : String) :
    read text = match grammar.runOnStack expression (Cursor.start text) with
      | .error fault => .error fault
      | .ok none => .ok none
      | .ok (some (tree, stop)) => .ok (if stop.atEnd then some tree else none) := by
  rw [read, readAt_eq]
  rcases grammar.runOnStack expression (Cursor.start text) with fault | (_ | ⟨tree, stop⟩) <;> rfl

theorem read_eq_some_iff_run {text : String} {tree : Node} : read text = .ok (some tree) ↔
    ∃ d, grammar.runOnStack expression (.start text) = .ok (some (tree, d)) ∧
      d.remaining = [] := by
  rw [read_eq]
  rcases grammar.runOnStack expression (.start text) with fault | (_ | ⟨found, d⟩)
  · simp
  · simp
  · by_cases hend : d.atEnd = true
    · have hremaining := (Cursor.atEnd_iff_remaining d).1 hend
      simp [hend, hremaining]
    · have hremaining := mt (Cursor.atEnd_iff_remaining d).2 hend
      simp [hend, hremaining]

theorem read_sound (text : String) :
    match read text with
    | .error fault => fault = .tooDeep
    | .ok none => True
    | .ok (some tree) => Canonical .expression tree ∧ tree.print = text.toList := by
  have hexpression : Sound .expression (Cursor.start text)
      (grammar.runOnStack expression (Cursor.start text)) :=
    (grammar.runOnStack_approximates expression _).meets (F := (· = .tooDeep)) rfl
      (sound_expression (sound_rule Grammar.nestingLimit) (Cursor.start text))
  rw [read_eq]
  rcases hrun : grammar.runOnStack expression (Cursor.start text) with fault | (_ | ⟨tree, d⟩)
  · rw [hrun] at hexpression
    exact hexpression
  · trivial
  · rw [hrun] at hexpression
    obtain ⟨hcanonical, hread⟩ := hexpression
    by_cases hend : d.atEnd = true
    · simp only [hend, if_true]
      have htext : text.toList = tree.print := by
        calc
          text.toList = (Cursor.start text).remaining := (Cursor.remaining_start text).symm
          _ = tree.print ++ d.remaining := hread.remaining_eq
          _ = tree.print := by rw [(Cursor.atEnd_iff_remaining d).1 hend, List.append_nil]
      exact ⟨hcanonical, htext.symm⟩
    · simp only [hend]
      trivial

/-- An expression that may open some number of groups reads a printed tree, unless its
groups nest deeper. -/
theorem completes_printed {text : String} {tree : Node} (depth : Nat)
    (hcanonical : Canonical .expression tree) (hprint : tree.print = text.toList) :
    (expression.runWith (Grammar.rule grammar depth) (.start text)).Meets
      (DeepFault (depth + 1) tree.groupDepth) False fun found d =>
        found = tree ∧ d.remaining = [] := by
  have hend : Follows .expression [] := by simp [Follows]
  have hstart : (Cursor.start text).remaining = tree.print ++ [] := by
    rw [Cursor.remaining_start, hprint, List.append_nil]
  exact completes_expression (completes_rule depth) hcanonical hend hstart

/-- A printed tree is read, unless its groups nest deeper than the stack has room for. -/
theorem read_of_canonical {text : String} {tree : Node} (hcanonical : Canonical .expression tree)
    (hprint : tree.print = text.toList) :
    read text = .error .tooDeep ∧ roomForNesting < tree.groupDepth ∨
      read text = .ok (some tree) := by
  have hexpression : (grammar.runOnStack expression (.start text)).Meets (· = .tooDeep) False
      fun found d => found = tree ∧ d.remaining = [] := by
    refine (grammar.runOnStack_approximates expression _).meets (F := (· = .tooDeep)) rfl ?_
    exact (completes_printed Grammar.nestingLimit hcanonical hprint).mono (fun _ => And.left) id
      fun _ _ h => h
  rcases hrun : grammar.runOnStack expression (.start text) with fault | (_ | ⟨found, d⟩)
  · rw [hrun] at hexpression
    obtain rfl : fault = .tooDeep := hexpression
    refine .inl ⟨by rw [read_eq, hrun], ?_⟩
    -- With few groups the run without the stack does not end in a fault.
    have hroom := completes_printed roomForNesting hcanonical hprint
    rcases expression_approximates (.start text) with hdeep | hsame
    · rw [hdeep] at hroom
      exact hroom.2
    · rw [hsame, hrun] at hroom
      exact hroom.2
  · rw [hrun] at hexpression
    exact hexpression.elim
  · rw [hrun] at hexpression
    obtain ⟨rfl, hd⟩ := hexpression
    exact .inr (read_eq_some_iff_run.2 ⟨d, hrun, hd⟩)

theorem read_complete {text : String} {tree : Node} (hcanonical : Canonical .expression tree)
    (hprint : tree.print = text.toList) :
    read text = .error .tooDeep ∨ read text = .ok (some tree) :=
  (read_of_canonical hcanonical hprint).imp_left And.left

/-- Reading gives the canonical tree that is printed as the text, and no tree
exactly if there is none. -/
theorem read_eq_some_iff_print (text : String) (hdeep : read text ≠ .error .tooDeep) :
    (∀ tree, read text = .ok (some tree) ↔
      Canonical .expression tree ∧ tree.print = text.toList) ∧
    (read text = .ok none ↔
      ∀ tree, Canonical .expression tree → tree.print ≠ text.toList) := by
  have hsound := read_sound text
  have hcomplete : ∀ tree, Canonical .expression tree → tree.print = text.toList →
      read text = .ok (some tree) := by
    intro tree hcanonical hprint
    exact (read_complete hcanonical hprint).resolve_left hdeep
  refine ⟨fun tree => ⟨?_, fun h => hcomplete tree h.1 h.2⟩, ?_, ?_⟩
  · intro hread
    rw [hread] at hsound
    exact hsound
  · intro hnone tree hcanonical hprint
    rw [hcomplete tree hcanonical hprint] at hnone
    exact absurd hnone (by simp)
  · intro hnone
    rcases hread : read text with fault | (_ | tree)
    · rw [hread] at hsound hdeep
      exact absurd (congrArg Except.error hsound) hdeep
    · rfl
    · rw [hread] at hsound
      exact absurd hsound.2 (hnone tree hsound.1)

/-- A starred group is read, and no tree is printed as a bar with nothing behind it. -/
theorem print_starred_group :
    (read "(ab|c)*d" ≠ .error .tooDeep ∧ Canonical .expression
      (.concat (.star (.group (.alternation (.concat (.char "a") (.char "b")) (.char "c"))))
        (.char "d"))) ∧
    read "a|" ≠ .error .tooDeep ∧
      ∀ tree, Canonical .expression tree → tree.print ≠ "a|".toList := by
  have hread : read "(ab|c)*d" = .ok (some
      (.concat (.star (.group (.alternation (.concat (.char "a") (.char "b")) (.char "c"))))
        (.char "d"))) := by
    rw [read_eq]
    cbv
  have hdeep : read "(ab|c)*d" ≠ .error .tooDeep := by
    rw [hread]
    simp
  have hnone : read "a|" = .ok none := by
    rw [read_eq]
    cbv
  have hdeep' : read "a|" ≠ .error .tooDeep := by
    rw [hnone]
    simp
  refine ⟨⟨hdeep, (((read_eq_some_iff_print _ hdeep).1 _).1 hread).1⟩, hdeep', ?_⟩
  exact (read_eq_some_iff_print _ hdeep').2.1 hnone

end ParserKit.Pattern
