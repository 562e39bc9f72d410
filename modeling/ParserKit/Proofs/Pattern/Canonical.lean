import ParserKit.Pattern.Grammar
import ParserKit.Proofs.Lexemes

/-!
# Canonical pattern trees

A pattern text has one way to be a tree: concatenations and alternatives nest
to the right, and groups stand only where parentheses are written.  `Canonical`
describes these trees, and `Node.print` writes a tree back as a pattern.
-/

namespace ParserKit.Pattern

/-- What a pattern is written as. -/
def Node.print : Node → List Char
  | char s => s.toList
  | concat left right => left.print ++ right.print
  | alternation left right => left.print ++ ('|' :: right.print)
  | star body => body.print ++ ['*']
  | group body => '(' :: (body.print ++ [')'])
  | foreign _ _ => []

/-- How many groups stand inside one another. -/
def Node.groupDepth : Node → Nat
  | char _ | foreign _ _ => 0
  | concat left right | alternation left right => max left.groupDepth right.groupDepth
  | star body => body.groupDepth
  | group body => body.groupDepth + 1

/-- The kinds of canonical trees, from the inside out. -/
inductive Shape
  | basic
  | factor
  | term
  | expression

inductive Canonical : Shape → Node → Prop
  | char {ch : Char} (hplain : ch ∉ specials) : Canonical .basic (.char (String.singleton ch))
  | group {body : Node} (hbody : Canonical .expression body) : Canonical .basic (.group body)
  | once {body : Node} (hbody : Canonical .basic body) : Canonical .factor body
  | star {body : Node} (hbody : Canonical .basic body) : Canonical .factor (.star body)
  | lone {node : Node} (hnode : Canonical .factor node) : Canonical .term node
  | concat {left right : Node} (hleft : Canonical .factor left) (hright : Canonical .term right) :
      Canonical .term (.concat left right)
  | only {node : Node} (hnode : Canonical .term node) : Canonical .expression node
  | alternation {left right : Node} (hleft : Canonical .term left)
      (hright : Canonical .expression right) : Canonical .expression (.alternation left right)

/-! ## Chains -/

/-- What stands between the parts of a chain. -/
def Link.separator : Link → List Char
  | concat => []
  | alternation => ['|']

def Link.part : Link → Shape
  | concat => .factor
  | alternation => .term

def Link.whole : Link → Shape
  | concat => .term
  | alternation => .expression

/-- The parts of a chain behind the first, each with its separator. -/
def printMore (link : Link) (more : List Node) : List Char :=
  more.flatMap fun node => link.separator ++ node.print

theorem print_join (link : Link) (left right : Node) :
    (Node.join link left right).print = left.print ++ (link.separator ++ right.print) := by
  cases link <;> rfl

theorem print_nest (link : Link) (first : Node) (more : List Node) :
    (Node.nest link first more).print = first.print ++ printMore link more := by
  induction more generalizing first with
  | nil => simp [Node.nest, printMore]
  | cons second more ih =>
      rw [Node.nest, print_join, ih, printMore, printMore, List.flatMap_cons,
        List.append_assoc]

/-- A chain has the groups of its parts, however many there are. -/
theorem groupDepth_le_nest (link : Link) (first : Node) (more : List Node) :
    ∀ node ∈ first :: more, node.groupDepth ≤ (Node.nest link first more).groupDepth := by
  induction more generalizing first with
  | nil => simp [Node.nest]
  | cons second more ih =>
      have hjoin : (Node.nest link first (second :: more)).groupDepth =
          max first.groupDepth (Node.nest link second more).groupDepth := by
        rw [Node.nest]
        cases link <;> rfl
      intro node hnode
      rw [hjoin]
      rcases List.mem_cons.1 hnode with rfl | hnode
      · exact Nat.le_max_left _ _
      · exact Nat.le_trans (ih second node hnode) (Nat.le_max_right _ _)

theorem Canonical.whole {link : Link} {node : Node} (h : Canonical link.part node) :
    Canonical link.whole node := by
  cases link with
  | concat => exact .lone h
  | alternation => exact .only h

theorem Canonical.join {link : Link} {left right : Node} (hleft : Canonical link.part left)
    (hright : Canonical link.whole right) :
    Canonical link.whole (Node.join link left right) := by
  cases link with
  | concat => exact .concat hleft hright
  | alternation => exact .alternation hleft hright

theorem Canonical.nest {link : Link} {first : Node} {more : List Node}
    (hfirst : Canonical link.part first) (hmore : ∀ node ∈ more, Canonical link.part node) :
    Canonical link.whole (Node.nest link first more) := by
  induction more generalizing first with
  | nil => exact hfirst.whole
  | cons second more ih =>
      have hsecond := hmore second List.mem_cons_self
      exact hfirst.join (ih hsecond fun node hnode => hmore node (List.mem_cons_of_mem _ hnode))

/-- A canonical chain is nested from its parts. -/
theorem Canonical.exists_nest {link : Link} {node : Node} (h : Canonical link.whole node) :
    ∃ first more, node = Node.nest link first more ∧ Canonical link.part first ∧
      ∀ n ∈ more, Canonical link.part n := by
  generalize hshape : link.whole = shape at h
  induction h with
  | char _ | group _ | once _ | star _ => cases link <;> cases hshape
  | @lone node hnode =>
      cases link with
      | concat => exact ⟨node, [], rfl, hnode, by simp⟩
      | alternation => cases hshape
  | @only node hnode =>
      cases link with
      | concat => cases hshape
      | alternation => exact ⟨node, [], rfl, hnode, by simp⟩
  | @concat left right hleft _ _ ih =>
      cases link with
      | concat =>
          obtain ⟨first, more, rfl, hfirst, hmore⟩ := ih rfl
          exact ⟨left, first :: more, rfl, hleft, by simpa using ⟨hfirst, hmore⟩⟩
      | alternation => cases hshape
  | @alternation left right hleft _ _ ih =>
      cases link with
      | concat => cases hshape
      | alternation =>
          obtain ⟨first, more, rfl, hfirst, hmore⟩ := ih rfl
          exact ⟨left, first :: more, rfl, hleft, by simpa using ⟨hfirst, hmore⟩⟩

/-- A canonical tree is written with some character, and not with a star in
front. -/
theorem Canonical.exists_print_eq_cons {shape : Shape} {node : Node} (h : Canonical shape node) :
    ∃ ch s, node.print = ch :: s ∧ ch ≠ '*' := by
  induction h with
  | @char ch hplain =>
      refine ⟨ch, [], String.toList_singleton ch, fun hstar => hplain ?_⟩
      simp [hstar, specials]
  | group _ _ => exact ⟨'(', _, rfl, by decide⟩
  | once _ ih | lone _ ih | only _ ih => exact ih
  | star _ ih | concat _ _ ih _ | alternation _ _ ih _ =>
      obtain ⟨ch, s, hprint, hstar⟩ := ih
      exact ⟨ch, _, by rw [Node.print, hprint, List.cons_append], hstar⟩

end ParserKit.Pattern
