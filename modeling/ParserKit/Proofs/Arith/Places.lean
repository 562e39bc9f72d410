import ParserKit.Proofs.Arith.Layout
import ParserKit.Proofs.Arith.Stops

/-!
# Every node is in its place

A tree is one type for all nodes, and nothing in it keeps a step from standing
where a value is due.  The grammar does: each operand and each head that it
builds has a value, and each tail is a run of steps.
-/

namespace ParserKit.Arith

/-- What a walk takes the tree of a part for. -/
def Part.place : Part → Place
  | operand | level _ => .value
  | tail _ => .steps

theorem Level.place_part (l : Level) : l.part.place = .value := by
  cases l <;> rfl

/-- The node is the tree of a part that is taken for what the node is taken for,
and it is placed between the two cursors. -/
def Standing.PlacedBetween (s : Standing) (c d : Cursor) : Prop :=
  ∃ part c' d', part.place = s.place ∧ c.Reaches c' ∧ Placed part c' s.node d' ∧ d'.Reaches d

variable {part : Part} {c d : Cursor} {tree : Node} {level : Nat}

theorem Standing.PlacedBetween.mono {s : Standing} {before behind : Cursor}
    (h : s.PlacedBetween c d) (hc : before.Reaches c) (hd : d.Reaches behind) :
    s.PlacedBetween before behind := by
  obtain ⟨part, c', d', hplace, hc', hplaced, hd'⟩ := h
  exact ⟨part, c', d', hplace, hc.trans hc', hplaced, hd'.trans hd⟩

theorem Placed.placedBetween (h : Placed part c tree d) :
    Standing.PlacedBetween ⟨part.place, level, tree⟩ c d :=
  ⟨part, c, d, rfl, .refl c, h, .refl d⟩

theorem Placed.takes (h : Placed part c tree d) : part.place.Takes tree := by
  induction h with
  | paren | number | name | minus | chain | done | step => trivial
  | plus _ _ ih => exact ih

/-- A node that stands in the tree of a part is the tree of a part as well, which
is placed between the ends of the whole. -/
theorem Placed.placedBetween_of_mem (h : Placed part c tree d) :
    ∀ s ∈ tree.standing part.place level, s.PlacedBetween c d := by
  induction h generalizing level with
  | paren hopen hbody hclose ih =>
      intro s hs
      rcases List.mem_cons.1 hs with rfl | hs
      · exact (Placed.paren hopen hbody hclose).placedBetween
      · exact (ih s hs).mono hopen.reaches hclose.reaches
  | number hne hdigits hword =>
      intro s hs
      obtain rfl : s = _ := List.mem_singleton.1 hs
      exact (Placed.number hne hdigits hword).placedBetween
  | name hletter hrun hword =>
      intro s hs
      obtain rfl : s = _ := List.mem_singleton.1 hs
      exact (Placed.name hletter hrun hword).placedBetween
  | minus hsign hoperand ih =>
      intro s hs
      rcases List.mem_cons.1 hs with rfl | hs
      · exact (Placed.minus hsign hoperand).placedBetween
      · exact (ih s hs).mono hsign.reaches (.refl _)
  | plus hsign _ ih =>
      intro s hs
      exact (ih s hs).mono hsign.reaches (.refl _)
  | @chain l _ _ _ head tail hhead htail ihhead ihtail =>
      rw [l.place_part] at ihhead
      intro s hs
      rcases List.mem_cons.1 hs with rfl | hs
      · exact (Placed.chain hhead htail).placedBetween
      · rcases List.mem_append.1 hs with hs | hs
        · exact (ihhead s hs).mono (.refl _) htail.reaches
        · exact (ihtail s hs).mono hhead.reaches (.refl _)
  | done l c =>
      intro s hs
      obtain rfl : s = _ := List.mem_singleton.1 hs
      exact (Placed.done l c).placedBetween
  | @step l _ _ _ _ _ _ operand rest hop hsign hoperand hrest ihoperand ihrest =>
      rw [l.place_part] at ihoperand
      intro s hs
      rcases List.mem_cons.1 hs with rfl | hs
      · exact (Placed.step hop hsign hoperand hrest).placedBetween
      · rcases List.mem_append.1 hs with hs | hs
        · exact (ihoperand s hs).mono hsign.reaches hrest.reaches
        · exact (ihrest s hs).mono (hsign.reaches.trans hoperand.reaches) (.refl _)

/-- All nodes that stand in the tree of a part have a meaning in their places. -/
theorem Placed.takes_of_mem (h : Placed part c tree d) :
    ∀ s ∈ tree.standing part.place level, s.place.Takes s.node := by
  intro s hs
  obtain ⟨part', c', d', hplace, -, hpart, -⟩ := h.placedBetween_of_mem s hs
  rw [← hplace]
  exact hpart.takes

/-- A walk never finds a node of a part out of place. -/
theorem Placed.not_isMisplaced (h : Placed part c tree d) {e : Evaluator} {depth : Nat}
    {reached : Int} {reason : Abort}
    (hwalk : e.walkAt depth reached part.place tree = .error (.aborted reason)) :
    ¬ reason.IsMisplaced := by
  obtain ⟨s, hs, hstops⟩ := e.stopsAmong_standing tree (Nat.zero_add depth).ge hwalk
  cases hstops with
  | misplaced hplace => exact absurd (h.takes_of_mem s hs) hplace
  | operation hstop => cases hstop <;> exact id

/-- In the tree of a text, every node has a meaning in its place, so that no walk
over it and no evaluation ends at a node that is out of place. -/
theorem read_in_place (text : String) (tree : Node) (h : read text = .ok (some tree)) :
    (∀ s ∈ tree.standing .value 0, s.place.Takes s.node ∧
      ∀ (e : Evaluator) (depth : Nat) (reached : Int) (reason : Abort),
        e.walkAt depth reached s.place s.node = .error (.aborted reason) →
          ¬ reason.IsMisplaced) ∧
    ∀ (e : Evaluator) (reason : Abort), e.evaluate tree = .error reason →
      ¬ reason.IsMisplaced := by
  obtain ⟨c, d, -, -, hplaced, -⟩ := exists_placed_of_read h
  constructor
  · intro s hs
    refine ⟨hplaced.takes_of_mem s hs, ?_⟩
    intro e depth reached reason hwalk
    obtain ⟨part, c', d', hplace, -, hpart, -⟩ := hplaced.placedBetween_of_mem s hs
    rw [← hplace] at hwalk
    exact hpart.not_isMisplaced hwalk
  · intro e reason hevaluate
    have hwalk : e.walkAt walkLimit 0 .value tree = .error (.aborted reason) := by
      rw [Evaluator.evaluate] at hevaluate
      change e.walk walkLimit tree = _
      generalize e.walk walkLimit tree = run at hevaluate
      rcases run with (problem | _ | reason') | v <;> cases hevaluate
      rfl
    exact hplaced.not_isMisplaced hwalk

/-- Both signs, a group, and a chain on each level. -/
theorem read_in_place_all_levels :
    ∃ tree, read "-(1 - +x)*2^3" = .ok (some tree) ∧
      (∀ s ∈ tree.standing .value 0, s.place.Takes s.node) ∧
      ∀ (e : Evaluator) (reason : Abort), e.evaluate tree = .error reason →
        ¬ reason.IsMisplaced := by
  have hread : ∃ tree, read "-(1 - +x)*2^3" = .ok (some tree) := by
    refine ⟨?_, ?_⟩
    rotate_left
    · cbv
      rfl
  obtain ⟨tree, hread⟩ := hread
  obtain ⟨hnodes, hevaluate⟩ := read_in_place _ tree hread
  exact ⟨tree, hread, fun s hs => (hnodes s hs).1, hevaluate⟩

end ParserKit.Arith
