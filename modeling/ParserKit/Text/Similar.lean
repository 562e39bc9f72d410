/-!
# Similar words

Two words are as similar as the characters that they share in order: the
longest common run, and so on with what stands left and right of it.  Words
count as close if at least six tenths of all characters are shared, and at most
three close words are offered.
-/

namespace ParserKit.Similar

/-- The length of the common start of two words. -/
def commonStart : List Char → List Char → Nat
  | a :: as, b :: bs => if a = b then commonStart as bs + 1 else 0
  | _, _ => 0

/-- A common run: where it starts in both words, and its length. -/
structure Run where
  left : Nat
  right : Nat
  size : Nat

/-- The longer of two runs, the first of equally long ones. -/
def Run.longer (r s : Run) : Run := if r.size < s.size then s else r

/-- The longest common run of two words, the leftmost of several. -/
def longestRun (as bs : List Char) : Run :=
  (List.range as.length).foldl
    (fun best i =>
      (List.range bs.length).foldl
        (fun best j => best.longer ⟨i, j, commonStart (as.drop i) (bs.drop j)⟩) best)
    ⟨0, 0, 0⟩

/-- How many characters two words share; `fuel` bounds the number of runs on the
way down. -/
def shared : Nat → List Char → List Char → Nat
  | 0, _, _ => 0
  | fuel + 1, as, bs =>
      let run := longestRun as bs
      if run.size = 0 then
        0
      else
        run.size + shared fuel (as.take run.left) (bs.take run.right)
          + shared fuel (as.drop (run.left + run.size)) (bs.drop (run.right + run.size))

/-- A candidate with the share of its characters as a fraction. -/
structure Score where
  word : String
  shared : Nat
  total : Nat

def Score.of (word : String) (given : List Char) : Score :=
  let chars := word.toList
  ⟨word, ParserKit.Similar.shared chars.length chars given, chars.length + given.length⟩

def Score.isClose (s : Score) : Bool := 6 * s.total ≤ 20 * s.shared

/-- The better score first; of equal ones the later word. -/
def Score.before (s t : Score) : Bool :=
  let left := s.shared * t.total
  let right := t.shared * s.total
  right < left || (left == right && !(s.word < t.word))

/-- The words close to a given one, in the order of words. -/
def close (given : String) (candidates : List String) : List String :=
  let scores := (candidates.map (Score.of · given.toList)).filter Score.isClose
  let best := (scores.mergeSort Score.before).take 3
  (best.map (·.word)).mergeSort fun a b => !(b < a)

end ParserKit.Similar
