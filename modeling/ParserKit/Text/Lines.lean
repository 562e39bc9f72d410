/-!
# Lines of a text

A text is split at every character that ends a line in Unicode's sense; a
carriage return directly before a line feed ends one line together with it.  A
break at the very end opens no further line.
-/

namespace ParserKit.Lines

/-- The characters that end a line. -/
def breaks : List Char :=
  ['\n', '\r', '\x0b', '\x0c', '\x1c', '\x1d', '\x1e', '\u0085', '\u2028', '\u2029']

def split : List Char → List (List Char)
  | [] => []
  | '\r' :: '\n' :: more => [] :: split more
  | c :: more =>
      if breaks.contains c then
        [] :: split more
      else
        match split more with
        | [] => [[c]]
        | line :: lines => (c :: line) :: lines

/-- The lines of a text are made of its characters. -/
theorem mem_of_mem_split {cs line : List Char} {c : Char} (hline : line ∈ split cs)
    (hc : c ∈ line) : c ∈ cs := by
  fun_induction split cs generalizing line with
  | case1 => exact absurd hline List.not_mem_nil
  | case2 more ih =>
      rcases List.mem_cons.1 hline with rfl | hline
      · exact absurd hc List.not_mem_nil
      · exact List.mem_cons_of_mem _ (List.mem_cons_of_mem _ (ih hline hc))
  | case3 first more _ _ ih =>
      rcases List.mem_cons.1 hline with rfl | hline
      · exact absurd hc List.not_mem_nil
      · exact List.mem_cons_of_mem _ (ih hline hc)
  | case4 first more _ _ _ _ =>
      obtain rfl := List.mem_singleton.1 hline
      exact List.mem_singleton.1 hc ▸ List.mem_cons_self
  | case5 first more _ _ line' lines hsplit ih =>
      rcases List.mem_cons.1 hline with rfl | hline
      · rcases List.mem_cons.1 hc with rfl | hc
        · exact List.mem_cons_self
        · exact List.mem_cons_of_mem _ (ih (hsplit ▸ List.mem_cons_self) hc)
      · exact List.mem_cons_of_mem _ (ih (hsplit ▸ List.mem_cons_of_mem _ hline) hc)

end ParserKit.Lines
