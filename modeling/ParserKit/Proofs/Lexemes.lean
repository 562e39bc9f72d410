import ParserKit.Proofs.Outcome
import ParserKit.Parser.Token

/-!
# Runs of characters

The repetitions of single characters are greedy: they read the longest run of
their class and stop at the first character outside it.  These lemmas say so
for blanks, numbers and names, and give the rules for characters, literals and
tokens in terms of the characters that are read.
-/

namespace ParserKit

/-- The characters `s` do not begin with a character of the class `k`. -/
def Stops (k : Char → Bool) (s : List Char) : Prop := ∀ ch ∈ s.head?, k ch = false

/-- All characters of `s` are of the class `k`. -/
def Run (k : Char → Bool) (s : List Char) : Prop := ∀ ch ∈ s, k ch = true

variable {k : Char → Bool} {s t r r' : List Char}

theorem run_nil (k : Char → Bool) : Run k [] := by
  simp [Run]

theorem stops_nil (k : Char → Bool) : Stops k [] := by
  simp [Stops]

theorem stops_cons (k : Char → Bool) (ch : Char) (s : List Char) :
    Stops k (ch :: s) ↔ k ch = false := by
  simp [Stops]

theorem Run.takeWhile_append (hs : Run k s) (hr : Stops k r) :
    (s ++ r).takeWhile k = s := by
  rw [List.takeWhile_append_of_pos hs]
  cases r with
  | nil => simp
  | cons ch more =>
      rw [stops_cons] at hr
      simp [hr]

/-- The longest run at the front of a text is determined by the text. -/
theorem Run.append_inj (hs : Run k s) (ht : Run k t) (hr : Stops k r) (hr' : Stops k r')
    (h : s ++ r = t ++ r') : s = t ∧ r = r' := by
  have hst : s = t := by
    calc
      s = (s ++ r).takeWhile k := (hs.takeWhile_append hr).symm
      _ = (t ++ r').takeWhile k := by rw [h]
      _ = t := ht.takeWhile_append hr'
  subst hst
  exact ⟨rfl, List.append_cancel_left h⟩

/-- Only characters that separate tokens. -/
abbrev Blank (s : List Char) : Prop := Run CharClass.isSpace s

/-- A letter with any letters and digits behind it. -/
def IsName : List Char → Prop
  | [] => False
  | ch :: more => CharClass.isLetter ch = true ∧ Run CharClass.isAlphanum more

theorem Run.append (hs : Run k s) (ht : Run k t) : Run k (s ++ t) := by
  intro ch hch
  rcases List.mem_append.1 hch with h | h
  · exact hs ch h
  · exact ht ch h

/-- Blanks in front of a text that does not begin with one are none. -/
theorem Run.eq_nil_of_stops (hs : Run k s) (h : Stops k (s ++ r)) : s = [] := by
  cases s with
  | nil => rfl
  | cons ch more =>
      have htrue := hs ch (by simp)
      rw [List.cons_append, stops_cons, htrue] at h
      exact absurd h (by simp)

namespace CharClass

variable {ch : Char}

theorem isAlphanum_eq_false_of_isSpace (h : isSpace ch = true) : isAlphanum ch = false := by
  simp only [isSpace, blanks, List.contains_cons, List.contains_nil, Bool.or_false,
    Bool.or_eq_true, beq_iff_eq] at h
  rcases h with rfl | rfl | rfl | rfl <;> rfl

theorem isDigit_eq_false_of_isSpace (h : isSpace ch = true) : isDigit ch = false :=
  (Bool.or_eq_false_iff.1 (isAlphanum_eq_false_of_isSpace h)).2

theorem isSpace_eq_false_of_isAlphanum (h : isAlphanum ch = true) : isSpace ch = false := by
  cases hspace : isSpace ch with
  | false => rfl
  | true =>
      rw [isAlphanum_eq_false_of_isSpace hspace] at h
      exact absurd h (by simp)

theorem isDigit_eq_false_of_isLetter (h : isLetter ch = true) : isDigit ch = false := by
  simp only [isLetter, isUpper, isLower, Bool.or_eq_true, Bool.and_eq_true, decide_eq_true_eq,
    Char.le_def, UInt32.le_iff_toNat_le] at h
  simp only [isDigit, Bool.and_eq_false_iff, decide_eq_false_iff_not, Char.le_def,
    UInt32.le_iff_toNat_le]
  have hA : 'A'.val.toNat = 65 := rfl
  have ha : 'a'.val.toNat = 97 := rfl
  have h9 : '9'.val.toNat = 57 := rfl
  omega

end CharClass

/-- No name begins with a blank. -/
theorem IsName.stops (h : IsName s) : Stops CharClass.isSpace s := by
  cases s with
  | nil => exact h.elim
  | cons ch more =>
      have hletter : CharClass.isAlphanum ch = true := by
        rw [CharClass.isAlphanum, h.1, Bool.true_or]
      exact (stops_cons ..).2 (CharClass.isSpace_eq_false_of_isAlphanum hletter)

namespace Parser

open CharClass

variable {R : Type → Type} {rules : Rules R} {α : Type} {c : Cursor}
variable {F : Fault → Prop} {N : Prop}

theorem meets_satisfy {Q : Char → Cursor → Prop} (k : Char → Bool)
    (hnone : Stops k c.remaining → N)
    (hfound : ∀ ch d, c.Reads [ch] d → k ch = true → Q ch d) :
    ((satisfy k : Parser R Char).runWith rules c).Meets F N Q := by
  simp only [satisfy, runWith]
  rcases hstep : c.advance with _ | ⟨ch, d⟩
  · rw [Cursor.advance_eq_none_iff_remaining] at hstep
    exact hnone (hstep ▸ stops_nil k)
  · by_cases hk : k ch = true
    · simpa only [hk, if_true, Option.map_some, Outcome.Meets] using
        hfound ch d (Cursor.reads_of_advance hstep) hk
    · simp only [hk]
      apply hnone
      rw [Cursor.remaining_of_advance hstep, stops_cons]
      simpa using hk

theorem meets_char {Q : Char → Cursor → Prop} (x : Char)
    (hnone : c.remaining.head? ≠ some x → N) (hfound : ∀ d, c.Reads [x] d → Q x d) :
    ((char x : Parser R Char).runWith rules c).Meets F N Q := by
  refine meets_satisfy _ (fun hstops => hnone fun hhead => ?_) fun ch d hread hk => ?_
  · have := hstops x hhead
    simp at this
  · obtain rfl : ch = x := by simpa using hk
    exact hfound d hread

theorem meets_char_of_remaining {Q : Char → Cursor → Prop} {x : Char} {rest : List Char}
    (hc : c.remaining = x :: rest) (hQ : ∀ d, d.remaining = rest → Q x d) :
    ((char x : Parser R Char).runWith rules c).Meets F N Q := by
  refine meets_char x (fun hhead => ?_) fun d hread => ?_
  · exact absurd (by rw [hc, List.head?_cons]) hhead
  · have hcons := hread.remaining_eq
    rw [hc, List.singleton_append, List.cons.injEq] at hcons
    exact hQ d hcons.2.symm

theorem char_eq_none {x : Char} (h : c.remaining.head? ≠ some x) :
    (char x : Parser R Char).runWith rules c = .ok none := by
  refine Outcome.Meets.eq_none (meets_char x (fun _ => trivial) fun d hread => ?_)
  exact h (by rw [hread.remaining_eq]; rfl)

theorem meets_oneOrMore_satisfy {Q : List Char → Cursor → Prop} (k : Char → Bool)
    (hnone : Stops k c.remaining → N)
    (hfound : ∀ s d, c.Reads s d → s ≠ [] → Run k s → Stops k d.remaining → Q s d) :
    ((oneOrMore (satisfy k) : Parser R (List Char)).runWith rules c).Meets F N Q := by
  refine meets_oneOrMore_of_invariant _ (fun s d => c.Reads s d ∧ Run k s)
    ⟨.nil c, by simp [Run]⟩ fun s d hI => ?_
  refine meets_satisfy k (fun hstops => ?_) fun ch e hread hk => ?_
  · split
    · rename_i hempty
      apply hnone
      rw [hI.1.remaining_eq, hempty]
      exact hstops
    · rename_i hne
      exact hfound s d hI.1 hne hI.2 hstops
  · refine ⟨?_, hI.1.append hread, hI.2.append ?_⟩
    · have := hread.left_eq
      simp only [List.length_singleton] at this
      omega
    · simpa [Run] using hk

/-- As many characters of a class as there are: the longest run of them. -/
theorem meets_many_satisfy {Q : List Char → Cursor → Prop} (k : Char → Bool)
    (hfound : ∀ s d, c.Reads s d → Run k s → Stops k d.remaining → Q s d) :
    ((many (satisfy k) : Parser R (List Char)).runWith rules c).Meets F N Q := by
  rw [many, meets_orElse, meets_success]
  refine meets_oneOrMore_satisfy k (fun hstops => ?_) fun s d hread _ hrun hstops =>
    hfound s d hread hrun hstops
  exact hfound [] c (.nil c) (by simp [Run]) hstops

theorem meets_space {Q : Unit → Cursor → Prop}
    (hfound : ∀ s d, c.Reads s d → Blank s → Stops isSpace d.remaining → Q () d) :
    ((space : Parser R Unit).runWith rules c).Meets F N Q := by
  rw [space, void, meets_map]
  exact meets_many_satisfy isSpace hfound

theorem meets_withLocation {Q : Located α → Cursor → Prop} (p : Parser R α) :
    ((withLocation p).runWith rules c).Meets F N Q ↔
      (p.runWith rules c).Meets F N fun a d => Q ⟨a, c.location, d.location⟩ d := by
  rw [runWith_withLocation, Outcome.meets_andThen]
  rfl

/-- A token reads the blanks on both sides up to the next character. -/
theorem meets_token {Q : α → Cursor → Prop} (p : Parser R α)
    (h : ∀ s d, c.Reads s d → Blank s → Stops isSpace d.remaining →
      (p.runWith rules d).Meets F N fun a e =>
        ∀ t e', e.Reads t e' → Blank t → Stops isSpace e'.remaining → Q a e') :
    ((token p).runWith rules c).Meets F N Q := by
  rw [token, discardRight, meets_sequence, discardLeft, meets_sequence]
  apply meets_space
  intro s d hread hblank hstops
  apply (h s d hread hblank hstops).imp
  intro a e hQ
  exact meets_space fun t e' => hQ t e'

/-- Where no blank stands, a token begins at once. -/
theorem meets_token_of_stops {Q : α → Cursor → Prop} (p : Parser R α)
    (hspace : Stops isSpace c.remaining)
    (h : (p.runWith rules c).Meets F N fun a e =>
      ∀ t e', e.Reads t e' → Blank t → Stops isSpace e'.remaining → Q a e') :
    ((token p).runWith rules c).Meets F N Q := by
  apply meets_token p
  intro s d hread hblank _
  have hs : s = [] := hblank.eq_nil_of_stops (hread.remaining_eq ▸ hspace)
  subst hs
  cases hread
  exact h

theorem takeLiteral_eq_some {s : List Char} {d : Cursor} :
    takeLiteral s c = some d ↔ c.Reads s d := by
  induction s generalizing c with
  | nil =>
      constructor
      · intro h
        obtain rfl : c = d := by simpa [takeLiteral] using h
        exact .nil c
      · intro h
        cases h
        rfl
  | cons expected more ih =>
      constructor
      · intro h
        rw [takeLiteral] at h
        split at h
        · rename_i ch next hstep
          split at h
          · rename_i heq
            exact heq ▸ .cons hstep (ih.1 h)
          · simp at h
        · simp at h
      · intro h
        cases h with
        | cons first hmore => simpa [takeLiteral, first] using ih.2 hmore

theorem meets_literal {Q : String → Cursor → Prop} (s : String)
    (hnone : ¬ s.toList <+: c.remaining → N)
    (hfound : ∀ d, c.Reads s.toList d → Q s d) :
    ((literal s : Parser R String).runWith rules c).Meets F N Q := by
  simp only [runWith]
  rcases h : takeLiteral s.toList c with _ | d
  · apply hnone
    intro hprefix
    obtain ⟨rest, hrest⟩ := hprefix
    obtain ⟨d, hd, -⟩ := Cursor.exists_reads_of_remaining hrest.symm
    rw [takeLiteral_eq_some.2 hd] at h
    exact absurd h (by simp)
  · exact hfound d (takeLiteral_eq_some.1 h)

/-- A sign with blanks behind it, where no blank stands before it. -/
theorem meets_symbol_of_remaining {Q : String → Cursor → Prop} (text : String)
    {blanks rest : List Char} (hc : c.remaining = text.toList ++ (blanks ++ rest))
    (hspace : Stops isSpace c.remaining) (hblank : Blank blanks)
    (hrest : Stops isSpace rest) (hQ : ∀ d, d.remaining = rest → Q text d) :
    ((symbol text : Parser R String).runWith rules c).Meets F N Q := by
  apply meets_token_of_stops _ hspace
  refine meets_literal text (fun hno => ?_) fun d hread after e hafter hblank' hstops => ?_
  · exact absurd ⟨blanks ++ rest, hc.symm⟩ hno
  · have htext := hread.remaining_eq
    rw [hc, List.append_cancel_left_eq, hafter.remaining_eq] at htext
    exact hQ e (hblank.append_inj hblank' hrest hstops htext).2.symm

theorem symbol_eq_none (text : String) (hspace : Stops isSpace c.remaining)
    (hno : ¬ text.toList <+: c.remaining) :
    (symbol text : Parser R String).runWith rules c = .ok none := by
  refine Outcome.Meets.eq_none (meets_token_of_stops _ hspace ?_)
  apply meets_literal text (fun _ => trivial)
  intro d hread
  exact absurd ⟨d.remaining, hread.remaining_eq.symm⟩ hno

/-- A number is the longest run of digits, if that is not too long. -/
theorem meets_nat {Q : Nat → Cursor → Prop}
    (hnone : Stops isDigit c.remaining → N)
    (hexcess : ∀ run d, c.Reads run d → Run isDigit run → Stops isDigit d.remaining →
      Decimal.digitLimit < run.length → F (.tooManyDigits run.length))
    (hfound : ∀ run d, c.Reads run d → run ≠ [] → Run isDigit run →
      Stops isDigit d.remaining → run.length ≤ Decimal.digitLimit → Q (Decimal.value run) d) :
    ((nat : Parser R Nat).runWith rules c).Meets F N Q := by
  rw [nat, meets_convert]
  apply meets_oneOrMore_satisfy isDigit hnone
  intro run d hread hne hrun hstops
  by_cases hlong : Decimal.digitLimit < run.length
  · simpa only [natOfDigits, Decimal.read, hlong, if_true] using
      hexcess run d hread hrun hstops hlong
  · simpa only [natOfDigits, Decimal.read, hlong, if_false] using
      hfound run d hread hne hrun hstops (Nat.not_lt.1 hlong)

/-- A name is a letter with the longest run of letters and digits behind it. -/
theorem meets_ident {Q : String → Cursor → Prop}
    (hnone : Stops isLetter c.remaining → N)
    (hfound : ∀ ch s d, c.Reads (ch :: s) d → isLetter ch = true → Run isAlphanum s →
      Stops isAlphanum d.remaining → Q (String.ofList (ch :: s)) d) :
    ((ident : Parser R String).runWith rules c).Meets F N Q := by
  rw [ident, meets_sequence]
  apply meets_satisfy _ hnone
  intro ch d hread hletter
  apply meets_many_satisfy _
  intro s e hmore hrun hstops
  exact hfound ch s e (hread.append hmore) hletter hrun hstops

/-- The digits in front of a cursor, where no digit stands behind them. -/
theorem meets_nat_of_remaining {Q : Nat → Cursor → Prop} {digits rest : List Char}
    (hne : digits ≠ []) (hdigits : Run isDigit digits)
    (hshort : digits.length ≤ Decimal.digitLimit) (hrest : Stops isDigit rest)
    (hc : c.remaining = digits ++ rest)
    (hQ : ∀ d, d.remaining = rest → Q (Decimal.value digits) d) :
    ((nat : Parser R Nat).runWith rules c).Meets F N Q := by
  refine meets_nat (fun hstops => ?_) (fun run d hread hrun hstops hlong => ?_)
    fun run d hread _ hrun hstops _ => ?_
  · exact absurd (hdigits.eq_nil_of_stops (hc ▸ hstops)) hne
  · obtain ⟨rfl, -⟩ := hdigits.append_inj hrun hrest hstops (hc ▸ hread.remaining_eq)
    exact absurd hshort (Nat.not_le.2 hlong)
  · obtain ⟨rfl, hd⟩ := hdigits.append_inj hrun hrest hstops (hc ▸ hread.remaining_eq)
    exact hQ d hd.symm

/-- The name in front of a cursor, where no letter or digit stands behind it. -/
theorem meets_ident_of_remaining {Q : String → Cursor → Prop} {ch : Char} {more rest : List Char}
    (hletter : isLetter ch = true) (hmore : Run isAlphanum more) (hrest : Stops isAlphanum rest)
    (hc : c.remaining = ch :: more ++ rest)
    (hQ : ∀ d, d.remaining = rest → Q (String.ofList (ch :: more)) d) :
    ((ident : Parser R String).runWith rules c).Meets F N Q := by
  refine meets_ident (fun hstops => ?_) fun ch' more' d hread _ hmore' hstops => ?_
  · rw [hc, List.cons_append, stops_cons, hletter] at hstops
    exact absurd hstops (by simp)
  · have heq := hread.remaining_eq
    rw [hc, List.cons_append, List.cons_append, List.cons.injEq] at heq
    obtain ⟨rfl, heq⟩ := heq
    obtain ⟨rfl, hd⟩ := hmore.append_inj hmore' hrest hstops heq
    exact hQ d hd.symm

end Parser

end ParserKit
