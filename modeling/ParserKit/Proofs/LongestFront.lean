import ParserKit.Proofs.Steady

/-!
# The longest accepted text

If a steady parser stops inside a text, the characters in front of that place
are a text that it accepts as a whole, and no longer text in front is one.
-/

namespace ParserKit

variable {α : Type} {F : List Char → Prop}

/-- The step reads the whole text. -/
def Accepts (step : Cursor → Outcome α) (text : String) : Prop :=
  ∃ a d, step (.start text) = .ok (some (a, d)) ∧ d.remaining = []

/-- Of the accepted texts that `text` begins with, `front` is the longest. -/
structure LongestFront (Accepted : String → Prop) (text front : String) : Prop where
  begins : front.toList <+: text.toList
  accepted : Accepted front
  longest : ∀ other : String, other.toList <+: text.toList → Accepted other →
    other.length ≤ front.length

/-- The text begins with no accepted text. -/
def NoFront (Accepted : String → Prop) (text : String) : Prop :=
  ∀ front : String, front.toList <+: text.toList → ¬ Accepted front

theorem LongestFront.not_noFront {Accepted : String → Prop} {text front : String}
    (h : LongestFront Accepted text front) : ¬ NoFront Accepted text :=
  fun hno => hno front h.begins h.accepted

/-- The end of the longest accepted text in front, or the start if there is none. -/
def EndsLongest (Accepted : String → Prop) (text : String) (place : Location) : Prop :=
  (∃ front, LongestFront Accepted text front ∧
    place = front.toList.foldl Location.after .start) ∨
  NoFront Accepted text ∧ place = .start

variable {step : Cursor → Outcome α} {text : String}

/-- Where an accepted text goes on, the step reads at least that text. -/
theorem Steady.meets_start (h : Steady F step) (hmoves : Moves step) {front : String}
    {rest : List Char} (hfront : text.toList = front.toList ++ rest)
    (haccepts : Accepts step front) :
    (step (.start text)).Meets (fun _ => ¬ F rest) False fun _ d => d.remaining <:+ rest := by
  obtain ⟨a, e, hrun, hend⟩ := haccepts
  obtain ⟨s, hread⟩ := hmoves.reaches hrun
  have hs : s = front.toList := by
    calc
      s = s ++ e.remaining := by rw [hend, List.append_nil]
      _ = (Cursor.start front).remaining := hread.remaining_eq.symm
      _ = front.toList := Cursor.remaining_start front
  have hstart : (Cursor.start text).remaining = s ++ rest := by
    rw [Cursor.remaining_start, hfront, hs]
  exact (h hrun hread hstart).imp fun _ _ hd => hd.1

/-- What stands in front of the place where the step stops is accepted. -/
theorem Steady.accepts_of_reads (h : Steady F step) (hF : F []) {a : α} {d : Cursor}
    {s : List Char} (hrun : step (.start text) = .ok (some (a, d)))
    (hread : (Cursor.start text).Reads s d) : Accepts step (String.ofList s) := by
  have hstart : (Cursor.start (String.ofList s)).remaining = s ++ [] := by
    rw [Cursor.remaining_start, String.toList_ofList, List.append_nil]
  have hagain := h hrun hread hstart
  rcases hrun' : step (.start (String.ofList s)) with fault | (_ | ⟨b, e⟩)
  · rw [hrun'] at hagain
    exact absurd hF hagain
  · rw [hrun'] at hagain
    exact hagain.elim
  · rw [hrun'] at hagain
    exact ⟨b, e, hrun', hagain.2 hF⟩

/-- A steady parser stops behind the longest text in front that it accepts. -/
theorem Steady.longestFront (h : Steady F step) (hF : F []) (hmoves : Moves step)
    (text : String) :
    (step (.start text)).Meets (fun _ => True) (NoFront (Accepts step) text) fun _ d =>
      LongestFront (Accepts step) text (String.ofList (text.toList.take d.offset)) ∧
        d.location = (text.toList.take d.offset).foldl Location.after .start := by
  rcases hrun : step (.start text) with fault | (_ | ⟨a, d⟩)
  · trivial
  · rintro front ⟨rest, hrest⟩ haccepts
    have hmeets := h.meets_start hmoves hrest.symm haccepts
    rwa [hrun] at hmeets
  · obtain ⟨s, hread⟩ := hmoves.reaches hrun
    have htext : text.toList = s ++ d.remaining := by
      rw [← hread.remaining_eq, Cursor.remaining_start]
    have htake : text.toList.take d.offset = s := by
      have hoffset : d.offset = s.length := hread.offset_eq.trans (Nat.zero_add _)
      rw [hoffset, htext, List.take_left]
    rw [Outcome.Meets, htake]
    refine ⟨⟨?_, h.accepts_of_reads hF hrun hread, ?_⟩, hread.location_eq⟩
    · rw [String.toList_ofList]
      exact ⟨d.remaining, htext.symm⟩
    · rintro other ⟨rest, hrest⟩ haccepts
      have hmeets := h.meets_start hmoves hrest.symm haccepts
      rw [hrun] at hmeets
      have hshorter : d.remaining.length ≤ rest.length := hmeets.length_le
      have hlengths := congrArg List.length (htext.symm.trans hrest.symm)
      rw [List.length_append, List.length_append] at hlengths
      rw [← String.length_toList, ← String.length_toList, String.toList_ofList]
      omega

end ParserKit
