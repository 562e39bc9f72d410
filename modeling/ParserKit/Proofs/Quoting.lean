import Mathlib
import ParserKit.Text.Quoted

/-!
# Quoted texts can be told apart

The characters between the quotes can be read back one by one: an escape says
which character it stands for, whatever follows it.  So two texts that are shown
alike are the same.  What is shown holds printable characters only, and with
them no line feed and no escape character.
-/

namespace ParserKit

/-- The printable characters of ASCII are one range, which begins with the blank. -/
theorem Printable.isPrintable_of_le {c : Char} (h : 32 ≤ c.toNat) (h' : c.toNat ≤ 126) :
    isPrintable c = true := by
  rw [isPrintable, ranges, inRanges, if_neg (Nat.not_lt.2 h), decide_eq_true h', Bool.true_or]

namespace Quoted

open Printable

/-! ## Code points -/

def digitValue (c : Char) : Nat :=
  if c.isDigit then c.toNat - 48 else c.toNat - 87

/-- The number that hexadecimal digits write. -/
def hexValue (digits : List Char) : Nat :=
  digits.foldl (fun n c => 16 * n + digitValue c) 0

theorem digitValue_hexDigit {n : Nat} (h : n < 16) : digitValue (hexDigit n) = n := by
  have hall : ∀ n < 16, digitValue (hexDigit n) = n := by decide
  exact hall n h

theorem isPrintable_hexDigit {n : Nat} (h : n < 16) : isPrintable (hexDigit n) = true := by
  have hall : ∀ n < 16, isPrintable (hexDigit n) = true := by decide
  exact hall n h

theorem length_hex (width n : Nat) : (hex width n).length = width := by
  induction width generalizing n with
  | zero => rfl
  | succ width ih => rw [hex, List.length_append, ih, List.length_singleton]

theorem hexValue_hex (width n : Nat) : hexValue (hex width n) = n % 16 ^ width := by
  induction width generalizing n with
  | zero => exact (Nat.mod_one n).symm
  | succ width ih =>
      have hlast : digitValue (hexDigit (n % 16)) = n % 16 :=
        digitValue_hexDigit (Nat.mod_lt n (by decide))
      rw [hex, hexValue, List.foldl_append, ← hexValue, ih, List.foldl_cons, List.foldl_nil, hlast,
        Nat.pow_succ', Nat.mod_mul, Nat.add_comm]

theorem isPrintable_of_mem_hex {width n : Nat} {c : Char} (h : c ∈ hex width n) :
    isPrintable c = true := by
  induction width generalizing n with
  | zero => cases h
  | succ width ih =>
      rw [hex, List.mem_append, List.mem_singleton] at h
      rcases h with h | rfl
      · exact ih h
      · exact isPrintable_hexDigit (Nat.mod_lt n (by decide))

/-- The character whose code point the first `width` digits write, and what stands
behind them. -/
def readCode (width : Nat) (s : List Char) : Char × List Char :=
  (Char.ofNat (hexValue (s.take width)), s.drop width)

theorem readCode_hex {width : Nat} {c : Char} (h : c.toNat < 16 ^ width) (rest : List Char) :
    readCode width (hex width c.toNat ++ rest) = (c, rest) := by
  have hlength := length_hex width c.toNat
  rw [readCode, List.take_left' hlength, List.drop_left' hlength, hexValue_hex, Nat.mod_eq_of_lt h,
    Char.ofNat_toNat]

/-! ## Escapes -/

/-- The first character between the quotes, read back, and what stands behind it. -/
def readEscape : List Char → Option (Char × List Char)
  | [] => none
  | ['\\'] => none
  | '\\' :: mark :: rest =>
      match mark with
      | 'n' => some ('\n', rest)
      | 'r' => some ('\r', rest)
      | 't' => some ('\t', rest)
      | 'x' => some (readCode 2 rest)
      | 'u' => some (readCode 4 rest)
      | 'U' => some (readCode 8 rest)
      | _ => some (mark, rest)
  | c :: rest => some (c, rest)

variable {quote c : Char} {s t : List Char}

theorem readEscape_escape (hquote : quote = '\'' ∨ quote = '"') (c : Char) (rest : List Char) :
    readEscape (escape quote c ++ rest) = some (c, rest) := by
  rw [escape]
  split_ifs with hmark hfeed hreturn htab hprintable
  · rcases hmark with rfl | rfl
    -- Neither quote is the mark of another escape.
    · rcases hquote with rfl | rfl <;> rfl
    · rfl
  · rw [hfeed]
    rfl
  · rw [hreturn]
    rfl
  · rw [htab]
    rfl
  · have hslash : c ≠ '\\' := fun h => hmark (.inr h)
    rw [List.singleton_append, readEscape]
    · exact fun h _ => hslash h
    · exact fun _ _ h _ => hslash h
  · have hcode : c.toNat < 16 ^ 8 := c.val.toNat_lt
    rw [escapeCode]
    split_ifs with htwo hfour
    · exact congrArg some (readCode_hex htwo rest)
    · exact congrArg some (readCode_hex hfour rest)
    · exact congrArg some (readCode_hex hcode rest)

theorem isPrintable_of_mem_escapeCode {n : Nat} (h : c ∈ escapeCode n) : isPrintable c = true := by
  have hmarks : ∀ mark ∈ ['\\', 'x', 'u', 'U'], isPrintable mark = true :=
    List.all_eq_true.1 (by decide)
  rw [escapeCode] at h
  split_ifs at h
  all_goals
    rw [List.mem_cons, List.mem_cons] at h
    rcases h with rfl | rfl | h
    · exact hmarks _ (by simp)
    · exact hmarks _ (by simp)
    · exact isPrintable_of_mem_hex h

theorem isPrintable_of_mem_escape (hquote : isPrintable quote = true) {shown : Char}
    (h : shown ∈ escape quote c) : isPrintable shown = true := by
  have hmarks : ∀ mark ∈ ['\\', 'n', 'r', 't'], isPrintable mark = true :=
    List.all_eq_true.1 (by decide)
  have hpair : ∀ mark ∈ ['\\', 'n', 'r', 't'], ∀ ch ∈ ['\\', mark], isPrintable ch = true := by
    intro mark hmark ch hch
    rcases List.mem_pair.1 hch with rfl | rfl
    · exact hmarks _ List.mem_cons_self
    · exact hmarks _ hmark
  rw [escape] at h
  split_ifs at h with hmark hfeed hreturn htab hprintable
  · rw [List.mem_pair] at h
    rcases h with rfl | rfl
    · exact hpair '\\' (by simp) _ (by simp)
    · rcases hmark with rfl | rfl
      · exact hquote
      · exact hpair '\\' (by simp) _ (by simp)
  · exact hpair 'n' (by simp) _ h
  · exact hpair 'r' (by simp) _ h
  · exact hpair 't' (by simp) _ h
  · rw [List.mem_singleton] at h
    exact h ▸ hprintable
  · exact isPrintable_of_mem_escapeCode h

theorem eq_of_flatMap_escape (hquote : quote = '\'' ∨ quote = '"')
    (h : s.flatMap (escape quote) = t.flatMap (escape quote)) : s = t := by
  induction s generalizing t with
  | nil =>
      cases t with
      | nil => rfl
      | cons d t =>
          have hread := congrArg readEscape h
          rw [List.flatMap_cons, readEscape_escape hquote] at hread
          cases hread
  | cons c s ih =>
      have hread := congrArg readEscape h
      cases t with
      | nil =>
          rw [List.flatMap_cons, readEscape_escape hquote] at hread
          cases hread
      | cons d t =>
          rw [List.flatMap_cons, List.flatMap_cons, readEscape_escape hquote,
            readEscape_escape hquote, Option.some.injEq, Prod.mk.injEq] at hread
          rw [hread.1, ih hread.2]

/-! ## Texts -/

theorem quoteFor_eq (s : List Char) : quoteFor s = '\'' ∨ quoteFor s = '"' := by
  rw [quoteFor]
  split
  · exact .inr rfl
  · exact .inl rfl

theorem encode_injective (h : encode s = encode t) : s = t := by
  rw [encode, encode, List.cons_append, List.cons_append, List.cons.injEq] at h
  obtain ⟨hquote, hbody⟩ := h
  rw [← hquote] at hbody
  exact eq_of_flatMap_escape (quoteFor_eq s) (List.append_cancel_right hbody)

theorem isPrintable_of_mem_encode (h : c ∈ encode s) : isPrintable c = true := by
  have hquote : isPrintable (quoteFor s) = true := by
    rcases quoteFor_eq s with hs | hs <;> rw [hs] <;> rfl
  rw [encode, List.cons_append, List.mem_cons, List.mem_append, List.mem_singleton,
    List.mem_flatMap] at h
  rcases h with rfl | ⟨d, -, h⟩ | rfl
  · exact hquote
  · exact isPrintable_of_mem_escape hquote h
  · exact hquote

/-- Texts that are shown alike are the same. -/
theorem text_injective {s t : String} (h : text s = text t) : s = t := by
  have hchars : encode s.toList = encode t.toList := String.ofList_injective h
  exact String.toList_injective (encode_injective hchars)

theorem isPrintable_of_mem_text {s : String} (h : c ∈ (text s).toList) : isPrintable c = true := by
  rw [text, String.toList_ofList] at h
  exact isPrintable_of_mem_encode h

end Quoted

end ParserKit
