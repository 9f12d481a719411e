/-
Identifier text: the trimming the program applies before it uses a name as
a key, and the decimals of a least width that it makes task names of. White
space is Unicode white space plus the four information separators, as the
source language defines it.
-/
import Mathlib

namespace HeteroSim

def isSpace (c : Char) : Bool :=
  (9 ≤ c.toNat && c.toNat ≤ 13) || (28 ≤ c.toNat && c.toNat ≤ 32) ||
    [0x85, 0xA0, 0x1680, 0x2028, 0x2029, 0x202F, 0x205F, 0x3000].contains c.toNat ||
    (0x2000 ≤ c.toNat && c.toNat ≤ 0x200A)

def stripChars (l : List Char) : List Char :=
  ((l.dropWhile isSpace).reverse.dropWhile isSpace).reverse

/-- Leading and trailing white space removed. -/
def strip (s : String) : String := String.ofList (stripChars s.toList)

theorem dropWhile_eq_self {α : Type} {p : α → Bool} {l : List α} (h : ∀ a ∈ l.head?, p a = false) :
    l.dropWhile p = l := by
  cases l with
  | nil => rfl
  | cons a l => simp [h a (by simp)]

theorem head?_dropWhile {α : Type} {p : α → Bool} (l : List α) : ∀ a ∈ (l.dropWhile p).head?, p a = false := by
  induction l with
  | nil => simp
  | cons b l ih =>
    rw [List.dropWhile_cons]
    split
    · exact ih
    · next h => simp only [List.head?_cons, Option.mem_def, Option.some.injEq]; rintro a rfl; simpa using h

theorem stripChars_stripChars (l : List Char) : stripChars (stripChars l) = stripChars l := by
  have hsuf : ∃ t, l.dropWhile isSpace = stripChars l ++ t := by
    obtain ⟨t, ht⟩ := (l.dropWhile isSpace).reverse.dropWhile_suffix isSpace
    exact ⟨t.reverse, by rw [stripChars, ← List.reverse_append, ht, List.reverse_reverse]⟩
  have hfirst : (stripChars l).dropWhile isSpace = stripChars l := by
    refine dropWhile_eq_self fun a ha => ?_
    obtain ⟨t, ht⟩ := hsuf
    refine head?_dropWhile l a ?_
    rw [ht, Option.mem_def, List.head?_append, Option.mem_def.1 ha]
    rfl
  have hlast : (stripChars l).reverse.dropWhile isSpace = (stripChars l).reverse := by
    rw [stripChars, List.reverse_reverse]
    exact dropWhile_eq_self (head?_dropWhile _)
  rw [stripChars, hfirst, hlast, List.reverse_reverse]

@[simp] theorem strip_strip (s : String) : strip (strip s) = strip s := by
  simp [strip, stripChars_stripChars]

example : strip " kv\t" = "kv" := by decide

/-! ## Decimals of a least width -/

/-- The format `{:0wd}`, of a positive width. -/
def zeroPad (width n : ℕ) : List Char :=
  let digits := (Nat.digits 10 n).reverse.map Nat.digitChar
  List.replicate (width - digits.length) '0' ++ digits

def digitValue (c : Char) : ℕ := c.toNat - '0'.toNat

theorem digitChar_digit {d : ℕ} (h : d < 10) : digitValue d.digitChar = d ∧ d.digitChar.isDigit = true := by
  interval_cases d <;> decide

theorem zeroPad_digits (width n : ℕ) : ∀ c ∈ zeroPad width n, c.isDigit = true := by
  intro c hc
  rcases List.mem_append.1 hc with hc | hc
  · rw [List.eq_of_mem_replicate hc]
    decide
  · obtain ⟨d, hd, rfl⟩ := List.mem_map.1 hc
    exact (digitChar_digit (Nat.digits_lt_base (by decide) (List.mem_reverse.1 hd))).2

/-- The characters read back as the number. -/
theorem ofDigits_zeroPad (width n : ℕ) : Nat.ofDigits 10 ((zeroPad width n).reverse.map digitValue) = n := by
  have hback : ((Nat.digits 10 n).map Nat.digitChar).map digitValue = Nat.digits 10 n := by
    rw [List.map_map]
    refine List.map_congr_left (g := id) (fun d hd => ?_) |>.trans (List.map_id _)
    exact (digitChar_digit (Nat.digits_lt_base (by decide) hd)).1
  have hzero : digitValue '0' = 0 := rfl
  rw [zeroPad, List.reverse_append, List.reverse_replicate, ← List.map_reverse, List.reverse_reverse, List.map_append,
    List.map_replicate, hback, hzero, Nat.ofDigits_append_replicate_zero, Nat.ofDigits_digits]

theorem zeroPad_injective {width m n : ℕ} (h : zeroPad width m = zeroPad width n) : m = n := by
  rw [← ofDigits_zeroPad width m, h, ofDigits_zeroPad]

end HeteroSim
