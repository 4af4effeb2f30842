import Mathlib.Algebra.Ring.Int.Defs
import Mathlib.Algebra.Ring.Nat
import Mathlib.Data.List.TakeWhile

namespace Khorost

/-- The bytes of a string literal of the source. -/
def ascii (s : String) : List UInt8 := s.toList.map (fun c => UInt8.ofNat c.toNat)

abbrev nul : UInt8 := 0
abbrev lf : UInt8 := 10
abbrev cr : UInt8 := 13
abbrev space : UInt8 := 32
abbrev quote : UInt8 := 34
abbrev ampersand : UInt8 := 38
abbrev colon : UInt8 := 58
abbrev semicolon : UInt8 := 59
abbrev equals : UInt8 := 61
abbrev question : UInt8 := 63

/-- The C string at the head of a piece of memory. -/
def cStr (memory : List UInt8) : List UInt8 := memory.takeWhile (· ≠ nul)

/-- `tolower` in the C locale. -/
def toLower (b : UInt8) : UInt8 := if 65 ≤ b ∧ b ≤ 90 then b + 32 else b

/-- `strcasecmp(a, b) == 0`: each text counts up to its first NUL. -/
def strcaseEq (a b : List UInt8) : Bool := (cStr a).map toLower == (cStr b).map toLower

def isSpace (b : UInt8) : Bool := b == space || (9 ≤ b && b ≤ 13)

def isDigit (b : UInt8) : Bool := 48 ≤ b && b ≤ 57

def digitsValue (s : List UInt8) : Nat := s.foldl (fun n b => 10 * n + (b.toNat - 48)) 0

/-- `strtol(s, NULL, 10)`, which stops at the limits of a 64-bit `long`. -/
def strtol (s : List UInt8) : Int :=
  let s := s.dropWhile isSpace
  let (negative, s) := match s with
    | 45 :: s => (true, s)
    | 43 :: s => (false, s)
    | s => (false, s)
  let value : Int := digitsValue (s.takeWhile isDigit)
  if negative then max (-value) (-2 ^ 63) else min value (2 ^ 63 - 1)

/-- `atoi`: the low 32 bits of `strtol`, as a signed number. -/
def atoi (s : List UInt8) : Int := (strtol s).bmod (2 ^ 32)

/-- Conversion of a signed number to `size_t`. -/
def sizeT (n : Int) : Nat := (n % 2 ^ 64).toNat

/-- `static_cast<size_t>(-1)` and `std::string::npos`. -/
def npos : Nat := 2 ^ 64 - 1

/-- A number written in decimal. -/
structure Decimal (s : List UInt8) (n : Nat) : Prop where
  nonempty : s ≠ []
  digits : ∀ c ∈ s, isDigit c = true
  value : digitsValue s = n

/-- A terminated string stands at a position of the filled part of a buffer. -/
def StrAt (content : List UInt8) (position : Nat) (s : List UInt8) : Prop :=
  ∃ before after, content = before ++ s ++ nul :: after ∧ before.length = position ∧ nul ∉ s

/-- What is filled in later, behind the terminator, does not change the string. -/
theorem StrAt.extend (h : StrAt content position s) (more : List UInt8) :
    StrAt (content ++ more) position s := by
  obtain ⟨before, after, rfl, hp, hs⟩ := h
  exact ⟨before, after ++ more, by simp, hp, hs⟩

theorem c_str_terminated (hs : nul ∉ s) (rest : List UInt8) : cStr (s ++ nul :: rest) = s := by
  have hne : ∀ x ∈ s, decide (x ≠ nul) = true := by
    intro x hx
    exact decide_eq_true (fun he => hs (he ▸ hx))
  rw [cStr, List.takeWhile_append_of_pos hne, List.takeWhile_cons_of_neg (by simp), List.append_nil]

/-- A text without a terminator in it is read to its end. -/
theorem c_str_self (hs : nul ∉ s) : cStr s = s := by
  rw [cStr, List.takeWhile_eq_self_iff]
  intro x hx
  exact decide_eq_true (fun he => hs (he ▸ hx))

theorem strcase_clear (ha : nul ∉ a) (hb : nul ∉ b) :
    strcaseEq a b = (a.map toLower == b.map toLower) := by
  rw [strcaseEq, c_str_self ha, c_str_self hb]

theorem c_str_clear (s : List UInt8) : nul ∉ cStr s := by
  intro h
  simpa using List.mem_takeWhile_imp h

/-- Reading at the position gives the string, whatever stands behind the fill. -/
theorem StrAt.read (h : StrAt content position s) (stale : List UInt8) :
    cStr ((content ++ stale).drop position) = s := by
  obtain ⟨before, after, rfl, rfl, hs⟩ := h
  simp only [List.append_assoc, List.drop_left]
  exact c_str_terminated hs _

/-- A terminated text is the string at its head and that string's terminator. -/
theorem c_str_split (x rest : List UInt8) : ∃ after, x ++ nul :: rest = cStr x ++ nul :: after := by
  induction x with
  | nil => exact ⟨rest, rfl⟩
  | cons c cs ih =>
    by_cases hc : c = nul
    · exact ⟨cs ++ nul :: rest, by simp [cStr, hc]⟩
    · obtain ⟨after, ha⟩ := ih
      exact ⟨after, by simpa [cStr, hc] using ha⟩

/-- Every position of a terminated text begins a string that ends inside it. -/
theorem StrAt.of_text (x rest : List UInt8) (h : position ≤ x.length) :
    StrAt (x ++ nul :: rest) position (cStr (x.drop position)) := by
  obtain ⟨after, ha⟩ := c_str_split (x.drop position) rest
  refine ⟨x.take position, after, ?_, by simp [h], c_str_clear _⟩
  rw [List.append_assoc, ← ha, ← List.append_assoc, List.take_append_drop]

theorem digit_bounds (h : isDigit c = true) : 48 ≤ c.toNat ∧ c.toNat ≤ 57 := by
  simp only [isDigit, Bool.and_eq_true, decide_eq_true_eq, UInt8.le_iff_toNat_le] at h
  exact h

theorem digit_not_space (h : isDigit c = true) : isSpace c = false := by
  obtain ⟨hl, hu⟩ := digit_bounds h
  simp only [isSpace, Bool.or_eq_false_iff, beq_eq_false_iff_ne, ne_eq, Bool.and_eq_false_iff,
    decide_eq_false_iff_not, UInt8.le_iff_toNat_le, ← UInt8.toNat_inj]
  have : (13 : UInt8).toNat = 13 := rfl
  have : space.toNat = 32 := rfl
  omega

/-- A decimal number below 2^31 survives `atoi` and the conversion to `size_t`. -/
theorem size_atoi_decimal (h : Decimal s n) (hn : n < 2 ^ 31) : sizeT (atoi s) = n := by
  obtain ⟨hne, hd, rfl⟩ := h
  have hspace : s.dropWhile isSpace = s := by
    cases s with
    | nil => rfl
    | cons c s => simp [digit_not_space (hd c (by simp))]
  have hdigits : s.takeWhile isDigit = s := List.takeWhile_eq_self_iff.mpr hd
  have hsign : strtol s = min (digitsValue s : Int) (2 ^ 63 - 1) := by
    cases s with
    | nil => exact absurd rfl hne
    | cons c s =>
      obtain ⟨hl, hu⟩ := digit_bounds (hd c (by simp))
      have h1 : c ≠ 45 := by
        rintro rfl
        revert hl
        decide
      have h2 : c ≠ 43 := by
        rintro rfl
        revert hl
        decide
      simp only [strtol, hspace]
      split
      · rename_i heq
        exact absurd (List.cons.inj heq).1 h1
      · rename_i heq
        exact absurd (List.cons.inj heq).1 h2
      · rw [hdigits]
        rfl
  have hmod : (strtol s).bmod (2 ^ 32) = digitsValue s := by
    rw [hsign, Int.min_eq_left (by omega)]
    exact Int.bmod_eq_of_le (by omega) (by omega)
  rw [atoi, hmod, sizeT]
  omega

end Khorost
