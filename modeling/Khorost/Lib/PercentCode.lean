import Mathlib.Algebra.Ring.Nat
import Mathlib.Data.List.Basic

namespace PercentCode

abbrev percent : UInt8 := 37
abbrev plus : UInt8 := 43
abbrev blank : UInt8 := 32

def hexValue (c : UInt8) : Option Nat :=
  if 48 ≤ c ∧ c ≤ 57 then some (c.toNat - 48)
  else if 65 ≤ c ∧ c ≤ 70 then some (c.toNat - 55)
  else if 97 ≤ c ∧ c ≤ 102 then some (c.toNat - 87)
  else none

/-- The byte that the two hexadecimal digits at the head of a text stand for. -/
def hexByte : List UInt8 → Option UInt8
  | a :: b :: _ =>
    match hexValue a, hexValue b with
    | some x, some y => some (UInt8.ofNat (16 * x + y))
    | _, _ => none
  | _ => none

/-- The decoded text. A percent sign without two digits behind it stays. -/
def decode : List UInt8 → List UInt8
  | [] => []
  | c :: text =>
    if c = percent then
      match text with
      | a :: b :: rest =>
        match hexByte (a :: b :: rest) with
        | some byte => byte :: decode rest
        | none => c :: decode (a :: b :: rest)
      | text => c :: decode text
    else c :: decode text

theorem decode_other (h : c ≠ percent) (text : List UInt8) :
    decode (c :: text) = c :: decode text := by
  rw [decode.eq_def]
  exact if_neg h

theorem decode_escape (h : hexByte (a :: b :: text) = some byte) :
    decode (percent :: a :: b :: text) = byte :: decode text := by
  rw [decode.eq_def]
  simp only [if_true, h]

theorem decode_literal (h : hexByte text = none) :
    decode (percent :: text) = percent :: decode text := by
  rw [decode.eq_def]
  match text with
  | [] => rfl
  | [a] => rfl
  | a :: b :: text => simp only [if_true, h]

/-- The text with blanks for the pluses. -/
def blanks (text : List UInt8) : List UInt8 := text.map fun c => if c = plus then blank else c

/-- The text with escaped blanks for the pluses. -/
def escapeBlanks (text : List UInt8) : List UInt8 :=
  text.flatMap fun c => if c = plus then [percent, 50, 48] else [c]

theorem blanks_plus (text : List UInt8) : blanks (plus :: text) = blank :: blanks text := rfl

theorem blanks_other (h : c ≠ plus) (text : List UInt8) :
    blanks (c :: text) = c :: blanks text := by
  rw [blanks, List.map_cons, if_neg h]
  rfl

theorem escape_blanks_plus (text : List UInt8) :
    escapeBlanks (plus :: text) = percent :: 50 :: 48 :: escapeBlanks text := rfl

theorem escape_blanks_other (h : c ≠ plus) (text : List UInt8) :
    escapeBlanks (c :: text) = c :: escapeBlanks text := by
  rw [escapeBlanks, List.flatMap_cons, if_neg h]
  rfl

theorem hex_byte_first (h : hexValue a = none) (text : List UInt8) : hexByte (a :: text) = none := by
  cases text with
  | nil => rfl
  | cons b text => simp only [hexByte, h]

theorem hex_byte_second (a : UInt8) (h : hexValue b = none) (text : List UInt8) :
    hexByte (a :: b :: text) = none := by
  simp only [hexByte, h]
  cases hexValue a <;> rfl

/-- A plus is no digit, and neither is what is put in its place. -/
theorem hex_byte_blanks (text : List UInt8) : hexByte (blanks text) = hexByte text := by
  match text with
  | [] => rfl
  | [a] =>
    by_cases ha : a = plus
    · subst ha; rfl
    · rw [blanks_other ha]; rfl
  | a :: b :: text =>
    by_cases ha : a = plus
    · subst ha
      rw [blanks_plus, hex_byte_first rfl, hex_byte_first rfl]
    rw [blanks_other ha]
    by_cases hb : b = plus
    · subst hb
      rw [blanks_plus, hex_byte_second a rfl, hex_byte_second a rfl]
    · rw [blanks_other hb]
      rfl

theorem hex_byte_escape_blanks (text : List UInt8) :
    hexByte (escapeBlanks text) = hexByte text := by
  match text with
  | [] => rfl
  | [a] =>
    by_cases ha : a = plus
    · subst ha; rfl
    · rw [escape_blanks_other ha]; rfl
  | a :: b :: text =>
    by_cases ha : a = plus
    · subst ha
      rw [escape_blanks_plus, hex_byte_first rfl, hex_byte_first rfl]
    rw [escape_blanks_other ha]
    by_cases hb : b = plus
    · subst hb
      rw [escape_blanks_plus, hex_byte_second a rfl, hex_byte_second a rfl]
    · rw [escape_blanks_other hb]
      rfl

theorem decode_escape_blanks (text : List UInt8) :
    decode (escapeBlanks text) = decode (blanks text) := by
  induction hn : text.length using Nat.strong_induction_on generalizing text with
  | _ n ih =>
    have hshorter : ∀ s : List UInt8, s.length < text.length →
        decode (escapeBlanks s) = decode (blanks s) :=
      fun s hs => ih s.length (hn ▸ hs) s rfl
    cases text with
    | nil => rfl
    | cons c text =>
      have hrest := hshorter text (by simp)
      by_cases hplus : c = plus
      · subst hplus
        have hblank : hexByte (50 :: 48 :: escapeBlanks text) = some blank := rfl
        rw [escape_blanks_plus, blanks_plus, decode_escape hblank, hrest,
          decode_other (by decide)]
      rw [escape_blanks_other hplus, blanks_other hplus]
      by_cases hpercent : c = percent
      · subst hpercent
        cases hbyte : hexByte text with
        | none =>
          rw [decode_literal ((hex_byte_escape_blanks text).trans hbyte),
            decode_literal ((hex_byte_blanks text).trans hbyte), hrest]
        | some byte =>
          match text, hbyte with
          | a :: b :: text, hbyte =>
            have ha : a ≠ plus := by
              rintro rfl
              rw [hex_byte_first rfl] at hbyte
              cases hbyte
            have hb : b ≠ plus := by
              rintro rfl
              rw [hex_byte_second a rfl] at hbyte
              cases hbyte
            -- only the two digits are looked at
            have hdigits : ∀ rest, hexByte (a :: b :: rest) = some byte := fun _ => hbyte
            rw [escape_blanks_other ha, escape_blanks_other hb, blanks_other ha, blanks_other hb,
              decode_escape (hdigits _), decode_escape (hdigits _),
              hshorter text (by simp only [List.length_cons]; omega)]
      · rw [decode_other hpercent, decode_other hpercent, hrest]

theorem decode_length (text : List UInt8) : (decode text).length ≤ text.length := by
  fun_induction decode text with
  | case1 => exact Nat.le_refl _
  | case2 => simp only [List.length_cons] at *; omega
  | case3 => simp only [List.length_cons] at *; omega
  | case4 => simp only [List.length_cons] at *; omega
  | case5 => simp only [List.length_cons] at *; omega

theorem decode_ne_nil (h : text ≠ []) : decode text ≠ [] := by
  fun_cases decode text with
  | case1 => exact absurd rfl h
  | case2 | case3 | case4 | case5 => exact List.cons_ne_nil _ _

end PercentCode
