import Khorost.Lib.Drain
import Khorost.Net.Mail
import Mathlib.Order.Nat

namespace Khorost

open Drain

variable {msg : List (List UInt8)} {c : Nat → Nat × Nat}

/-- The calls of `payload_source` for a queue, the `n`-th with the two numbers
`c n`: each copies as many bytes as there is room for at most, and up to the first
that returns 0 they copy what the queue held. -/
structure Delivers (msg : List (List UInt8)) (c : Nat → Nat × Nat) : Prop where
  fits : ∀ n, (piece payloadSource c msg n).length ≤ (c n).1 * (c n).2
  whole : ∃ n, Ends payloadSource c msg n ∧ upTo payloadSource c msg n = msg.flatten

theorem payload_conserves : Conserves payloadSource List.flatten := by
  intro msg _
  cases msg with
  | nil => rfl
  | cons s msg => rfl

theorem before_payload (msg : List (List UInt8)) (c : Nat → Nat × Nat) (n : Nat) :
    before payloadSource c msg n = msg.drop n := by
  induction n with
  | zero => rfl
  | succ n ih =>
    rw [before, ih, ← List.drop_drop]
    cases msg.drop n with
    | nil => rfl
    | cons s msg => rfl

theorem piece_payload (msg : List (List UInt8)) (c : Nat → Nat × Nat) (n : Nat) :
    piece payloadSource c msg n = msg.getD n [] := by
  rw [piece, before_payload, List.getD_eq_getElem?_getD, ← List.head?_drop]
  cases msg.drop n with
  | nil => rfl
  | cons s msg => rfl

/-- Nothing is left behind an empty string that is the last one, if any is. -/
theorem payload_whole (h : ∀ s ∈ msg.dropLast, s ≠ []) (c : Nat → Nat × Nat) :
    ∃ n, Ends payloadSource c msg n ∧ upTo payloadSource c msg n = msg.flatten := by
  have hsome : ∃ n, piece payloadSource c msg n = [] :=
    ⟨msg.length, by simp [piece_payload]⟩
  classical
  have hnone := Nat.find_spec hsome
  refine ⟨Nat.find hsome, ⟨hnone, fun k hk => Nat.find_min hsome hk⟩, ?_⟩
  generalize Nat.find hsome = n at hnone
  have hrest := payload_conserves.up_to c msg n
  rw [before_payload] at hrest
  have hnil : (msg.drop n).flatten = [] := by
    rw [piece_payload, List.getD_eq_getElem?_getD, ← List.head?_drop] at hnone
    cases hdrop : msg.drop n with
    | nil => rfl
    | cons s rest =>
      rw [hdrop] at hnone
      obtain rfl : s = [] := hnone
      cases rest with
      | nil => rfl
      | cons t rest =>
        have hmem : [] ∈ msg.dropLast := by
          rw [← List.take_append_drop n msg, hdrop, List.dropLast_append_of_ne_nil (by simp)]
          simp
        exact absurd rfl (h [] hmem)
  rw [hrest, hnil, List.append_nil]

theorem delivers_iff (h : ∀ s ∈ msg.dropLast, s ≠ []) :
    Delivers msg c ↔ ∀ n, (msg.getD n []).length ≤ (c n).1 * (c n).2 := by
  constructor
  · intro hd n
    rw [← piece_payload msg c n]
    exact hd.fits n
  · intro hfits
    refine ⟨fun n => ?_, payload_whole h c⟩
    rw [piece_payload]
    exact hfits n

/-- A mail goes out whole and within the room there is exactly when its header
lines and its text come to calls with room for all of each. -/
theorem payload_delivers_iff (to_ from_ subject_ message_ : List UInt8) (c : Nat → Nat × Nat)
    (hc : ∀ n, 0 < (c n).1 * (c n).2) :
    Delivers (initMessage to_ from_ subject_ message_) c ↔
      to_.length + 5 ≤ (c 0).1 * (c 0).2 ∧ from_.length + 7 ≤ (c 1).1 * (c 1).2 ∧
        subject_.length + 10 ≤ (c 2).1 * (c 2).2 ∧ message_.length ≤ (c 4).1 * (c 4).2 := by
  have hlines : ∀ s ∈ (initMessage to_ from_ subject_ message_).dropLast, s ≠ [] := by
    simp [initMessage, ascii]
  rw [delivers_iff hlines]
  have hto : ((initMessage to_ from_ subject_ message_).getD 0 []).length = to_.length + 5 := by
    simp [initMessage, ascii]
  have hfrom : ((initMessage to_ from_ subject_ message_).getD 1 []).length =
      from_.length + 7 := by
    simp [initMessage, ascii]
  have hsubject : ((initMessage to_ from_ subject_ message_).getD 2 []).length =
      subject_.length + 10 := by
    simp [initMessage, ascii]
  constructor
  · intro h
    exact ⟨hto ▸ h 0, hfrom ▸ h 1, hsubject ▸ h 2, h 4⟩
  · rintro ⟨h₀, h₁, h₂, h₄⟩ n
    match n with
    | 0 => exact hto ▸ h₀
    | 1 => exact hfrom ▸ h₁
    | 2 => exact hsubject ▸ h₂
    | 3 => exact hc 3
    | 4 => exact h₄
    | n + 5 => exact Nat.zero_le _

/-- A text that just fits into the buffer of its call. -/
theorem short_mail_delivered :
    Delivers (initMessage (ascii "a@b") (ascii "c@d") (ascii "s") (List.replicate 16384 120))
      (fun _ => (1, 16384)) := by
  refine (payload_delivers_iff _ _ _ _ (fun _ => (1, 16384)) (fun _ => by decide)).mpr ?_
  rw [List.length_replicate]
  decide

/-- One byte more is written behind the end of the buffer. -/
theorem long_mail_overruns :
    ¬ ∀ to_ from_ subject_ message_ c, (∀ n, 0 < (c n).1 * (c n).2) →
      Delivers (initMessage to_ from_ subject_ message_) c := by
  intro h
  have hd := h (ascii "a@b") (ascii "c@d") (ascii "s") (List.replicate 16385 120)
    (fun _ => (1, 16384)) (fun _ => by decide)
  have hfits := hd.fits 4
  rw [piece_payload] at hfits
  have hlen : ((initMessage (ascii "a@b") (ascii "c@d") (ascii "s")
      (List.replicate 16385 120)).getD 4 []).length = 16385 := List.length_replicate
  rw [hlen] at hfits
  exact absurd hfits (by decide)

end Khorost
