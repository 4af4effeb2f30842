import Mathlib.Data.List.Induction
import Khorost.Lib.Incremental
import Khorost.Net.CompactBinary

namespace Khorost.Packets

open Incremental

/-- The reference reading of one packet: the sign, size and type in network
order, and as many bytes of payload as the size says. -/
def nextPacket (sign : UInt8) : List UInt8 → Option ((UInt16 × List UInt8) × List UInt8)
  | s :: s₁ :: s₀ :: t₁ :: t₀ :: rest =>
    if s = sign ∧ 256 * s₁.toNat + s₀.toNat ≤ rest.length then
      some ((UInt16.ofNat (256 * t₁.toNat + t₀.toNat), rest.take (256 * s₁.toNat + s₀.toNat)),
        rest.drop (256 * s₁.toNat + s₀.toNat))
    else none
  | _ => none

theorem next_packet_some (h : nextPacket sign p = some (k, rest)) :
    ∃ s₁ s₀ t₁ t₀, p = sign :: s₁ :: s₀ :: t₁ :: t₀ :: (k.2 ++ rest) ∧
      k.2.length = 256 * s₁.toNat + s₀.toNat ∧
      k.1 = UInt16.ofNat (256 * t₁.toNat + t₀.toNat) := by
  unfold nextPacket at h
  split at h
  · rename_i s s₁ s₀ t₁ t₀ tail
    split at h
    · rename_i hs
      obtain ⟨rfl, hle⟩ := hs
      simp only [Option.some.injEq, Prod.mk.injEq] at h
      obtain ⟨rfl, rfl⟩ := h
      refine ⟨s₁, s₀, t₁, t₀, ?_, ?_, rfl⟩
      · rw [List.take_append_drop]
      · rw [List.length_take, Nat.min_eq_left hle]
    · cases h
  · cases h

theorem next_packet_whole (sign s₁ s₀ t₁ t₀ : UInt8) (payload rest : List UInt8)
    (hl : payload.length = 256 * s₁.toNat + s₀.toNat) :
    nextPacket sign (sign :: s₁ :: s₀ :: t₁ :: t₀ :: (payload ++ rest)) =
      some ((UInt16.ofNat (256 * t₁.toNat + t₀.toNat), payload), rest) := by
  have hle : payload.length ≤ (payload ++ rest).length := by
    rw [List.length_append]
    omega
  simp only [nextPacket, ← hl, hle, and_self, if_true, List.take_left, List.drop_left]

/-- Packets are taken one after the other off the head of the stream. -/
def packetFraming (sign : UInt8) : Framing UInt8 (UInt16 × List UInt8) where
  next := nextPacket sign
  shrinks := by
    intro bs k rest h
    obtain ⟨s₁, s₀, t₁, t₀, rfl, -, -⟩ := next_packet_some h
    simp only [List.length_cons, List.length_append]
    omega
  stable := by
    intro bs k rest more h
    obtain ⟨s₁, s₀, t₁, t₀, rfl, hl, hk⟩ := next_packet_some h
    obtain ⟨type, payload⟩ := k
    obtain rfl : type = _ := hk
    have hw := next_packet_whole sign s₁ s₀ t₁ t₀ payload (rest ++ more) hl
    simpa using hw

def packets (sign : UInt8) (stream : List UInt8) : List (UInt16 × List UInt8) :=
  ((packetFraming sign).items stream).1

/-- A packet goes to its handler; one of an unregistered type goes nowhere. -/
def handle (commands : ProcessCommandCB κ) (d : Dispatch κ) (k : UInt16 × List UInt8) :
    Dispatch κ :=
  match commands k.1 with
  | some f => d.call f k.1 k.2
  | none => d

def registered (commands : ProcessCommandCB κ) (k : UInt16 × List UInt8) : Bool :=
  (commands k.1).isSome

theorem handle_calls (commands : ProcessCommandCB κ) (d : Dispatch κ)
    (ks : List (UInt16 × List UInt8)) :
    (ks.foldl (handle commands) d).calls = d.calls ++ ks.filter (registered commands) := by
  induction ks generalizing d with
  | nil => simp
  | cons k ks ih =>
    rw [List.foldl_cons, ih, List.filter_cons]
    cases hk : commands k.1 with
    | none => simp [handle, registered, hk]
    | some f => simp [handle, registered, hk, Dispatch.call]

theorem loop_packet (commands : ProcessCommandCB κ) (d : Dispatch κ) (stale : List UInt8)
    (h : nextPacket sign p = some (k, rest)) :
    ∃ size, p.length = size + rest.length ∧ p.drop size = rest ∧ 0 < size ∧ ∀ fuel n,
      processLoop sign commands (fuel + 1) d ⟨p ++ stale, p.length⟩ n =
        match commands k.1 with
        | some f =>
          processLoop sign commands fuel (d.call f k.1 k.2) ⟨rest ++ stale, rest.length⟩ (n + size)
        | none => some (d, n + size) := by
  obtain ⟨s₁, s₀, t₁, t₀, rfl, hl, hk⟩ := next_packet_some h
  refine ⟨5 + k.2.length, by simp; omega, ?_, by omega, ?_⟩
  · rw [Nat.add_comm]
    exact List.drop_left
  intro fuel n
  have hhead : getHeaderSize ≤ (sign :: s₁ :: s₀ :: t₁ :: t₀ :: (k.2 ++ rest)).length := by
    simp [getHeaderSize]
  have hsize : (ntohs (UInt16.ofNat (Bytes.leValue [s₁, s₀]))).toNat = k.2.length := by
    rw [ntohs_read, two_bytes_to_nat, hl]
  have htype : ntohs (UInt16.ofNat (Bytes.leValue [t₁, t₀])) = k.1 := by
    rw [ntohs_read, hk]
  have hfit : k.2.length ≤ (k.2 ++ rest).length := by simp
  have hn : n + getHeaderSize + k.2.length = n + (5 + k.2.length) := by
    simp only [getHeaderSize]
    omega
  rw [processLoop, if_pos hhead, Input.read_buffer8_cons]
  cases hcommand : commands k.1 <;>
    simp only [Option.bind_eq_bind, Option.bind_some, if_true, Input.read_buffer16_cons, hsize,
      htype, hfit, Input.read_buffer_append, hn, hcommand]

/-- Where no whole packet stands at the head, the loop ends. -/
theorem loop_end (commands : ProcessCommandCB κ) (d : Dispatch κ) (stale : List UInt8)
    (h : nextPacket sign p = none) (fuel n : Nat) :
    processLoop sign commands fuel d ⟨p ++ stale, p.length⟩ n = some (d, n) := by
  cases fuel with
  | zero => rfl
  | succ fuel =>
    rw [processLoop]
    match p, h with
    | [], _ | [_], _ | [_, _], _ | [_, _, _], _ | [_, _, _, _], _ =>
      rw [if_neg (by simp [getHeaderSize])]
    | s :: s₁ :: s₀ :: t₁ :: t₀ :: rest, h =>
      rw [if_pos (by simp [getHeaderSize]), Input.read_buffer8_cons]
      simp only [Option.bind_eq_bind, Option.bind_some, Input.read_buffer16_cons, ntohs_read,
        two_bytes_to_nat]
      by_cases hs : s = sign
      · have hle : ¬ 256 * s₁.toNat + s₀.toNat ≤ rest.length := by
          intro hle
          simp [nextPacket, hs, hle] at h
        rw [if_pos hs, if_neg hle]
      · rw [if_neg hs]

/-- One call takes whole packets off the head and hands them on. It takes no
bytes only when no whole packet stands there. -/
theorem loop_spec (commands : ProcessCommandCB κ) (stale : List UInt8) (fuel : Nat)
    (d : Dispatch κ) (p : List UInt8) (n : Nat) (hf : p.length ≤ fuel) :
    ∃ ks taken, processLoop sign commands fuel d ⟨p ++ stale, p.length⟩ n =
        some (ks.foldl (handle commands) d, n + taken) ∧
      taken ≤ p.length ∧
      (packetFraming sign).items p =
        (ks ++ ((packetFraming sign).items (p.drop taken)).1,
          ((packetFraming sign).items (p.drop taken)).2) ∧
      (taken = 0 → nextPacket sign p = none) := by
  induction fuel generalizing d p n with
  | zero =>
    obtain rfl : p = [] := List.eq_nil_of_length_eq_zero (Nat.le_zero.mp hf)
    exact ⟨[], 0, rfl, Nat.le_refl 0, rfl, fun _ => rfl⟩
  | succ fuel ih =>
    cases h : nextPacket sign p with
    | none => exact ⟨[], 0, loop_end commands d stale h _ _, Nat.zero_le _, rfl, fun _ => rfl⟩
    | some r =>
      obtain ⟨k, rest⟩ := r
      obtain ⟨size, hlen, hdrop, hpos, hpass⟩ := loop_packet commands d stale h
      have hitems := Framing.items_some (F := packetFraming sign) h
      rw [hpass]
      cases hk : commands k.1 with
      | none =>
        refine ⟨[k], size, by simp [handle, hk], by omega, ?_, by omega⟩
        rw [hitems, hdrop]
        rfl
      | some f =>
        obtain ⟨ks, taken, he, hle, hrest, -⟩ := ih (d.call f k.1 k.2) rest (n + size) (by omega)
        refine ⟨k :: ks, size + taken, ?_, by omega, ?_, by omega⟩
        · simp only [he, List.foldl_cons, handle, hk, Nat.add_assoc]
        · rw [hitems, hrest, ← List.drop_drop, hdrop]
          rfl

/-- A call that takes no bytes has found no whole packet. -/
theorem takes_none {commands : ProcessCommandCB κ} {d d' : Dispatch κ}
    (h : doProcessCB sign commands d (p ++ stale) p.length = some (d', 0)) :
    nextPacket sign p = none := by
  obtain ⟨ks, taken, he, -, -, hnone⟩ := loop_spec commands stale p.length d p 0 (Nat.le_refl _)
  rw [doProcessCB, he] at h
  simp only [Option.some.injEq, Prod.mk.injEq] at h
  exact hnone (by omega)

/-- After any arrivals the packets of the whole stream have been handled, and
the socket buffer holds what is left of it. -/
theorem reads_spec (sign : UInt8) (commands : ProcessCommandCB κ) (fresh : Nat → UInt8)
    (d : Dispatch κ) (segments : List (List UInt8)) :
    let c := (Connection.idle fresh d).reads (doProcessCB sign commands) segments
    c.fault = false ∧
      c.derived = (packets sign segments.flatten).foldl (handle commands) d ∧
      c.socketBuffer.content = ((packetFraming sign).items segments.flatten).2 := by
  induction segments using List.reverseRecOn with
  | nil => simp [Connection.reads, Connection.idle, packets]
  | append_singleton segments data ih =>
    rw [Connection.reads_append]
    generalize (Connection.idle fresh d).reads (doProcessCB sign commands) segments = c at ih ⊢
    obtain ⟨hfault, hderived, hcontent⟩ := ih
    rw [List.flatten_append, List.flatten_singleton]
    have hone : c.reads (doProcessCB sign commands) [data] =
        c.stubConnRead (doProcessCB sign commands) data := rfl
    rw [hone]
    by_cases hdata : data = []
    · subst hdata
      have hskip : c.stubConnRead (doProcessCB sign commands) [] = c := by
        simp [Connection.stubConnRead]
      rw [hskip, List.append_nil]
      exact ⟨hfault, hderived, hcontent⟩
    · let I : Dispatch κ → List UInt8 → Prop := fun d' p => ∃ ks,
        d' = ks.foldl (handle commands) d ∧
        (packetFraming sign).items (segments.flatten ++ data) =
          (ks ++ ((packetFraming sign).items p).1, ((packetFraming sign).items p).2)
      have step : ∀ d' p, I d' p → p ≠ [] → ∃ d'' n,
          doProcessCB sign commands d'
            (p ++ (Connection.readInto c.socketBuffer data).stale) p.length = some (d'', n) ∧
          ((n ≤ p.length ∧ I d'' (p.drop n)) ∨ False) := by
        rintro d' p ⟨ks, rfl, hks⟩ -
        obtain ⟨ks', taken, he, hle, hitems, -⟩ :=
          loop_spec commands (Connection.readInto c.socketBuffer data).stale p.length
            (ks.foldl (handle commands) d) p 0 (Nat.le_refl _)
        refine ⟨_, _, he, .inl ⟨by omega, ks ++ ks', List.foldl_append.symm, ?_⟩⟩
        rw [hks, hitems, Nat.zero_add, List.append_assoc]
      have hI : I c.derived (c.socketBuffer.content ++ data) := by
        refine ⟨packets sign segments.flatten, hderived, ?_⟩
        rw [hcontent]
        exact (Framing.feed_items _ segments.flatten data).symm
      rcases read_rule (J := fun _ => False) _ rfl step (by simp) hfault hdata hI with
        ⟨hf, ⟨ks, hd, hks⟩, hexit⟩ | hJ
      · have hnone : nextPacket sign (c.stubConnRead (doProcessCB sign commands)
            data).socketBuffer.content = none := by
          rcases hexit with he | ⟨d₀, -, he⟩
          · rw [he]
            rfl
          · exact takes_none he
        rw [Framing.items_none (F := packetFraming sign) hnone, List.append_nil] at hks
        rw [packets, hks]
        exact ⟨hf, hd, rfl⟩
      · exact hJ.elim

/-- However a stream is cut into reads, the handlers are called for the packets
of its reference parse that have one, in order and once each. -/
theorem segmented_calls (sign : UInt8) (commands : ProcessCommandCB κ) (context : κ)
    (fresh : Nat → UInt8) (segments : List (List UInt8)) :
    let c := (Connection.idle fresh ⟨context, []⟩).reads (doProcessCB sign commands) segments
    c.fault = false ∧
      c.derived.calls = (packets sign segments.flatten).filter (registered commands) := by
  obtain ⟨hf, hd, -⟩ := reads_spec sign commands fresh ⟨context, []⟩ segments
  refine ⟨hf, ?_⟩
  rw [hd, handle_calls]
  rfl

end Khorost.Packets
