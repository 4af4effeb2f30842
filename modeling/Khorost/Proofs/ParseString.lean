import Mathlib.Data.List.Forall2
import Khorost.Net.Http

namespace Khorost

/-- Where a name stands in a text, behind its spaces if it is trimmed. -/
def trimmed (trim : Bool) (text : List UInt8) (k : Nat) : Nat :=
  if trim then k + ((text.drop k).takeWhile (· = space)).length else k

/-- `parse_string` on a text without NUL, of which `done` has been gone through:
the text with its separators overwritten, and the positions found in it. -/
def splitText (div : UInt8) (trim : Bool) :
    List UInt8 → List UInt8 → Nat → Option Nat → List UInt8 × ListPairs
  | [], done, k, v => (done, [(trimmed trim done k, v)])
  | c :: rest, done, k, v =>
    if c = div then
      let (text, pairs) := splitText div trim rest (done ++ [nul]) (done.length + 1) none
      (text, (trimmed trim done k, v) :: pairs)
    else if c = equals then splitText div trim rest (done ++ [nul]) k (some (done.length + 1))
    else splitText div trim rest (done ++ [c]) k v

def movePair (shift : Nat) (p : Nat × Option Nat) : Nat × Option Nat := 
  (shift + p.1, p.2.map (shift + ·))

theorem spaces_at (text after : List UInt8) (c : UInt8) (hc : c ≠ space) :
    spacesAt (text ++ c :: after) = some (text.takeWhile (· = space)).length := by
  induction text with
  | nil => simp [spacesAt, hc]
  | cons d text ih =>
    by_cases hd : d = space
    · simp [spacesAt, hd, ih]
    · simp [spacesAt, hd]

/-- The trim loop stops at the latest at the byte behind the text. -/
theorem name_position (b : AutoBuffer UInt8) (trim : Bool) (before done after : List UInt8)
    (c : UInt8) (hb : b.buffer = before ++ done ++ c :: after) (hc : c ≠ space)
    (hk : k ≤ done.length) :
    namePosition b trim (before.length + k) = some (before.length + trimmed trim done k) := by
  unfold namePosition trimmed
  split
  · have hdrop : b.buffer.drop (before.length + k) = done.drop k ++ c :: after := by
      rw [hb, List.append_assoc, ← List.drop_drop, List.drop_left, List.drop_append_of_le_length hk]
    rw [hdrop, spaces_at _ _ c hc, Option.map_some, Nat.add_assoc]
  · rfl

theorem text_at (before done rest : List UInt8) (c : UInt8) :
    (before ++ done ++ c :: rest)[before.length + done.length]? = some c := by
  rw [← List.length_append]
  simp

theorem text_set (b : AutoBuffer UInt8) (before done rest after : List UInt8) (c d : UInt8)
    (hb : b.buffer = before ++ done ++ (c :: rest) ++ nul :: after) :
    (b.set (before.length + done.length) d).buffer =
      before ++ (done ++ [d]) ++ rest ++ nul :: after := by
  have hlen : before.length + done.length = (before ++ done).length := by simp
  simp only [AutoBuffer.set, hb]
  rw [List.append_assoc, List.cons_append, hlen, List.set_append_right _ _ (Nat.le_refl _),
    Nat.sub_self]
  simp

/-- `parse_string` on a terminated text inside a buffer: what it writes and what
it returns depend on the text alone. -/
theorem parse_loop_text (div : UInt8) (trim : Bool) (rest before after : List UInt8)
    (hn : nul ∉ rest) (size : Nat) (b : AutoBuffer UInt8) (done : List UInt8) (k : Nat)
    (v : Option Nat) (target : ListPairs)
    (hb : b.buffer = before ++ done ++ rest ++ nul :: after) (hs : rest.length < size)
    (hk : k ≤ done.length) :
    ∃ b', parseLoop div trim size b (before.length + done.length) (before.length + k)
        (v.map (before.length + ·)) target =
          some (b', target ++ (splitText div trim rest done k v).2.map (movePair before.length)) ∧
      b'.buffer = before ++ (splitText div trim rest done k v).1 ++ nul :: after ∧
      b'.readyPosition = b.readyPosition := by
  induction rest generalizing size b done k v target with
  | nil =>
    obtain ⟨size, rfl⟩ : ∃ n, size = n + 1 := ⟨size - 1, by omega⟩
    rw [List.append_nil] at hb
    have hat : b.buffer[before.length + done.length]? = some nul := by rw [hb, text_at]
    have hname := name_position b trim before done after nul hb (by decide) hk
    refine ⟨b, ?_, hb, rfl⟩
    rw [parseLoop, hat]
    simp only [Option.bind_eq_bind, Option.bind_some, if_true, hname, splitText, List.map_cons,
      List.map_nil, movePair]
  | cons c rest ih =>
    obtain ⟨size, rfl⟩ : ∃ n, size = n + 1 := ⟨size - 1, by omega⟩
    have hc : c ≠ nul := fun he => hn (by simp [he])
    have hrest : nul ∉ rest := fun he => hn (List.mem_cons_of_mem c he)
    have hs : rest.length < size := Nat.lt_of_succ_lt_succ hs
    have hat : b.buffer[before.length + done.length]? = some c := by
      rw [hb, List.append_assoc, List.cons_append, text_at]
    -- what the rest of the loop does once the byte `c` has become `d`
    have later : ∀ (b₁ : AutoBuffer UInt8) (d : UInt8) k v target,
        b₁.buffer = before ++ (done ++ [d]) ++ rest ++ nul :: after →
        b₁.readyPosition = b.readyPosition → k ≤ done.length + 1 →
        ∃ b', parseLoop div trim size b₁ (before.length + done.length + 1) (before.length + k)
            (v.map (before.length + ·)) target = some (b', target ++
              (splitText div trim rest (done ++ [d]) k v).2.map (movePair before.length)) ∧
          b'.buffer =
            before ++ (splitText div trim rest (done ++ [d]) k v).1 ++ nul :: after ∧
          b'.readyPosition = b.readyPosition := by
      intro b₁ d k v target hb₁ hr hk
      have h := ih hrest size b₁ (done ++ [d]) k v target hb₁ hs (by simpa using hk)
      rwa [List.length_append, List.length_singleton, ← Nat.add_assoc, hr] at h
    have hset := text_set b before done rest after c nul hb
    rw [parseLoop, hat]
    simp only [Option.bind_eq_bind, Option.bind_some, hc, if_false, splitText]
    by_cases hd : c = div
    · have hname := name_position (b.set (before.length + done.length) nul) trim before done
        (rest ++ nul :: after) nul (by rw [hset]; simp) (by decide) hk
      obtain ⟨b', he, hb', hr⟩ := later _ nul (done.length + 1) none
        (target ++ [movePair before.length (trimmed trim done k, v)]) hset rfl (Nat.le_refl _)
      refine ⟨b', ?_, ?_, hr⟩
      · simp only [hd, if_true, hname, Option.bind_some, List.map_cons]
        rw [List.append_assoc] at he
        exact he
      · simpa only [hd, if_true] using hb'
    · simp only [hd, if_false]
      by_cases heq : c = equals
      · simp only [heq, if_true]
        exact later _ nul k (some (done.length + 1)) target hset rfl (by omega)
      · simp only [heq, if_false]
        exact later b c k v target (by rw [hb]; simp) rfl (by omega)

theorem trimmed_le (trim : Bool) (text : List UInt8) (h : k ≤ text.length) :
    trimmed trim text k ≤ text.length := by
  unfold trimmed
  split
  · have := (List.takeWhile_sublist (fun x : UInt8 => decide (x = space)) (l := text.drop k)).length_le
    rw [List.length_drop] at this
    omega
  · exact h

theorem split_text_length (div : UInt8) (trim : Bool) (rest done : List UInt8) (k : Nat)
    (v : Option Nat) : (splitText div trim rest done k v).1.length = done.length + rest.length := by
  induction rest generalizing done k v with
  | nil => simp [splitText]
  | cons c rest ih =>
    simp only [splitText]
    split
    · rw [ih]
      simp
      omega
    · split
      · rw [ih]
        simp
        omega
      · rw [ih]
        simp
        omega

/-- Every position found lies in the text or at its end. -/
theorem split_text_bounds (div : UInt8) (trim : Bool) (rest done : List UInt8) (k : Nat)
    (v : Option Nat) (hk : k ≤ done.length) (hv : ∀ i ∈ v, i ≤ done.length) :
    ∀ p ∈ (splitText div trim rest done k v).2,
      p.1 ≤ done.length + rest.length ∧ ∀ i ∈ p.2, i ≤ done.length + rest.length := by
  induction rest generalizing done k v with
  | nil =>
    intro p hp
    obtain rfl : p = (trimmed trim done k, v) := by simpa [splitText] using hp
    exact ⟨trimmed_le trim done hk, hv⟩
  | cons c rest ih =>
    have hlen : ∀ d : UInt8, (done ++ [d]).length + rest.length =
        done.length + (c :: rest).length := by
      intro d
      simp
      omega
    have hgrow : ∀ d : UInt8, done.length ≤ (done ++ [d]).length := by simp
    intro p hp
    simp only [splitText] at hp
    split at hp
    · rcases List.mem_cons.mp hp with rfl | hp
      · have := trimmed_le trim done hk
        refine ⟨by dsimp only; omega, fun i hi => ?_⟩
        have := hv i hi
        omega
      · rw [← hlen nul]
        exact ih (done ++ [nul]) _ none (by simp) (by simp) p hp
    · split at hp
      · rw [← hlen nul]
        exact ih (done ++ [nul]) k _ (hk.trans (hgrow nul)) (by simp) p hp
      · rw [← hlen c]
        exact ih (done ++ [c]) k v (hk.trans (hgrow c)) (fun i hi => (hv i hi).trans (hgrow c)) p hp

/-- The names and values that `parse_string` finds in a text. -/
def pairsOf (div : UInt8) (trim : Bool) (text : List UInt8) :
    List (List UInt8 × Option (List UInt8)) :=
  let (written, pairs) := splitText div trim text [] 0 none
  pairs.map (fun p => (cStr (written.drop p.1), p.2.map (fun i => cStr (written.drop i))))

/-- The positions of a pair are strings of the buffer. -/
def ShowsPair (content : List UInt8) (p : Nat × Option Nat)
    (s : List UInt8 × Option (List UInt8)) : Prop :=
  StrAt content p.1 s.1 ∧ Option.Rel (StrAt content) p.2 s.2

theorem ShowsPair.extend (h : ShowsPair content p s) (more : List UInt8) :
    ShowsPair (content ++ more) p s := by
  obtain ⟨k, v⟩ := p
  obtain ⟨name, value⟩ := s
  obtain ⟨hn, hv⟩ := h
  refine ⟨hn.extend more, ?_⟩
  cases hv with
  | some hv => exact .some (hv.extend more)
  | none => exact .none

theorem parse_string_text (div : UInt8) (trim : Bool) (b : AutoBuffer UInt8)
    (before text after : List UInt8) (hb : b.buffer = before ++ text ++ nul :: after)
    (hn : nul ∉ text) (size : Nat) (hs : text.length < size) (target : ListPairs) :
    ∃ b' pairs, parseString b size before.length target div trim = some (b', target ++ pairs) ∧
      b'.buffer = before ++ (splitText div trim text [] 0 none).1 ++ nul :: after ∧
      b'.readyPosition = b.readyPosition ∧
      ∀ more, List.Forall₂
        (ShowsPair (before ++ (splitText div trim text [] 0 none).1 ++ nul :: more)) pairs
        (pairsOf div trim text) := by
  obtain ⟨b', he, hb', hr⟩ := parse_loop_text div trim text before after hn size b [] 0 none target
    (by simpa using hb) hs (Nat.le_refl 0)
  refine ⟨b', _, he, hb', hr, fun more => ?_⟩
  have hbounds := split_text_bounds div trim text [] 0 none (Nat.le_refl 0) (by simp)
  have hlen := split_text_length div trim text [] 0 none
  simp only [pairsOf]
  generalize (splitText div trim text [] 0 none).1 = written at *
  generalize (splitText div trim text [] 0 none).2 = pairs at *
  have str : ∀ i, i ≤ written.length →
      StrAt (before ++ written ++ nul :: more) (before.length + i) (cStr (written.drop i)) := by
    intro i hi
    have h : StrAt _ (before.length + i) _ :=
      StrAt.of_text (before ++ written) more (by rw [List.length_append]; omega)
    rwa [← List.drop_drop, List.drop_left] at h
  rw [List.forall₂_map_left_iff, List.forall₂_map_right_iff, List.forall₂_same]
  intro p hp
  obtain ⟨h1, h2⟩ := hbounds p hp
  rw [← hlen] at h1 h2
  refine ⟨str p.1 h1, ?_⟩
  obtain ⟨k, v⟩ := p
  cases v with
  | none => exact .none
  | some i => exact .some (str i (h2 i rfl))

end Khorost
