import Khorost.Net.Connection

namespace Khorost

/-- The results of a call in two runs: both fail, both take as much and go on, or
what matters of the two has been settled. -/
inductive Paired (I : σ → List UInt8 → σ → List UInt8 → Prop) (J : σ → σ → Prop)
    (p p' : List UInt8) : Option (σ × Nat) → Option (σ × Nat) → Prop
  | fault : Paired I J p p' none none
  | goes (hn : n ≤ p.length) (hI : I d (p.drop n) d' (p'.drop n)) :
      Paired I J p p' (some (d, n)) (some (d', n))
  | settled (hJ : J d d') : Paired I J p p' (some (d, n)) (some (d', n'))

variable {σ : Type} {I : σ → List UInt8 → σ → List UInt8 → Prop} {J : σ → σ → Prop}
  {P : σ → List UInt8 → List UInt8 → Prop} {dp : DataProcessing σ}

theorem Paired.imp {I' : σ → List UInt8 → σ → List UInt8 → Prop} {r r' : Option (σ × Nat)}
    (h : Paired I J p p' r r') (hI : ∀ d q d' q', I d q d' q' → I' d q d' q') :
    Paired I' J p p' r r' := by
  cases h with
  | fault => exact .fault
  | goes hn h => exact .goes hn (hI _ _ _ _ h)
  | settled hJ => exact .settled hJ

/-- Where two compile loops stand. -/
inductive PairedLoops (I : σ → List UInt8 → σ → List UInt8 → Prop) (J : σ → σ → Prop)
    (p p' : List UInt8) (s : Nat) : σ × Option Nat → σ × Option Nat → Prop
  | fault (hI : I d q d' q') : PairedLoops I J p p' s (d, none) (d', none)
  | stop (hn : n ≤ p.length) (hI : I d (p.drop n) d' (p'.drop n)) :
      PairedLoops I J p p' s (d, some (s + n)) (d', some (s + n))
  | settled (hJ : J r.1 r'.1) : PairedLoops I J p p' s r r'

theorem PairedLoops.earlier {p p' : List UInt8} {r r' : σ × Option Nat} (hk : k ≤ p.length)
    (h : PairedLoops I J (p.drop k) (p'.drop k) (s + k) r r') : PairedLoops I J p p' s r r' := by
  cases h with
  | fault hI => exact .fault hI
  | @stop n _ _ hn hI =>
    rw [List.drop_drop, List.drop_drop] at hI
    rw [List.length_drop] at hn
    rw [Nat.add_assoc]
    exact .stop (by omega) hI
  | settled hJ => exact .settled hJ

theorem read_loop {c : Connection σ} {data : List UInt8} (hfault : c.fault = false)
    (hdata : data ≠ []) (he : compileLoop dp (Connection.readInto c.socketBuffer data).buffer
      (c.socketBuffer.content ++ data).length (c.socketBuffer.content ++ data).length 0 c.derived =
        r) :
    (c.stubConnRead dp data).derived = r.1 ∧
      (r.2 = none → (c.stubConnRead dp data).fault = true) ∧
      ∀ n, r.2 = some n → n ≤ (c.socketBuffer.content ++ data).length →
        (c.stubConnRead dp data).fault = false ∧
        (c.stubConnRead dp data).socketBuffer.content = (c.socketBuffer.content ++ data).drop n := by
  obtain ⟨d, result⟩ := r
  have hfill := (Connection.readInto c.socketBuffer data).content_length
  rw [Connection.read_into_content] at hfill
  have hsize : data.length ≠ 0 := fun h => hdata (List.eq_nil_of_length_eq_zero h)
  rw [hfill] at he
  have hread : c.stubConnRead dp data = Connection.compileBufferData dp { c with
      socketBuffer := Connection.readInto c.socketBuffer data
      receiveBytes := c.receiveBytes + data.length } := by
    simp [Connection.stubConnRead, hfault, hsize]
  rw [hread]
  simp only [Connection.compileBufferData, he]
  cases result with
  | none => exact ⟨rfl, fun _ => rfl, fun n h => (by cases h)⟩
  | some s =>
    refine ⟨rfl, fun h => (by cases h), fun n h hn => ⟨hfault, ?_⟩⟩
    obtain rfl := Option.some.inj h
    rw [AutoBuffer.content_cut _ (hfill ▸ hn), Connection.read_into_content]

section

variable (len : ∀ d p d' p', I d p d' p' → p.length = p'.length)
  (left : ∀ d d' m k e n, J d d' → dp d m k = some (e, n) → J e d')
  (right : ∀ d d' m k e n, J d d' → dp d' m k = some (e, n) → J d e)

include len left right

/-- Two loops over as many bytes, call by call: their calls have the property `P`. -/
theorem loops_paired (stale stale' : List UInt8)
    (step : ∀ d p d' p', I d p d' p' → p ≠ [] → P d p stale → P d' p' stale' →
      Paired I J p p' (dp d (p ++ stale) p.length) (dp d' (p' ++ stale') p'.length))
    {memory memory' p p' : List UInt8} (hm : memory.drop s = p ++ stale)
    (hm' : memory'.drop s = p' ++ stale') (hf : p.length ≤ fuel)
    (hc : LoopCalls P dp memory (s + p.length) fuel s d)
    (hc' : LoopCalls P dp memory' (s + p.length) fuel s d') (hI : I d p d' p') :
    PairedLoops I J p p' s (compileLoop dp memory (s + p.length) fuel s d)
      (compileLoop dp memory' (s + p.length) fuel s d') := by
  induction fuel generalizing s d d' p p' with
  | zero =>
    have hstop := PairedLoops.stop (J := J) (s := s) (Nat.zero_le p.length) (n := 0) hI
    exact hstop
  | succ fuel ih =>
    by_cases hp : p = []
    · have hstop := PairedLoops.stop (J := J) (s := s) (Nat.zero_le p.length) (n := 0) hI
      simpa [compileLoop, hp] using hstop
    · have hlen := len d p d' p' hI
      have hpos : 0 < p.length := List.length_pos_iff.mpr hp
      obtain ⟨hP, hrest⟩ := hc (by omega)
      obtain ⟨hP', hrest'⟩ := hc' (by omega)
      rw [← List.take_drop, hm, List.take_left, ← List.drop_drop, hm, List.drop_left] at hP
      rw [← List.take_drop, hm', hlen, List.take_left, ← List.drop_drop, hm', List.drop_left] at hP'
      have hcall := step d p d' p' hI hp hP hP'
      rw [← hlen] at hcall
      rw [hm, Nat.add_sub_cancel_left] at hrest
      rw [hm', Nat.add_sub_cancel_left] at hrest'
      rw [compileLoop, if_pos (by omega), hm, Nat.add_sub_cancel_left, compileLoop,
        if_pos (by omega), hm', Nat.add_sub_cancel_left]
      generalize hr : dp d (p ++ stale) p.length = r at hcall ⊢
      generalize hr' : dp d' (p' ++ stale') p.length = r' at hcall ⊢
      cases hcall with
      | fault => exact .fault hI
      | settled hJ =>
        refine .settled ?_
        dsimp only
        split <;> split
        · exact hJ
        · exact compile_loop_keep (fun _ _ _ _ _ hJ he => right _ _ _ _ _ _ hJ he) _ _ _ _ _ hJ
        · exact compile_loop_keep (J := fun e => J e _)
            (fun _ _ _ _ _ hJ he => left _ _ _ _ _ _ hJ he) _ _ _ _ _ hJ
        · exact compile_loop_keep (J := fun e => J e _)
            (fun _ _ _ _ _ hJ he => left _ _ _ _ _ _ hJ he) _ _ _ _ _
            (compile_loop_keep (fun _ _ _ _ _ hJ he => right _ _ _ _ _ _ hJ he) _ _ _ _ _ hJ)
      | @goes n d₁ d₁' hn hI₁ =>
        dsimp only
        by_cases hzero : n = 0
        · subst hzero
          rw [if_pos rfl, if_pos rfl]
          exact .stop (n := 0) hn hI₁
        · rw [if_neg hzero, if_neg hzero]
          have hfill : s + p.length = s + n + (p.drop n).length := by
            rw [List.length_drop]
            omega
          have hdrop : memory.drop (s + n) = p.drop n ++ stale := by
            rw [← List.drop_drop, hm, List.drop_append_of_le_length hn]
          have hdrop' : memory'.drop (s + n) = p'.drop n ++ stale' := by
            rw [← List.drop_drop, hm', List.drop_append_of_le_length (by omega)]
          have hcalls := hrest d₁ n hr hzero
          have hcalls' := hrest' d₁' n hr' hzero
          rw [hfill] at hcalls hcalls' ⊢
          exact (ih hdrop hdrop' (by rw [List.length_drop]; omega) hcalls hcalls' hI₁).earlier hn

/-- Where two connections stand behind an arrival each. -/
inductive PairedConnections (I : σ → List UInt8 → σ → List UInt8 → Prop) (J : σ → σ → Prop)
    (c c' : Connection σ) : Prop
  | fault (hf : c.fault = true) (hf' : c'.fault = true) (hI : I c.derived q c'.derived q')
  | going (hf : c.fault = false) (hf' : c'.fault = false)
      (hI : I c.derived c.socketBuffer.content c'.derived c'.socketBuffer.content)
  | settled (hJ : J c.derived c'.derived)

theorem reads_paired {c c' : Connection σ} {data data' : List UInt8} (stale stale' : List UInt8)
    (hstale : stale = (Connection.readInto c.socketBuffer data).stale)
    (hstale' : stale' = (Connection.readInto c'.socketBuffer data').stale)
    (step : ∀ d p d' p', I d p d' p' → p ≠ [] → P d p stale → P d' p' stale' →
      Paired I J p p' (dp d (p ++ stale) p.length) (dp d' (p' ++ stale') p'.length))
    (hfault : c.fault = false) (hfault' : c'.fault = false) (hdata : data ≠ []) (hdata' : data' ≠ [])
    (hc : c.ReadCalls P dp data) (hc' : c'.ReadCalls P dp data')
    (hI : I c.derived (c.socketBuffer.content ++ data) c'.derived
      (c'.socketBuffer.content ++ data')) :
    PairedConnections I J (c.stubConnRead dp data) (c'.stubConnRead dp data') := by
  have hb := (Connection.readInto c.socketBuffer data).buffer_split
  have hb' := (Connection.readInto c'.socketBuffer data').buffer_split
  have hlen := len _ _ _ _ hI
  have hcalls := hc hfault fun h => hdata (List.eq_nil_of_length_eq_zero h)
  have hcalls' := hc' hfault' fun h => hdata' (List.eq_nil_of_length_eq_zero h)
  dsimp only at hcalls hcalls'
  rw [← AutoBuffer.content_length, Connection.read_into_content,
    ← Nat.zero_add (List.length _)] at hcalls
  rw [← AutoBuffer.content_length, Connection.read_into_content, ← hlen,
    ← Nat.zero_add (List.length _)] at hcalls'
  rw [← hstale, Connection.read_into_content] at hb
  rw [← hstale', Connection.read_into_content] at hb'
  have hloops := loops_paired len left right stale stale' step (s := 0) hb hb'
    (Nat.zero_add _ ▸ Nat.le_refl _) hcalls hcalls' hI
  rw [Nat.zero_add] at hloops
  generalize he : compileLoop dp (Connection.readInto c.socketBuffer data).buffer _ _ 0 c.derived =
    r at hloops
  rw [hlen] at hloops
  generalize he' : compileLoop dp (Connection.readInto c'.socketBuffer data').buffer _ _ 0
    c'.derived = r' at hloops
  obtain ⟨hd, hnone, hsome⟩ := read_loop hfault hdata he
  obtain ⟨hd', hnone', hsome'⟩ := read_loop hfault' hdata' he'
  cases hloops with
  | fault hI₁ => exact .fault (hnone rfl) (hnone' rfl) (by rw [hd, hd']; exact hI₁)
  | @stop n _ _ hn hI₁ =>
    obtain ⟨hf, hcontent⟩ := hsome n (by rw [Nat.zero_add]) hn
    obtain ⟨hf', hcontent'⟩ := hsome' n (by rw [Nat.zero_add]) (hlen ▸ hn)
    exact .going hf hf' (by rw [hd, hd', hcontent, hcontent']; exact hI₁)
  | settled hJ => exact .settled (by rw [hd, hd']; exact hJ)

end

end Khorost
