import Khorost.Util.AutoBuffer

namespace Khorost

/-- `connection`; the fields of the derived class are `derived`. `fault` is set
once the code has read outside its memory: nothing is said of what follows. -/
structure Connection (σ : Type) where
  socketBuffer : AutoBuffer UInt8
  receiveBytes : Nat
  fault : Bool
  derived : σ

/-- `data_processing` of a derived class: the memory from the buffer pointer on,
the buffer size, and the number of bytes reported as processed. The memory goes
on behind the buffer; `none` is a read outside it. -/
abbrev DataProcessing (σ : Type) := σ → List UInt8 → Nat → Option (σ × Nat)

/-- The loop of `compile_buffer_data`. Every pass that goes on moves `s` by at
least one byte, so the fill size bounds the number of passes. -/
def compileLoop (dataProcessing : DataProcessing σ) (memory : List UInt8) (fillSize : Nat) :
    Nat → Nat → σ → σ × Option Nat
  | 0, s, derived => (derived, some s)
  | fuel + 1, s, derived =>
    if s < fillSize then
      match dataProcessing derived (memory.drop s) (fillSize - s) with
      | none => (derived, none)
      | some (derived, processedBytes) =>
        if processedBytes = 0 then (derived, some s)
        else compileLoop dataProcessing memory fillSize fuel (s + processedBytes) derived
    else (derived, some s)

namespace Connection

/-- A connection on which nothing has arrived yet. -/
def idle (fresh : Nat → UInt8) (derived : σ) : Connection σ :=
  ⟨AutoBuffer.empty fresh, 0, false, derived⟩

def compileBufferData (dataProcessing : DataProcessing σ) (c : Connection σ) : Connection σ :=
  let b := c.socketBuffer
  match compileLoop dataProcessing b.buffer b.fillSize b.fillSize 0 c.derived with
  | (derived, none) => { c with derived := derived, fault := true }
  | (derived, some s) => { c with derived := derived, socketBuffer := b.cutFromHead s }

theorem compile_buffer_derived (dp : DataProcessing σ) (c : Connection σ) :
    (c.compileBufferData dp).derived = (compileLoop dp c.socketBuffer.buffer
      c.socketBuffer.fillSize c.socketBuffer.fillSize 0 c.derived).1 := by
  rw [compileBufferData]
  split <;> rename_i he <;> rw [he]

/-- `bufferevent_read` into the free part that `check_size` has provided. -/
def readInto (b : AutoBuffer UInt8) (data : List UInt8) : AutoBuffer UInt8 :=
  ((b.checkSize (b.fillSize + data.length)).writeFree data
    (b.check_size_full data.length)).decrementFreeSize data.length

/-- `stub_conn_read`, with the bytes that are waiting on the socket. -/
def stubConnRead (dataProcessing : DataProcessing σ) (c : Connection σ) (data : List UInt8) :
    Connection σ :=
  if c.fault then c
  else if data.length ≠ 0 then
    compileBufferData dataProcessing { c with
      socketBuffer := readInto c.socketBuffer data
      receiveBytes := c.receiveBytes + data.length }
  else c

/-- A run of the connection: one `stub_conn_read` for each arrival. -/
def reads (dataProcessing : DataProcessing σ) (c : Connection σ) (arrivals : List (List UInt8)) :
    Connection σ :=
  arrivals.foldl (stubConnRead dataProcessing) c

theorem reads_append (dp : DataProcessing σ) (c : Connection σ) (xs ys : List (List UInt8)) :
    reads dp c (xs ++ ys) = reads dp (reads dp c xs) ys := List.foldl_append

@[simp] theorem read_into_content (b : AutoBuffer UInt8) (data : List UInt8) :
    (readInto b data).content = b.content ++ data := by
  rw [readInto, AutoBuffer.content_write_free, AutoBuffer.content_check_size]

end Connection

/-- What every call of `data_processing` keeps, the loop keeps. -/
theorem compile_loop_keep {J : σ → Prop} {dp : DataProcessing σ}
    (keep : ∀ d m k d' n, J d → dp d m k = some (d', n) → J d')
    (memory : List UInt8) (fill fuel s : Nat) (d : σ) (hJ : J d) :
    J (compileLoop dp memory fill fuel s d).1 := by
  induction fuel generalizing s d with
  | zero => exact hJ
  | succ fuel ih =>
    unfold compileLoop
    split
    · cases hd : dp d (memory.drop s) (fill - s) with
      | none => exact hJ
      | some r =>
        have hr := keep d _ _ r.1 r.2 hJ hd
        dsimp only
        split
        · exact hr
        · exact ih _ _ hr
    · exact hJ

theorem read_keep {J : σ → Prop} {dp : DataProcessing σ}
    (keep : ∀ d m k d' n, J d → dp d m k = some (d', n) → J d') (c : Connection σ)
    (data : List UInt8) (hJ : J c.derived) : J (c.stubConnRead dp data).derived := by
  unfold Connection.stubConnRead
  split
  · exact hJ
  · split
    · rw [Connection.compile_buffer_derived]
      exact compile_loop_keep keep _ _ _ _ _ hJ
    · exact hJ

theorem reads_keep {J : σ → Prop} {dp : DataProcessing σ}
    (keep : ∀ d m k d' n, J d → dp d m k = some (d', n) → J d') (c : Connection σ)
    (arrivals : List (List UInt8)) (hJ : J c.derived) : J (c.reads dp arrivals).derived := by
  induction arrivals generalizing c with
  | nil => exact hJ
  | cons data arrivals ih => exact ih _ (read_keep keep c data hJ)

/-- `P` holds of every call of `data_processing` that the compile loop makes: of
the state in front of it, of the data, and of the memory behind them. -/
def LoopCalls (P : σ → List UInt8 → List UInt8 → Prop) (dp : DataProcessing σ)
    (memory : List UInt8) (fillSize : Nat) : Nat → Nat → σ → Prop
  | 0, _, _ => True
  | fuel + 1, s, d => s < fillSize →
      P d ((memory.take fillSize).drop s) (memory.drop fillSize) ∧
      ∀ d' n, dp d (memory.drop s) (fillSize - s) = some (d', n) → n ≠ 0 →
        LoopCalls P dp memory fillSize fuel (s + n) d'

/-- `P` holds of every call that one arrival leads to. -/
def Connection.ReadCalls (P : σ → List UInt8 → List UInt8 → Prop) (dp : DataProcessing σ)
    (c : Connection σ) (data : List UInt8) : Prop :=
  c.fault = false → data.length ≠ 0 →
    let b := readInto c.socketBuffer data
    LoopCalls P dp b.buffer b.fillSize b.fillSize 0 c.derived

/-- `P` holds of every call that the arrivals of a run lead to. -/
def Connection.RunCalls (P : σ → List UInt8 → List UInt8 → Prop) (dp : DataProcessing σ) :
    Connection σ → List (List UInt8) → Prop
  | _, [] => True
  | c, data :: arrivals => c.ReadCalls P dp data ∧ RunCalls P dp (c.stubConnRead dp data) arrivals

theorem LoopCalls.of_all {P : σ → List UInt8 → List UInt8 → Prop} {dp : DataProcessing σ}
    (hP : ∀ d p stale, P d p stale) (memory : List UInt8) (fill fuel s : Nat) (d : σ) :
    LoopCalls P dp memory fill fuel s d := by
  induction fuel generalizing s d with
  | zero => trivial
  | succ fuel ih => exact fun _ => ⟨hP _ _ _, fun _ _ _ _ => ih _ _⟩

/-- A property that is only asked for under `g`. -/
theorem Connection.ReadCalls.guard {g : Prop} {P : σ → List UInt8 → List UInt8 → Prop}
    {dp : DataProcessing σ} {c : Connection σ} {data : List UInt8}
    (h : g → c.ReadCalls P dp data) : c.ReadCalls (fun d p stale => g → P d p stale) dp data := by
  by_cases hg : g
  · simpa only [hg, forall_const] using h hg
  · exact fun _ _ => LoopCalls.of_all (fun _ _ _ h0 => absurd h0 hg) _ _ _ _ _

/-- What every call with the property keeps, a loop keeps whose calls have it. -/
theorem LoopCalls.keep {J : σ → Prop} {P : σ → List UInt8 → List UInt8 → Prop}
    {dp : DataProcessing σ} (keep : ∀ d p stale d' n, J d → P d p stale →
      dp d (p ++ stale) p.length = some (d', n) → J d')
    {memory : List UInt8} {fill : Nat} (hfill : fill ≤ memory.length) {fuel s : Nat} {d : σ}
    (hc : LoopCalls P dp memory fill fuel s d) (hJ : J d) :
    J (compileLoop dp memory fill fuel s d).1 := by
  induction fuel generalizing s d with
  | zero => exact hJ
  | succ fuel ih =>
    unfold compileLoop
    split
    · rename_i hs
      obtain ⟨hP, hnext⟩ := hc hs
      have hmemory : (memory.take fill).drop s ++ memory.drop fill = memory.drop s := by
        rw [← List.drop_append_of_le_length (by rw [List.length_take]; omega),
          List.take_append_drop]
      have hsize : ((memory.take fill).drop s).length = fill - s := by
        rw [List.length_drop, List.length_take, Nat.min_eq_left hfill]
      cases hd : dp d (memory.drop s) (fill - s) with
      | none => exact hJ
      | some r =>
        have hr := keep d _ _ r.1 r.2 hJ hP (by rw [hmemory, hsize]; exact hd)
        dsimp only
        split
        · exact hr
        · rename_i hn
          exact ih (hnext r.1 r.2 hd hn) hr
    · exact hJ

/-- A loop whose first call takes all of the data makes no other. -/
theorem LoopCalls.once {P : σ → List UInt8 → List UInt8 → Prop} {dp : DataProcessing σ}
    {d : σ} {p stale : List UInt8} (hP : P d p stale)
    (hall : ∀ d' n, dp d (p ++ stale) p.length = some (d', n) → n = p.length) (fuel : Nat) :
    LoopCalls P dp (p ++ stale) p.length fuel 0 d := by
  cases fuel with
  | zero => trivial
  | succ fuel =>
    intro _
    refine ⟨by rwa [List.take_left, List.drop_left], fun d' n he _ => ?_⟩
    obtain rfl := hall d' n he
    cases fuel with
    | zero => trivial
    | succ fuel => exact fun hs => absurd hs (by rw [Nat.zero_add]; exact Nat.lt_irrefl _)

theorem Connection.ReadCalls.keep {J : σ → Prop} {P : σ → List UInt8 → List UInt8 → Prop}
    {dp : DataProcessing σ} (keep : ∀ d p stale d' n, J d → P d p stale →
      dp d (p ++ stale) p.length = some (d', n) → J d')
    {c : Connection σ} {data : List UInt8} (hc : c.ReadCalls P dp data) (hJ : J c.derived) :
    J (c.stubConnRead dp data).derived := by
  unfold stubConnRead
  split
  · exact hJ
  · rename_i hfault
    split
    · rename_i hdata
      have hcalls := hc (Bool.eq_false_iff.mpr hfault) hdata
      have hfill : (readInto c.socketBuffer data).fillSize ≤
        (readInto c.socketBuffer data).buffer.length := AutoBuffer.ready_le _
      rw [compile_buffer_derived]
      exact hcalls.keep keep hfill hJ
    · exact hJ

theorem Connection.RunCalls.keep {J : σ → Prop} {P : σ → List UInt8 → List UInt8 → Prop}
    {dp : DataProcessing σ} (keep : ∀ d p stale d' n, J d → P d p stale →
      dp d (p ++ stale) p.length = some (d', n) → J d')
    {c : Connection σ} {arrivals : List (List UInt8)} (hc : c.RunCalls P dp arrivals)
    (hJ : J c.derived) : J (c.reads dp arrivals).derived := by
  induction arrivals generalizing c with
  | nil => exact hJ
  | cons data arrivals ih => exact ih hc.2 (hc.1.keep keep hJ)

/-- The calls of a loop that does on a part of the state what another loop does. -/
theorem LoopCalls.lift {f : τ → σ} {P : σ → List UInt8 → List UInt8 → Prop}
    {dp : DataProcessing σ} {dp' : DataProcessing τ}
    (hpart : ∀ d m k d' n, dp' d m k = some (d', n) → n ≠ 0 → dp (f d) m k = some (f d', n))
    {memory : List UInt8} {fill fuel s : Nat} {d : τ} (hc : LoopCalls P dp memory fill fuel s (f d)) :
    LoopCalls (fun d => P (f d)) dp' memory fill fuel s d := by
  induction fuel generalizing s d with
  | zero => trivial
  | succ fuel ih =>
    intro hs
    obtain ⟨hP, hnext⟩ := hc hs
    exact ⟨hP, fun d' n he hn => ih (hnext (f d') n (hpart d _ _ d' n he hn) hn)⟩

/-- What the compile loop leaves behind whose calls all have the property `P`. `I` speaks
of the state and the bytes not yet processed: one call of `data_processing` keeps it or
reaches `J`, which later calls keep. `stale` is the memory behind the buffer. -/
theorem compile_loop_rule {I : σ → List UInt8 → Prop} {J : σ → Prop}
    {P : σ → List UInt8 → List UInt8 → Prop} {dp : DataProcessing σ} (stale : List UInt8)
    (step : ∀ d p, I d p → p ≠ [] → P d p stale → ∃ d' n, dp d (p ++ stale) p.length = some (d', n) ∧
      ((n ≤ p.length ∧ I d' (p.drop n)) ∨ J d'))
    (keep : ∀ d m k d' n, J d → dp d m k = some (d', n) → J d')
    (fuel s : Nat) (d : σ) (memory p : List UInt8) (hm : memory.drop s = p ++ stale)
    (hf : p.length ≤ fuel) (hc : LoopCalls P dp memory (s + p.length) fuel s d) (hI : I d p) :
    (∃ d' n, compileLoop dp memory (s + p.length) fuel s d = (d', some (s + n)) ∧
      n ≤ p.length ∧ I d' (p.drop n) ∧ (p.drop n = [] ∨ ∃ d₀, I d₀ (p.drop n) ∧
        P d₀ (p.drop n) stale ∧
        dp d₀ (p.drop n ++ stale) (p.drop n).length = some (d', 0))) ∨
    J (compileLoop dp memory (s + p.length) fuel s d).1 := by
  induction fuel generalizing s d p with
  | zero =>
    obtain rfl : p = [] := List.eq_nil_of_length_eq_zero (Nat.le_zero.mp hf)
    exact .inl ⟨d, 0, rfl, Nat.le_refl 0, hI, .inl rfl⟩
  | succ fuel ih =>
    by_cases hp : p = []
    · subst hp
      exact .inl ⟨d, 0, by simp [compileLoop], Nat.le_refl 0, hI, .inl rfl⟩
    · have hpos : 0 < p.length := List.length_pos_iff.mpr hp
      obtain ⟨hP, hcalls⟩ := hc (by omega)
      rw [← List.take_drop, hm, List.take_left, ← List.drop_drop, hm, List.drop_left] at hP
      obtain ⟨d', n, hd, hcase⟩ := step d p hI hp hP
      have hloop : compileLoop dp memory (s + p.length) (fuel + 1) s d =
          if n = 0 then (d', some s) else compileLoop dp memory (s + p.length) fuel (s + n) d' := by
        rw [compileLoop, if_pos (by omega), hm, Nat.add_sub_cancel_left, hd]
      rw [hloop]
      by_cases hn : n = 0
      · subst hn
        rw [if_pos rfl]
        rcases hcase with ⟨hle, hI'⟩ | hJ
        · exact .inl ⟨d', 0, rfl, hle, hI', .inr ⟨d, hI, hP, hd⟩⟩
        · exact .inr hJ
      · rw [if_neg hn]
        rcases hcase with ⟨hle, hI'⟩ | hJ
        · have hfill : s + p.length = s + n + (p.drop n).length := by
            rw [List.length_drop]
            omega
          have hm' : memory.drop (s + n) = p.drop n ++ stale := by
            rw [← List.drop_drop, hm, List.drop_append_of_le_length hle]
          have hrest := hcalls d' n (by rw [hm, Nat.add_sub_cancel_left]; exact hd) hn
          rw [hfill] at hrest ⊢
          rcases ih (s + n) d' (p.drop n) hm' (by rw [List.length_drop]; omega) hrest hI' with
            ⟨d'', k, he, hk, hI'', hexit⟩ | hJ
          · rw [List.drop_drop] at hI'' hexit
            rw [List.length_drop] at hk
            exact .inl ⟨d'', n + k, by rw [he, Nat.add_assoc], by omega, hI'', hexit⟩
          · exact .inr hJ
        · exact .inr (compile_loop_keep keep _ _ _ _ _ hJ)

/-- The same for one arrival: `I` of the bytes waiting in the buffer with the new
ones behind them gives `I` of what is left, unless `J` has been reached. What
is left is empty, or a call of `data_processing` took nothing of it. -/
theorem read_calls_rule {I : σ → List UInt8 → Prop} {J : σ → Prop}
    {P : σ → List UInt8 → List UInt8 → Prop} {dp : DataProcessing σ} {c : Connection σ}
    {data : List UInt8} (stale : List UInt8)
    (hstale : stale = (Connection.readInto c.socketBuffer data).stale)
    (step : ∀ d p, I d p → p ≠ [] → P d p stale → ∃ d' n,
      dp d (p ++ stale) p.length = some (d', n) ∧ ((n ≤ p.length ∧ I d' (p.drop n)) ∨ J d'))
    (keep : ∀ d m k d' n, J d → dp d m k = some (d', n) → J d')
    (hfault : c.fault = false) (hdata : data ≠ []) (hc : c.ReadCalls P dp data)
    (hI : I c.derived (c.socketBuffer.content ++ data)) :
    ((c.stubConnRead dp data).fault = false ∧
      I (c.stubConnRead dp data).derived (c.stubConnRead dp data).socketBuffer.content ∧
      ((c.stubConnRead dp data).socketBuffer.content = [] ∨
        ∃ d₀, I d₀ (c.stubConnRead dp data).socketBuffer.content ∧
          P d₀ (c.stubConnRead dp data).socketBuffer.content stale ∧
          dp d₀ ((c.stubConnRead dp data).socketBuffer.content ++ stale)
            (c.stubConnRead dp data).socketBuffer.content.length =
              some ((c.stubConnRead dp data).derived, 0))) ∨
    J (c.stubConnRead dp data).derived := by
  have hb := (Connection.readInto c.socketBuffer data).buffer_split
  have hlen := (Connection.readInto c.socketBuffer data).content_length
  have hfill : data.length ≠ 0 := fun h => hdata (List.eq_nil_of_length_eq_zero h)
  rw [← hstale] at hb
  simp only [Connection.read_into_content] at hb hlen
  have hcalls := hc hfault hfill
  dsimp only at hcalls
  rw [← hlen, ← Nat.zero_add (List.length _)] at hcalls
  have hrule := compile_loop_rule stale step keep _ 0 c.derived _ _ hb
    (Nat.le_of_eq (Nat.zero_add _).symm) hcalls hI
  rw [Nat.zero_add, hlen] at hrule
  have hread : c.stubConnRead dp data = Connection.compileBufferData dp { c with
      socketBuffer := Connection.readInto c.socketBuffer data
      receiveBytes := c.receiveBytes + data.length } := by
    simp [Connection.stubConnRead, hfault, hfill]
  rw [hread]
  rcases hrule with ⟨d', n, he, hle, hI', hexit⟩ | hJ
  · left
    have hcut : ((Connection.readInto c.socketBuffer data).cutFromHead n).content =
        (c.socketBuffer.content ++ data).drop n := by
      rw [AutoBuffer.content_cut _ hle, Connection.read_into_content]
    simp only [Connection.compileBufferData, he, Nat.zero_add, hcut]
    exact ⟨hfault, hI', hexit⟩
  · right
    rw [Connection.compile_buffer_derived]
    exact hJ

theorem read_rule {I : σ → List UInt8 → Prop} {J : σ → Prop} {dp : DataProcessing σ}
    {c : Connection σ} {data : List UInt8} (stale : List UInt8)
    (hstale : stale = (Connection.readInto c.socketBuffer data).stale)
    (step : ∀ d p, I d p → p ≠ [] → ∃ d' n, dp d (p ++ stale) p.length = some (d', n) ∧
      ((n ≤ p.length ∧ I d' (p.drop n)) ∨ J d'))
    (keep : ∀ d m k d' n, J d → dp d m k = some (d', n) → J d')
    (hfault : c.fault = false) (hdata : data ≠ [])
    (hI : I c.derived (c.socketBuffer.content ++ data)) :
    ((c.stubConnRead dp data).fault = false ∧
      I (c.stubConnRead dp data).derived (c.stubConnRead dp data).socketBuffer.content ∧
      ((c.stubConnRead dp data).socketBuffer.content = [] ∨
        ∃ d₀, I d₀ (c.stubConnRead dp data).socketBuffer.content ∧
          dp d₀ ((c.stubConnRead dp data).socketBuffer.content ++ stale)
            (c.stubConnRead dp data).socketBuffer.content.length =
              some ((c.stubConnRead dp data).derived, 0))) ∨
    J (c.stubConnRead dp data).derived := by
  have hcalls : c.ReadCalls (fun _ _ _ => True) dp data :=
    fun _ _ => LoopCalls.of_all (fun _ _ _ => trivial) _ _ _ _ _
  rcases read_calls_rule stale hstale (fun d p hI hp _ => step d p hI hp) keep hfault hdata hcalls
    hI with ⟨hf, hI', hexit⟩ | hJ
  · exact .inl ⟨hf, hI', hexit.imp_right fun ⟨d₀, hI₀, _, he₀⟩ => ⟨d₀, hI₀, he₀⟩⟩
  · exact .inr hJ

end Khorost
