import Khorost.Db.MySql

namespace Khorost

variable {server : MySqlServer} {connection : Bool} {m m' : KhlMysql} {iTry : Int} {n : Nat}

def Lost (result : Option Nat) : Prop :=
  result = some crServerGoneError ∨ result = some crServerLost

instance (result : Option Nat) : Decidable (Lost result) := inferInstanceAs (Decidable (_ ∨ _))

namespace KhlMysql

def executed (m : KhlMysql) : KhlMysql := { m with statements := m.statements + 1 }

/-- Behind an execution and a connection that has come about. -/
def renewed (m : KhlMysql) : KhlMysql :=
  { handle := true, statements := m.statements + 1, connects := m.connects + 1 }

/-- From a state of its loop on a call is over by the `n`-th execution. -/
def Within (server : MySqlServer) (connection : Bool) (iTry : Int) (reconnectEnable : Bool)
    (m : KhlMysql) (n : Nat) : Prop :=
  ∃ fuel failed m', tryStatement server connection fuel iTry reconnectEnable m = some (failed, m') ∧
    m'.statements ≤ n

/-- What is given up with is what the last execution has given, and there is at
most the reconnect that is enabled. -/
theorem try_last (h : tryStatement server connection fuel iTry reconnectEnable m = some (failed, m')) :
    m.statements < m'.statements ∧ failed = server.statement (m'.statements - 1) ∧
      m'.connects ≤ m.connects + reconnectEnable.toNat := by
  induction fuel generalizing iTry reconnectEnable m with
  | zero => cases h
  | succ fuel ih =>
    rw [tryStatement] at h
    cases hresult : server.statement m.statements with
    | none =>
      simp only [hresult] at h
      cases h
      exact ⟨Nat.lt_succ_self _, hresult.symm, Nat.le_add_right _ _⟩
    | some errorCode =>
      simp only [hresult] at h
      split at h
      · obtain ⟨hlt, hlast, hconnects⟩ := ih h
        exact ⟨Nat.lt_of_succ_lt hlt, hlast, hconnects⟩
      · split at h
        · next henabled =>
          obtain ⟨rfl, -⟩ := henabled
          simp only [reconnect, close] at h
          split at h
          · next heq =>
            obtain ⟨-, rfl⟩ := Prod.mk.inj heq
            obtain ⟨hlt, hlast, hconnects⟩ := ih h
            exact ⟨Nat.lt_of_succ_lt hlt, hlast, hconnects⟩
          · next heq =>
            obtain ⟨-, rfl⟩ := Prod.mk.inj heq
            cases h
            exact ⟨Nat.lt_succ_self _, hresult.symm, Nat.le_refl _⟩
        · cases h
          exact ⟨Nat.lt_succ_self _, hresult.symm, Nat.le_add_right _ _⟩

theorem Within.later (h : Within server connection iTry reconnectEnable m n) : m.statements < n := by
  obtain ⟨fuel, failed, m', htry, hle⟩ := h
  exact Nat.lt_of_lt_of_le (try_last htry).1 hle

/-- With one execution more a call is over where its next state is over. -/
theorem within_step (next : Bool) (jTry : Int) (m₁ : KhlMysql)
    (h : ∀ fuel, tryStatement server connection (fuel + 1) iTry reconnectEnable m =
      tryStatement server connection fuel jTry next m₁) :
    Within server connection iTry reconnectEnable m n ↔ Within server connection jTry next m₁ n := by
  constructor
  · rintro ⟨fuel, failed, m', htry, hle⟩
    cases fuel with
    | zero => cases htry
    | succ fuel => exact ⟨fuel, failed, m', (h fuel).symm.trans htry, hle⟩
  · rintro ⟨fuel, failed, m', htry, hle⟩
    exact ⟨fuel + 1, failed, m', (h fuel).trans htry, hle⟩

/-- A lost connection is tried again, the third time apart. -/
theorem within_again (hlost : Lost (server.statement m.statements)) (hi : iTry ≠ 1) :
    Within server connection iTry reconnectEnable m n ↔
      Within server connection (iTry - 1) reconnectEnable m.executed n := by
  have hi' : iTry - 1 ≠ 0 := by omega
  refine within_step _ _ _ fun fuel => ?_
  rcases hlost with hlost | hlost
  · simp only [tryStatement, hlost]
    rw [if_pos ⟨hi', .inl trivial⟩]
    rfl
  · simp only [tryStatement, hlost]
    rw [if_pos ⟨hi', .inr trivial⟩]
    rfl

/-- The statement has failed in a way in which it is not tried again as it is. -/
def Refused (server : MySqlServer) (iTry : Int) (m : KhlMysql) : Prop :=
  server.statement m.statements ≠ none ∧ (iTry = 1 ∨ ¬ Lost (server.statement m.statements))

theorem Refused.no_again (h : Refused server iTry m)
    (hresult : server.statement m.statements = some errorCode) :
    ¬ (iTry - 1 ≠ 0 ∧ (errorCode = crServerGoneError ∨ errorCode = crServerLost)) := by
  rintro ⟨hi, hcode⟩
  rcases h.2 with rfl | hnot
  · exact hi rfl
  · rw [hresult] at hnot
    exact hnot (by simpa [Lost] using hcode)

theorem within_reconnect (h : Refused server iTry m) (hc : connection = true)
    (hr : server.realConnect m.connects = true) :
    Within server connection iTry true m n ↔ Within server connection (iTry - 1) false m.renewed n := by
  obtain ⟨errorCode, hresult⟩ := Option.ne_none_iff_exists'.mp h.1
  refine within_step _ _ _ fun fuel => ?_
  simp only [tryStatement, hresult]
  rw [if_neg (h.no_again hresult), if_pos ⟨trivial, hc⟩]
  simp only [reconnect, close, hr]
  rfl

theorem within_over (h : server.statement m.statements = none ∨ Refused server iTry m ∧
      (reconnectEnable = true → connection = true → server.realConnect m.connects = false)) :
    Within server connection iTry reconnectEnable m n ↔ m.statements < n := by
  refine ⟨Within.later, fun hn => ?_⟩
  rcases h with hresult | ⟨hrefused, hno⟩
  · exact ⟨1, none, m.executed, by simp only [tryStatement, hresult]; rfl, hn⟩
  · obtain ⟨errorCode, hresult⟩ := Option.ne_none_iff_exists'.mp hrefused.1
    by_cases henabled : reconnectEnable = true ∧ connection = true
    · refine ⟨1, some errorCode, (reconnect server m.executed).2, ?_, hn⟩
      simp only [tryStatement, hresult]
      rw [if_neg (hrefused.no_again hresult), if_pos henabled]
      simp only [reconnect, close, executed, hno henabled.1 henabled.2]
    · refine ⟨1, some errorCode, m.executed, ?_, hn⟩
      simp only [tryStatement, hresult]
      rw [if_neg (hrefused.no_again hresult), if_neg henabled]
      rfl

/-- What a call with the retries used up and the reconnect done still needs. -/
theorem within_renewed (h : m.statements + 3 = n) :
    Within server connection 0 false m n ↔
      ¬ (Lost (server.statement m.statements) ∧ Lost (server.statement (m.statements + 1)) ∧
        Lost (server.statement (m.statements + 2))) := by
  -- a result that is not lost ends the call
  have hover : ∀ (iTry : Int) (m : KhlMysql), ¬ Lost (server.statement m.statements) →
      m.statements < n → Within server connection iTry false m n := by
    intro iTry m hnot hlt
    refine (within_over ?_).mpr hlt
    by_cases hnone : server.statement m.statements = none
    · exact .inl hnone
    · exact .inr ⟨⟨hnone, .inr hnot⟩, fun h => by cases h⟩
  constructor
  · rintro hw ⟨h₀, h₁, h₂⟩
    rw [within_again h₀ (by decide), within_again h₁ (by decide), within_again h₂ (by decide)] at hw
    have hlt : m.statements + 3 < n := hw.later
    omega
  · intro hnot
    by_cases h₀ : Lost (server.statement m.statements)
    · rw [within_again h₀ (by decide)]
      by_cases h₁ : Lost (server.statement (m.statements + 1))
      · rw [within_again h₁ (by decide)]
        exact hover _ _ (fun h₂ => hnot ⟨h₀, h₁, h₂⟩) (show m.statements + 2 < n by omega)
      · exact hover _ _ h₁ (show m.statements + 1 < n by omega)
    · exact hover _ _ h₀ (by omega)

/-- The server that makes a call go on: it is lost twice, fails a third time, lets
itself be reconnected, and is lost three times more. -/
structure KeepsLosing (server : MySqlServer) (connection : Bool) (m : KhlMysql) : Prop where
  first : Lost (server.statement m.statements)
  second : Lost (server.statement (m.statements + 1))
  third : server.statement (m.statements + 2) ≠ none
  object : connection = true
  reconnects : server.realConnect m.connects = true
  fourth : Lost (server.statement (m.statements + 3))
  fifth : Lost (server.statement (m.statements + 4))
  sixth : Lost (server.statement (m.statements + 5))

/-- A call that has its reconnect before the third execution ends with that one. -/
theorem within_early (h : m.statements + 2 ≤ n) : Within server connection 2 false m n := by
  by_cases hlost : Lost (server.statement m.statements)
  · rw [within_again hlost (by decide)]
    refine (within_over ?_).mpr (show m.statements + 1 < n by omega)
    by_cases hnone : server.statement (m.statements + 1) = none
    · exact .inl hnone
    · exact .inr ⟨⟨hnone, .inl rfl⟩, fun h => by cases h⟩
  · refine (within_over ?_).mpr (by omega)
    by_cases hnone : server.statement m.statements = none
    · exact .inl hnone
    · exact .inr ⟨⟨hnone, .inr hlost⟩, fun h => by cases h⟩

theorem within_six_iff :
    Within server connection 3 true m (m.statements + 6) ↔ ¬ KeepsLosing server connection m := by
  -- an execution whose result is not tried again: the reconnect decides
  have hturn : ∀ (iTry : Int) (m : KhlMysql) (n : Nat), m.statements < n →
      (iTry = 1 ∨ ¬ Lost (server.statement m.statements)) →
      (server.statement m.statements ≠ none → connection = true →
        server.realConnect m.connects = true →
        Within server connection (iTry - 1) false m.renewed n) →
      Within server connection iTry true m n := by
    intro iTry m n hlt hstop hnext
    by_cases hnone : server.statement m.statements = none
    · exact (within_over (.inl hnone)).mpr hlt
    by_cases hr : connection = true ∧ server.realConnect m.connects = true
    · exact (within_reconnect ⟨hnone, hstop⟩ hr.1 hr.2).mpr (hnext hnone hr.1 hr.2)
    · refine (within_over (.inr ⟨⟨hnone, hstop⟩, fun _ hc => ?_⟩)).mpr hlt
      exact Bool.eq_false_iff.mpr fun hconnect => hr ⟨hc, hconnect⟩
  by_cases h₀ : Lost (server.statement m.statements)
  · by_cases h₁ : Lost (server.statement (m.statements + 1))
    · rw [within_again h₀ (by decide), within_again h₁ (by decide)]
      constructor
      · rintro hw ⟨-, -, h₂, hc, hr, h₃, h₄, h₅⟩
        have hrefused : Refused server 1 m.executed.executed := ⟨h₂, .inl rfl⟩
        exact (within_renewed rfl).mp ((within_reconnect hrefused hc hr).mp hw) ⟨h₃, h₄, h₅⟩
      · intro hnot
        refine hturn 1 _ _ (show m.statements + 2 < m.statements + 6 by omega) (.inl rfl) ?_
        intro h₂ hc hr
        refine (within_renewed rfl).mpr ?_
        rintro ⟨h₃, h₄, h₅⟩
        exact hnot ⟨h₀, h₁, h₂, hc, hr, h₃, h₄, h₅⟩
    · refine iff_of_true ?_ fun h => h₁ h.second
      rw [within_again h₀ (by decide)]
      refine hturn 2 _ _ (show m.statements + 1 < m.statements + 6 by omega) (.inr h₁) ?_
      intro _ _ _
      refine (within_over ?_).mpr (show m.statements + 2 < m.statements + 6 by omega)
      by_cases hnone : server.statement (m.statements + 2) = none
      · exact .inl hnone
      · exact .inr ⟨⟨hnone, .inl rfl⟩, fun h => by cases h⟩
  · refine iff_of_true ?_ fun h => h₀ h.first
    refine hturn 3 _ _ (by omega) (.inr h₀) fun _ _ _ => ?_
    exact within_early (show m.statements + 1 + 2 ≤ m.statements + 6 by omega)

/-- `ExecuteSQL` is over after at most six executions and one reconnect, and says
whether the last execution has succeeded. -/
def StopsSQL (server : MySqlServer) (m : KhlMysql) : Prop :=
  ∃ fuel result m', m.executeSQL server fuel = some (result, m') ∧
    m'.statements ≤ m.statements + 6 ∧ m'.connects ≤ m.connects + 1 ∧
    result = (server.statement (m'.statements - 1)).isNone

theorem stops_sql_iff : StopsSQL server m ↔ Within server true 3 true m (m.statements + 6) := by
  constructor
  · rintro ⟨fuel, result, m', hcall, hle, -, -⟩
    obtain ⟨⟨failed, m''⟩, htry, heq⟩ := Option.map_eq_some_iff.mp hcall
    obtain ⟨-, rfl⟩ := Prod.mk.inj heq
    exact ⟨fuel, failed, m'', htry, hle⟩
  · rintro ⟨fuel, failed, m', htry, hle⟩
    obtain ⟨-, rfl, hconnects⟩ := try_last htry
    exact ⟨fuel, _, m', by rw [executeSQL, htry]; rfl, hle, hconnects, rfl⟩

end KhlMysql

open KhlMysql

/-- `Execute` is over after at most six executions and one reconnect; it throws
the error of the last execution, unless there is none. -/
def Query.Stops (server : MySqlServer) (m : KhlMysql) (q : Query) : Prop :=
  ∃ fuel result m', q.execute server fuel m = some (result, m') ∧
    m'.statements ≤ m.statements + 6 ∧ m'.connects ≤ m.connects + 1 ∧
    result = match server.statement (m'.statements - 1) with
      | none => .ok ()
      | some errorCode =>
        .error (executeFailed errorCode (server.error m'.statements m'.connects))

theorem Query.terminate_some_iff (q : Query) :
    (∃ q', q.terminate = some q' ∧ q'.connection = q.connection) ↔
      q.abQuery.readyPosition < q.abQuery.buffer.length := by
  simp only [terminate, RawBuffer.memcpy, Blocks.write, List.length_singleton]
  by_cases h : q.abQuery.readyPosition + 1 ≤ q.abQuery.buffer.length
  · rw [if_pos h]
    exact iff_of_true ⟨_, rfl, rfl⟩ h
  · rw [if_neg h]
    exact iff_of_false (by rintro ⟨_, h, -⟩; cases h) h

theorem Query.stops_iff (q : Query) :
    q.Stops server m ↔ q.abQuery.readyPosition < q.abQuery.buffer.length ∧
      Within server q.connection 3 true m (m.statements + 6) := by
  rw [← q.terminate_some_iff]
  constructor
  · rintro ⟨fuel, result, m', hcall, hle, -, -⟩
    simp only [execute, Option.bind_eq_bind, Option.bind_eq_some_iff] at hcall
    obtain ⟨q', hq, ⟨failed, m''⟩, htry, hlast⟩ := hcall
    have hm : m'' = m' := by
      cases failed with
      | none => cases hlast; rfl
      | some errorCode => cases hlast; rfl
    have hconnection : q'.connection = q.connection := by
      obtain ⟨ab, -, rfl⟩ := Option.map_eq_some_iff.mp hq
      rfl
    rw [hconnection] at htry
    exact ⟨⟨q', hq, hconnection⟩, fuel, failed, m'', htry, hm ▸ hle⟩
  · rintro ⟨⟨q', hq, hconnection⟩, fuel, failed, m', htry, hle⟩
    obtain ⟨-, rfl, hconnects⟩ := try_last htry
    refine ⟨fuel, _, m', ?_, hle, hconnects, rfl⟩
    rw [execute, hq, Option.bind_eq_bind, Option.bind_some, hconnection, htry, Option.bind_eq_bind,
      Option.bind_some]
    dsimp only
    cases server.statement (m'.statements - 1) <;> rfl

/-- Both stop for every server but one that keeps losing the connection, `Execute`
provided that its terminator has a place. -/
theorem executions_six_iff (server : MySqlServer) (m : KhlMysql) :
    (StopsSQL server m ↔ ¬ KeepsLosing server true m) ∧
      ∀ q : Query, q.Stops server m ↔
        q.abQuery.readyPosition < q.abQuery.buffer.length ∧
          ¬ KeepsLosing server q.connection m := by
  refine ⟨stops_sql_iff.trans within_six_iff, fun q => ?_⟩
  rw [q.stops_iff, within_six_iff]

/-- A server that has gone and can be connected to again is asked without end. -/
theorem gone_server_never_stops :
    (¬ ∀ server m, StopsSQL server m) ∧
      ¬ ∀ server m (q : Query), q.abQuery.readyPosition < q.abQuery.buffer.length →
        q.Stops server m := by
  have hkeeps : KeepsLosing ⟨fun _ => some crServerGoneError, fun _ => true, fun _ _ => []⟩ true
      ⟨true, 0, 0⟩ :=
    ⟨.inl rfl, .inl rfl, Option.some_ne_none _, rfl, rfl, .inl rfl, .inl rfl, .inl rfl⟩
  constructor
  · intro h
    exact within_six_iff.mp (stops_sql_iff.mp (h _ _)) hkeeps
  · intro h
    let q : Query := ⟨true, ⟨[0], 1, 0⟩⟩
    have hroom : q.abQuery.readyPosition < q.abQuery.buffer.length := Nat.one_pos
    exact within_six_iff.mp (q.stops_iff.mp (h _ _ q hroom)).2 hkeeps

end Khorost
