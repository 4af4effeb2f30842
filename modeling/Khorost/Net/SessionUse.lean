import Khorost.Net.Session

namespace Khorost

/-- The members of `session` that keep its use: `m_last_activity`, `m_count` and
`m_stats_update`. -/
structure SessionUse where
  lastActivity : Int
  count : Int32
  statsUpdate : Bool

/-- The whole minutes of a duration. -/
def totalMinutes (td : Int) : Int := td.tdiv (minutes 1)

/-- `time_duration::minutes()`, the minutes beside the hours. -/
def minutesOf (td : Int) : Int := (totalMinutes td).tmod 60

namespace SessionUse

/-- What `session::reset` does to them. -/
def reset (u : SessionUse) : SessionUse := { u with count := 0, statsUpdate := false }

/-- What the constructor leaves. -/
def new (created : Int) : SessionUse := reset ⟨created, 0, false⟩

def setLastActivity (value : Int) (u : SessionUse) : SessionUse :=
  let td := value - u.lastActivity
  let u := if 20 < minutesOf td then { u with count := u.count + 1 } else u
  { u with lastActivity := value, statsUpdate := true }

/-- One activity after the other. -/
def activities (u : SessionUse) (times : List Int) : SessionUse :=
  times.foldl (fun u value => u.setLastActivity value) u

end SessionUse

end Khorost
