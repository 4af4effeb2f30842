import Mathlib.Logic.Function.Basic

namespace Khorost

/-- A `db_connection` of one thread, and how far its calls have come. A
connection of the pool is the number that `prepare` has made it under. -/
inductive DbConnection
  | absent
  /-- In `get_connection_pool`. -/
  | waiting
  /-- Taken from the pool and not stored yet. -/
  | popped (conn : Nat)
  /-- Constructed, with what `m_pdb_connection_pool_` points to. -/
  | alive (member : Option Nat)
  /-- Behind the test of `release_connection_pool`; `last` in the destructor. -/
  | releasing (conn : Nat) (last : Bool)
  /-- Given back, while the member still points to it. -/
  | pushed (conn : Nat) (last : Bool)
  | destroyed
deriving DecidableEq

/-- The connection that is a client's: from where it leaves the queue to where it
is back in there. -/
def DbConnection.held : DbConnection → Option Nat
  | popped conn => some conn
  | alive member => member
  | releasing conn _ => some conn
  | absent => none
  | waiting => none
  | pushed _ _ => none
  | destroyed => none

inductive PoolEvent
  | taken (conn : Nat)
  | released (conn : Nat)
deriving DecidableEq

/-- `db_pool` and its clients, with a record of what the clients have done to
the queue. -/
structure DbPool (κ : Type) where
  freePool : List Nat
  created : Nat
  client : κ → DbConnection
  log : List (κ × PoolEvent)

/-- The calls of a client, cut where another thread can come in between: what
is done under the mutex is one step. -/
inductive PoolAction
  | construct
  | take
  | store
  | release
  | destroy
  | push
  | reset
deriving DecidableEq

namespace DbPool

/-- The default constructor; there are no clients. -/
def empty : DbPool κ := ⟨[], 0, fun _ => .absent, []⟩

def prepare (s : DbPool κ) (count : Nat) : DbPool κ :=
  { s with
    freePool := s.freePool ++ List.range' s.created count
    created := s.created + count }

variable [DecidableEq κ]

def goes (s : DbPool κ) (k : κ) (c : DbConnection) : DbPool κ :=
  { s with client := Function.update s.client k c }

def logged (s : DbPool κ) (k : κ) (e : PoolEvent) : DbPool κ := { s with log := s.log ++ [(k, e)] }

/-- A step of a client; `none` where its calls do not come to this. -/
def step (s : DbPool κ) (k : κ) : PoolAction → Option (DbPool κ)
  | .construct =>
    match s.client k with
    | .absent => some (s.goes k .waiting)
    | _ => none
  -- the loop over `m_condition_.wait` goes round while the queue is empty
  | .take =>
    match s.client k, s.freePool with
    | .waiting, [] => some s
    | .waiting, conn :: rest =>
      some ({ s with freePool := rest }.goes k (.popped conn) |>.logged k (.taken conn))
    | _, _ => none
  | .store =>
    match s.client k with
    | .popped conn => some (s.goes k (.alive (some conn)))
    | _ => none
  | .release =>
    match s.client k with
    | .alive (some conn) => some (s.goes k (.releasing conn false))
    | .alive none => some s
    | _ => none
  | .destroy =>
    match s.client k with
    | .alive (some conn) => some (s.goes k (.releasing conn true))
    | .alive none => some (s.goes k .destroyed)
    | _ => none
  | .push =>
    match s.client k with
    | .releasing conn last =>
      some ({ s with freePool := s.freePool ++ [conn] }.goes k (.pushed conn last)
        |>.logged k (.released conn))
    | _ => none
  | .reset =>
    match s.client k with
    | .pushed _ last => some (s.goes k (if last then .destroyed else .alive none))
    | _ => none

/-- The clients' steps in any order. -/
def run (s : DbPool κ) : List (κ × PoolAction) → Option (DbPool κ)
  | [] => some s
  | (k, action) :: steps => do
    let s ← s.step k action
    s.run steps

/-- What a client has done to the queue. -/
def eventsOf (s : DbPool κ) (k : κ) : List PoolEvent :=
  s.log.filterMap fun p => if p.1 = k then some p.2 else none

end DbPool

/-- A call that may throw a `broken_connection`. -/
inductive Call (α : Type)
  | returns (value : α)
  | broken

/-- What the connection answers in one pass of `check_connect`. -/
structure Attempt where
  isOpen : Call Bool
  activate : Call Unit
  /-- The query on `khl_version`. -/
  probe : Call Unit

namespace Attempt

/-- The `try` block: what it leaves in `times`, and whether nothing is thrown. -/
def tryBlock (a : Attempt) (times : Nat) : Nat × Bool :=
  let times := times + 1
  match a.isOpen with
  | .broken => (times, false)
  | .returns isOpen =>
    match (if isOpen then .returns () else a.activate) with
    | .broken => (times, false)
    | .returns () =>
      match a.probe with
      | .broken => (0, false)
      | .returns () => (0, true)

end Attempt

/-- `check_connect` from its `n`-th attempt on, with what the static `times` holds:
the result, `times` and the number of attempts. `none` is a recursion of more than
`fuel` calls. -/
def checkConnect (attempts : Nat → Attempt) : Nat → Nat → Nat → Option (Bool × Nat × Nat)
  | 0, _, _ => none
  | fuel + 1, n, times =>
    match (attempts n).tryBlock times with
    | (times, true) => some (true, times, n + 1)
    | (times, false) =>
      if 10 < times then some (false, 0, n + 1)
      -- what the inner call returns is not looked at
      else (checkConnect attempts fuel (n + 1) times).map fun r => (true, r.2)

end Khorost
