import Polly.ConnSpec
import Polly.Runs

/-!
# StateRace — `state_` under calls of `Shutdown()` from other threads

`state_` is written by the loop thread (`ConnectEstablished`, `HandleClose`, `ConnectDestroyed`, in
the order a `TcpServer` issues them) and by every thread that calls `Shutdown()`, which tests it and
sets it in two steps.  The loop thread's functions are cut at their accesses to `state_`;
`destroy_uninterrupted` and `close_uninterrupted` put the pieces together again.

* `forward_along_iff`: `state_` only moves forward, and stays `kDisconnected` once
  `ConnectDestroyed` has run, exactly as long as no `Shutdown()` sets it after the connection was
  closed.
-/

namespace Polly

open Runs

/-- The order of the states. -/
def ConnState.rank : ConnState → ℕ
  | .kConnecting => 0
  | .kConnected => 1
  | .kDisconnecting => 2
  | .kDisconnected => 3

/-- Where the loop thread is with the connection: before `ConnectEstablished`, after it, inside
`HandleClose`, behind its `SetState`, inside `ConnectDestroyed`, and behind that. -/
inductive LifePc where
  | connecting | established | closing | closed | destroying | destroyed
  deriving DecidableEq, Repr

structure RacedConn where
  conn : Conn
  pc : LifePc
  /-- calls of `Shutdown()` between the test and `SetState` -/
  setting : ℕ

namespace RacedConn

inductive Act where
  | connectEstablished
  /-- `HandleClose` up to `DisbaleAll()` -/
  | closeTest
  /-- its `SetState` -/
  | closeSet
  /-- `ConnectDestroyed` up to `DisbaleAll()`; the server's close callback calls it at the end of
  `HandleClose`, the server's destructor on an open connection -/
  | destroyTest
  /-- its `SetState` -/
  | destroySet
  /-- another thread calls `Shutdown()` and tests `state_` -/
  | shutdownTest
  /-- it sets `state_` -/
  | shutdownSet
  deriving DecidableEq, Repr

/-- `SetState`, and the loop thread goes on. -/
def setState (s : RacedConn) (state : ConnState) (pc : LifePc) : RacedConn :=
  { s with conn := { s.conn with state := state }, pc := pc }

def step (s : RacedConn) : Act → Option RacedConn
  | .connectEstablished => guarded (s.pc = .connecting) (s.setState .kConnected .established)
  | .closeTest =>
    guarded (s.pc = .established ∧ (s.conn.state = .kConnected ∨ s.conn.state = .kDisconnecting))
      { s with conn := s.conn.disbaleAll, pc := .closing }
  | .closeSet => guarded (s.pc = .closing) (s.setState .kDisconnected .closed)
  | .destroyTest =>
    guarded (s.pc = .established ∨ s.pc = .closed)
      { s with
        conn := if s.conn.state = .kConnected ∨ s.conn.state = .kDisconnecting then
          s.conn.disbaleAll else s.conn
        pc := .destroying }
  | .destroySet => guarded (s.pc = .destroying) (s.setState .kDisconnected .destroyed)
  | .shutdownTest =>
    some (if s.conn.state = .kConnected then { s with setting := s.setting + 1 } else s)
  | .shutdownSet =>
    guarded (0 < s.setting)
      { s.setState .kDisconnecting s.pc with setting := s.setting - 1 }

/-- A new connection. -/
def start (fd : ℤ) (isSet : CallbacksSet) : RacedConn := ⟨Conn.new fd isSet, .connecting, 0⟩

/-- The step does not take `state_` back, and the destructor's assertion holds from
`ConnectDestroyed` on. -/
def Forward (s : RacedConn) (a : Act) : Prop :=
  ∀ s', step s a = some s' → s.conn.state.rank ≤ s'.conn.state.rank ∧
    (s'.pc = .destroyed → s'.conn.state = .kDisconnected)

/-- A `Shutdown()` that has passed its test sets `state_` before the connection is closed. -/
def InTime (s : RacedConn) (a : Act) : Prop :=
  a = .shutdownSet → s.conn.state ≠ .kDisconnected

instance (s : RacedConn) (a : Act) : Decidable (InTime s a) :=
  inferInstanceAs (Decidable (a = .shutdownSet → s.conn.state ≠ .kDisconnected))

variable {s s' : RacedConn} {a : Act}

/-! ### The pieces without interruption -/

theorem destroy_uninterrupted (left : List EventCallback)
    (hpc : s.pc = .established ∨ s.pc = .closed) :
    run step s [.destroyTest, .destroySet] =
      some { s with conn := (s.conn.connectDestroyed left).conn, pc := .destroyed } := by
  refine run_cons_some.mpr ⟨_, guarded_eq_some.mpr ⟨hpc, rfl⟩, ?_⟩
  refine run_cons_some.mpr ⟨_, guarded_eq_some.mpr ⟨rfl, rfl⟩, ?_⟩
  rw [Conn.connectDestroyed_eq]
  split_ifs <;> rfl

theorem close_uninterrupted {left : List EventCallback} {o : Out} (hpc : s.pc = .established)
    (h : s.conn.handleClose left = some o) :
    run step s [.closeTest, .closeSet, .destroyTest, .destroySet] =
      some { s with conn := o.conn, pc := .destroyed } := by
  obtain ⟨hstate, hconn, -⟩ := Conn.handleClose_cases h
  refine run_cons_some.mpr ⟨_, guarded_eq_some.mpr ⟨⟨hpc, hstate⟩, rfl⟩, ?_⟩
  refine run_cons_some.mpr ⟨_, guarded_eq_some.mpr ⟨rfl, rfl⟩, ?_⟩
  rw [destroy_uninterrupted left (Or.inr rfl)]
  rw [hconn, Conn.connectDestroyed_of_disconnected rfl]
  rfl

/-! ### Runs -/

/-- Before `ConnectEstablished` no `Shutdown()` passes its test; after it `state_` is not
`kConnecting` again, and after `ConnectDestroyed` it is `kDisconnected`. -/
structure RaceInv (s : RacedConn) : Prop where
  connecting : s.pc = .connecting → s.conn.state = .kConnecting ∧ s.setting = 0
  connected : s.pc ≠ .connecting → s.conn.state ≠ .kConnecting
  destroyed : s.pc = .destroyed → s.conn.state = .kDisconnected

theorem start_raceInv (fd : ℤ) (isSet : CallbacksSet) : RaceInv (start fd isSet) where
  connecting := fun _ => ⟨rfl, rfl⟩
  connected := fun h => absurd rfl h
  destroyed := fun h => by cases h

/-- The states the loop thread sets are not behind the current one. -/
theorem rank_le_disconnected (state : ConnState) : state.rank ≤ ConnState.kDisconnected.rank := by
  cases state <;> decide

theorem rank_le_disconnecting {state : ConnState} :
    state.rank ≤ ConnState.kDisconnecting.rank ↔ state ≠ .kDisconnected := by
  cases state <;> decide

theorem step_raceInv (hI : RaceInv s) (hT : InTime s a) (h : step s a = some s') : RaceInv s' := by
  cases a with
  | connectEstablished =>
    obtain ⟨-, rfl⟩ := guarded_eq_some.mp h
    exact ⟨nofun, fun _ => nofun, nofun⟩
  | closeTest =>
    obtain ⟨⟨hpc, -⟩, rfl⟩ := guarded_eq_some.mp h
    exact ⟨nofun, fun _ => hI.connected (by rw [hpc]; nofun), nofun⟩
  | closeSet =>
    obtain ⟨-, rfl⟩ := guarded_eq_some.mp h
    exact ⟨nofun, fun _ => nofun, nofun⟩
  | destroyTest =>
    obtain ⟨hpc, rfl⟩ := guarded_eq_some.mp h
    have hstate := hI.connected (by rcases hpc with hpc | hpc <;> rw [hpc] <;> nofun)
    refine ⟨nofun, fun _ => ?_, nofun⟩
    dsimp only
    split_ifs <;> exact hstate
  | destroySet =>
    obtain ⟨-, rfl⟩ := guarded_eq_some.mp h
    exact ⟨nofun, fun _ => nofun, fun _ => rfl⟩
  | shutdownTest =>
    simp only [step, Option.some.injEq] at h
    subst h
    split_ifs with hconn
    · refine ⟨fun hpc => ?_, hI.connected, hI.destroyed⟩
      exact absurd (hconn.symm.trans (hI.connecting hpc).1) nofun
    · exact hI
  | shutdownSet =>
    obtain ⟨hpos, rfl⟩ := guarded_eq_some.mp h
    refine ⟨fun hpc => ?_, fun _ => nofun, fun hpc => ?_⟩
    · have hzero := (hI.connecting hpc).2
      omega
    · exact absurd (hI.destroyed hpc) (hT rfl)

theorem forward_iff (hI : RaceInv s) (hen : (step s a).isSome = true) :
    Forward s a ↔ InTime s a := by
  constructor
  · rintro hF rfl
    obtain ⟨s', h⟩ := Option.isSome_iff_exists.mp hen
    have hrank := (hF s' h).1
    obtain ⟨-, rfl⟩ := guarded_eq_some.mp h
    exact rank_le_disconnecting.mp hrank
  · intro hT s' h
    refine ⟨?_, (step_raceInv hI hT h).destroyed⟩
    cases a with
    | connectEstablished =>
      obtain ⟨hpc, rfl⟩ := guarded_eq_some.mp h
      rw [(hI.connecting hpc).1]
      exact Nat.zero_le _
    | closeTest =>
      obtain ⟨-, rfl⟩ := guarded_eq_some.mp h
      exact le_rfl
    | closeSet =>
      obtain ⟨-, rfl⟩ := guarded_eq_some.mp h
      exact rank_le_disconnected _
    | destroyTest =>
      obtain ⟨-, rfl⟩ := guarded_eq_some.mp h
      dsimp only
      split_ifs <;> exact le_rfl
    | destroySet =>
      obtain ⟨-, rfl⟩ := guarded_eq_some.mp h
      exact rank_le_disconnected _
    | shutdownTest =>
      simp only [step, Option.some.injEq] at h
      subst h
      split_ifs <;> exact le_rfl
    | shutdownSet =>
      obtain ⟨-, rfl⟩ := guarded_eq_some.mp h
      exact rank_le_disconnecting.mpr (hT rfl)

/-- **The state only moves forward**, in any interleaving of any number of `Shutdown()` calls with
the life of the connection, exactly as long as every `Shutdown()` that has passed its test sets
`state_` before `HandleClose` or `ConnectDestroyed` does. -/
theorem forward_along_iff (fd : ℤ) (isSet : CallbacksSet) {as : List Act}
    (h : run step (start fd isSet) as = some s) :
    Along step Forward (start fd isSet) as ↔ Along step InTime (start fd isSet) as :=
  along_iff (I := RaceInv) (fun _ _ => forward_iff)
    (fun _ _ _ hI _ hT hs => step_raceInv hI hT hs) (along_enabled h) (start_raceInv fd isSet)

/-- Two calls of `Shutdown()` run into each other and into the beginning of `HandleClose`. -/
def closeCalls : List Act :=
  [.connectEstablished, .shutdownTest, .shutdownTest, .shutdownSet, .closeTest, .shutdownSet,
    .closeSet, .shutdownTest, .destroyTest, .destroySet]

theorem forward_along_closeCalls :
    Along step Forward (start 7 ⟨true, true, true, true⟩) closeCalls := by
  have hend : (run step (start 7 ⟨true, true, true, true⟩) closeCalls).isSome = true := by
    decide +kernel
  obtain ⟨s, hs⟩ := Option.isSome_iff_exists.mp hend
  exact (forward_along_iff 7 ⟨true, true, true, true⟩ hs).mpr (by decide +kernel)

/-- The peer closes between the test and the assignment of a `Shutdown()`. -/
def closeBetween : List Act :=
  [.connectEstablished, .shutdownTest, .closeTest, .closeSet, .destroyTest, .destroySet]

/-- The connection is through with `ConnectDestroyed`, and goes back to `kDisconnecting`. -/
theorem closeBetween_backward :
    ∃ s s', run step (start 7 ⟨true, true, true, true⟩) closeBetween = some s ∧
      s.pc = .destroyed ∧ s.conn.state = .kDisconnected ∧ step s .shutdownSet = some s' ∧
      s'.conn.state = .kDisconnecting ∧ ¬Forward s .shutdownSet := by
  have hend : (run step (start 7 ⟨true, true, true, true⟩) closeBetween).map (fun s =>
      (s.pc, s.conn.state, (step s .shutdownSet).map fun s' => s'.conn.state)) =
      some (.destroyed, .kDisconnected, some .kDisconnecting) := by decide +kernel
  obtain ⟨s, hs, heq⟩ := Option.map_eq_some_iff.mp hend
  simp only [Prod.mk.injEq, Option.map_eq_some_iff] at heq
  obtain ⟨hpc, hstate, s', hs', hstate'⟩ := heq
  refine ⟨s, s', hs, hpc, hstate, hs', hstate', fun hF => ?_⟩
  have hrank := (hF s' hs').1
  rw [hstate, hstate'] at hrank
  exact absurd hrank (by decide)

end RacedConn

end Polly
