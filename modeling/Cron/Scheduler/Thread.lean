import Cron.Scheduler.Basic

-- The thread of a scheduler, while the clock stands still. After the start delay it recomputes
-- every job; then it handles due jobs until none is left, and sleeps. A fault while it works stops
-- it with an error. A body that exits takes the thread along, and nothing tells of it.
--
-- Coming to rest is a descent: handling a due job moves its next occurrence, and `backlog` measures
-- how far the occurrences lie behind the clock. A thread whose backlog does not shrink never rests.

namespace Cron.Scheduler

def longestSleep : Int := 9223372036854775

-- How far, in microseconds, the next occurrence of a job lies behind `now`, plus one; 0 if the
-- job is not due.
def lag (now : Instant) (j : Job) : Nat :=
  match j.next with
  | some due => (now.universal - due.universal + 1).toNat
  | none => 0

def backlog (s : Scheduler) (now : Instant) : Nat := (s.handledJobs.map (lag now)).foldr (· + ·) 0

def stop (s : Scheduler) : Scheduler × List Notice :=
  ({ s with thread := .off, status := .error }, [.stopped])

-- What becomes of the thread when a round that it makes is ended early.
def halt (s : Scheduler) : Halt → Scheduler × List Notice
  | .fault _ => s.stop
  | .exit => ({ s with thread := .off }, [])

-- Puts the thread to sleep for some time, in a state that tells what it waits for.
def sleep (s : Scheduler) (micros : Int) (thread : Thread) (notice : Notice) :
    Scheduler × List Notice :=
  if longestSleep < micros then
    let (s, notices) := s.stop
    (s, notice :: notices)
  else ({ s with thread := thread }, [notice])

def settle (s : Scheduler) (now : Instant) : Scheduler × List Notice :=
  match s.wait now with
  | .error _ => s.stop
  | .ok micros =>
    if 0 < micros then s.sleep micros .asleep (.waiting micros)
    else
      match s.tick now with
      | (after, notices, .error h) =>
        let (after, more) := after.halt h
        (after, notices ++ more)
      | (after, notices, .ok _) =>
        if after.backlog now < s.backlog now then
          let (after, more) := after.settle now
          (after, notices ++ more)
        else ({ after with thread := .busy }, notices)
termination_by s.backlog now

def recomputeOver (now : Instant) : List Nat → Scheduler → Scheduler × Except Fault Unit
  | [], s => (s, .ok ())
  | i :: rest, s =>
    match s.jobs[i]? with
    | none => recomputeOver now rest s
    | some job =>
      match job.recompute now with
      | .error f => (s, .error f)
      | .ok job => recomputeOver now rest (s.setJob i job)

def launch (s : Scheduler) (now : Instant) : Scheduler × List Notice :=
  if 0 < s.timing.startDelay then
    s.sleep s.timing.startDelay .delayed (.waitingToStart s.timing.startDelay)
  else
    match recomputeOver now s.registered s with
    | (s, .error _) => s.stop
    | (s, .ok ()) => s.settle now

def start (s : Scheduler) (now : Instant) : Scheduler × List Notice :=
  if s.thread = .off then { s with thread := .busy, status := .active }.launch now else (s, [])

-- What a sleeping thread does when it is woken: a tick, and whatever is due after it.
def wake (s : Scheduler) (now : Instant) : Scheduler × List Notice :=
  if s.thread = .asleep then
    match s.tick now with
    | (s, notices, .error h) =>
      let (s, more) := s.halt h
      (s, notices ++ more)
    | (s, notices, .ok _) =>
      let (s, more) := s.settle now
      (s, notices ++ more)
  else (s, [])

-- Registers the job at a place, unless it is registered; it is then recomputed from `from?` or
-- the clock, and a sleeping thread is woken.
def register (s : Scheduler) (clock : Instant) (i : Nat) (from? : Option Instant) :
    Scheduler × List Notice × Except Fault Unit :=
  if i ∈ s.registered then (s, [], .ok ())
  else
    let s := { s with registered := s.registered ++ [i] }
    match s.jobs[i]? with
    | none => (s, [], .ok ())
    | some job =>
      match job.recompute (from?.getD clock) with
      | .error f => (s, [], .error f)
      | .ok job =>
        let (s, notices) := (s.setJob i job).wake clock
        (s, .added job.name job.next :: notices, .ok ())

def registerAndStart (s : Scheduler) (clock : Instant) (i : Nat) (from? : Option Instant) :
    Scheduler × List Notice × Except Fault Unit :=
  match s.register clock i from? with
  | (s, notices, .error f) => (s, notices, .error f)
  | (s, notices, .ok ()) =>
    let (s, more) := s.start clock
    (s, notices ++ more, .ok ())

def unregister (s : Scheduler) (i : Nat) : Scheduler :=
  { s with registered := s.registered.erase i }

def clear (s : Scheduler) : Scheduler := { s with registered := [] }

def shutdown (s : Scheduler) : Scheduler :=
  { s with registered := [], thread := .off, status := .stopped }

def isAlive (s : Scheduler) : Bool := s.thread != .off

def isOk (s : Scheduler) : Bool := s.registered.isEmpty || s.isAlive

end Cron.Scheduler
