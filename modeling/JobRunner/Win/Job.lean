import JobRunner.Pipeline
import JobRunner.Win.Capture

/-!
# A tracked job on Windows

`JobTracker::track` with a `win::Child`: the reading tasks read from `WinHandleOutputStream`s, which
have a thread each. The rest is as on Unix. In `pl` an unread byte of a pipe is one that no
`ReadFile` has returned.
-/

namespace JobRunner.Win

structure JobRun where
  pl : Pipeline
  streams : StreamKind → Stream

namespace JobRun

def start (job : Job) : JobRun := { pl := Pipeline.start job, streams := fun _ => Stream.start }

/-- A step outside the reading tasks, one of an output with its stream, or another error that
`ReadFile` returns. -/
inductive Act where
  | pl (a : Pipeline.Act)
  | output (k : StreamKind) (a : Capture.Act)
  | failed (k : StreamKind) (err : String)

/-- One output with its stream. -/
def capture (s : JobRun) (k : StreamKind) : Capture :=
  { out := s.pl.output k, stream := s.streams k, cut := false, frames := [] }

def setCapture (s : JobRun) (k : StreamKind) (c : Capture) : JobRun :=
  { pl := { s.pl with output := Function.update s.pl.output k c.out }
    streams := Function.update s.streams k c.stream }

def step (s : JobRun) : Act → Option JobRun
  | .pl a =>
    match a with
    | .output _ _ => none
    | a => (s.pl.step a).map fun pl => { s with pl }
  | .output k a =>
    match a with
    -- the tracker's side is in `pl`
    | .recv => none
    | a => ((s.capture k).step a).map (s.setCapture k)
  | .failed k err =>
    ((s.streams k).step (.readFile (.failed err))).map fun stream =>
      { s with streams := Function.update s.streams k stream }

end JobRun

end JobRunner.Win
