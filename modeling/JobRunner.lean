import JobRunner.Verify.KillProtocol
import JobRunner.Verify.Subscribers
import JobRunner.Verify.CutOff
import JobRunner.Verify.Requests
import JobRunner.Verify.Isolation
import JobRunner.Verify.Bytes
import JobRunner.Verify.Fidelity
import JobRunner.Verify.Coordinator
import JobRunner.Verify.Reports
import JobRunner.Verify.Ownership
import JobRunner.Verify.Orphans
import JobRunner.Verify.KillAnswers
import JobRunner.Verify.WindDown
import JobRunner.Lib.Argv
import JobRunner.Win.Spawn
import JobRunner.Verify.Win.Spawn
import JobRunner.Verify.Win.CommandLine
import JobRunner.Win.Server
import JobRunner.Verify.Win.Inherit
import JobRunner.Lib.Waker
import JobRunner.Verify.Win.Kill
import JobRunner.Verify.Win.Stream
import JobRunner.Verify.Win.Wake
import JobRunner.Verify.Win.Capture
import JobRunner.Verify.Win.Handles
import JobRunner.Supervised
import JobRunner.Verify.Attribution
import JobRunner.Identity
import JobRunner.Lib.Marks
import JobRunner.Verify.Identity
import JobRunner.Verify.Progress
import JobRunner.Lib.Journal
import JobRunner.Store
import JobRunner.Verify.LogStreams
import JobRunner.Verify.Calls
import JobRunner.Verify.Killers
import JobRunner.Verify.Store
import JobRunner.Verify.StoreLaws
import JobRunner.Verify.Hanging
import JobRunner.Verify.Delivery
import JobRunner.Client
import JobRunner.Verify.Client
import JobRunner.Server
import JobRunner.Verify.Server
import JobRunner.Verify.ServerStreams
import JobRunner.Win.Wait
import JobRunner.Verify.Win.Wait
import JobRunner.Win.Job
import JobRunner.Verify.Win.Job
import JobRunner.Verify.Win.Backpressure
import JobRunner.Verify.Win.Rounds
