import TaskerRT.Cluster.Precheck
import TaskerRT.Daemon.Accounted
import TaskerRT.Daemon.Balance
import TaskerRT.Daemon.Capacity
import TaskerRT.Daemon.Claims
import TaskerRT.Daemon.Counts
import TaskerRT.Daemon.Durable
import TaskerRT.Daemon.Eligible
import TaskerRT.Daemon.Fitted
import TaskerRT.Daemon.Handover
import TaskerRT.Daemon.Ledgers
import TaskerRT.Daemon.Reloaded
import TaskerRT.Daemon.Followed
import TaskerRT.Daemon.Restart
import TaskerRT.Daemon.Lives
import TaskerRT.Daemon.Owed
import TaskerRT.Daemon.Lapses
import TaskerRT.Daemon.Overtaking
import TaskerRT.Daemon.Replay
import TaskerRT.Daemon.Retained
import TaskerRT.Daemon.Shutdown
import TaskerRT.Domain.Handles
import TaskerRT.Policy.Earliest
import TaskerRT.Policy.Factors
import TaskerRT.Policy.HeapRuns
import TaskerRT.Policy.Score
import TaskerRT.Policy.Seniority
import TaskerRT.Scheduler.Budgeted
import TaskerRT.Scheduler.Cleared
import TaskerRT.Scheduler.Precedence
import TaskerRT.Scheduler.Refusal
import TaskerRT.Sim.Runs
import TaskerRT.Wal.RoundTrip
import TaskerRT.Worker.Leaving
