import PiEmbodied.Capabilities.Flash
import PiEmbodied.Capabilities.Gumi
import PiEmbodied.Capabilities.MemoryGuard
import PiEmbodied.Capabilities.PolicyBudgets
import PiEmbodied.Capabilities.RecipeSplits
import PiEmbodied.Capabilities.ReplayRuns
import PiEmbodied.Chord.Cells
import PiEmbodied.Chord.Delta.Replicas
import PiEmbodied.Chord.Flow
import PiEmbodied.Chord.OutputStream
import PiEmbodied.Chord.Replication
import PiEmbodied.Chord.Subscriptions
import PiEmbodied.Chord.Units
import PiEmbodied.Durable.Commits
import PiEmbodied.Durable.Completion
import PiEmbodied.Durable.EditDiff
import PiEmbodied.Durable.LineScan
import PiEmbodied.Durable.NestedTools
import PiEmbodied.Durable.PromptPlans
import PiEmbodied.Durable.Truncate
import PiEmbodied.Infra.RpcClient
import PiEmbodied.Motormind.Looks
import PiEmbodied.Motormind.Planner
import PiEmbodied.Motormind.Provider
import PiEmbodied.Motormind.Reach
import PiEmbodied.Primitives.Routes
import PiEmbodied.Primitives.Waypoints
import PiEmbodied.Robot.ClosedLoop
import PiEmbodied.Robot.Ended
import PiEmbodied.Robot.Frames
import PiEmbodied.Services.CodeTiers
import PiEmbodied.Services.GraspRuns
import PiEmbodied.Services.Motion
import PiEmbodied.Services.MoveBudget
import PiEmbodied.Services.PolymetisRamps
import PiEmbodied.Services.Rpc
import PiEmbodied.Services.Ur5eAsync
import PiEmbodied.Units.Stages
import PiEmbodied.Units.Verifier
