import Storyline.Bench
import Storyline.Main
import Storyline.Voice.Folder
import Storyline.Proofs.Clock
import Storyline.Proofs.Playback.Settled
import Storyline.Proofs.Playback.Stirring
import Storyline.Proofs.Playback.Orderly
import Storyline.Proofs.Counting
import Storyline.Proofs.Playback.Books
import Storyline.Proofs.Playback.Commands
import Storyline.Proofs.Playback.Holders
import Storyline.Proofs.Playback.Ledger
import Storyline.Proofs.Player.Account
import Storyline.Proofs.Player.Outcome
import Storyline.Proofs.Player.Tickets
import Storyline.Proofs.Playback.Settings
import Storyline.Proofs.Playback.Yielding
import Storyline.Proofs.Player.Stop
import Storyline.Proofs.Bench.Covers
import Storyline.Proofs.Player.DocumentOrder
import Storyline.Proofs.Player.Schedule
import Storyline.Proofs.Playback.Parks
import Storyline.Proofs.Playback.Titles
import Storyline.Proofs.Playback.Billing
import Storyline.Proofs.Player.Titles
import Storyline.Proofs.Bench.Dwelling
import Storyline.Proofs.Playback.Tolls
import Storyline.Proofs.Playback.FastForward
import Storyline.Proofs.Playback.Conclusion
import Storyline.Proofs.Player.FastForward
import Storyline.Proofs.Playback.Rooms
import Storyline.Proofs.Playback.Rounds
import Storyline.Proofs.Playback.Sites
import Storyline.Proofs.Playback.Joins
import Storyline.Proofs.Playback.Settlings
import Storyline.Proofs.Player.Joins
import Storyline.Proofs.Playback.Losses
import Storyline.Proofs.Player.Leading
import Storyline.Proofs.Player.Status
import Storyline.Proofs.Bench.Barriers
import Storyline.Proofs.Playback.Stack
import Storyline.Proofs.Bench.Taps
import Storyline.Proofs.Playback.Waiters
import Storyline.Proofs.Bench.Waking
import Storyline.Proofs.Forks.Weave
import Storyline.Proofs.Forks.Naming
import Storyline.Proofs.Forks.Sessions
import Storyline.Proofs.Forks.Mirrors
import Storyline.Proofs.Forks.Lockstep
import Storyline.Proofs.Forks.Turns
import Storyline.Proofs.Forks.Strays
import Storyline.Proofs.Forks.Passing
import Storyline.Proofs.Player.Forks
import Storyline.Proofs.Playback.Drivers
import Storyline.Proofs.Playback.Shakes
import Storyline.Proofs.Playback.Tremors
import Storyline.Proofs.Player.Shakes
import Storyline.Proofs.Script.Trimming
import Storyline.Proofs.Script.Content
import Storyline.Proofs.Script.Itinerary
import Storyline.Proofs.Player.Showings
import Storyline.Proofs.Playback.Idle
import Storyline.Proofs.Wrapping.Names
import Storyline.Proofs.Wrapping.Stages
import Storyline.Proofs.Wrapping.Sessions
import Storyline.Proofs.Wrapping.Looks
import Storyline.Proofs.Wrapping.Playbacks
import Storyline.Proofs.Wrapping.Performing
import Storyline.Proofs.Wrapping.Detours
import Storyline.Proofs.Wrapping.Turns
import Storyline.Proofs.Player.Orders
import Storyline.Proofs.Wrapping.Matching
import Storyline.Proofs.Wrapping.Commands
import Storyline.Proofs.Player.Wrapping
import Storyline.Proofs.Rounding
import Storyline.Proofs.Json.Grammar
import Storyline.Proofs.Json.Reading
import Storyline.Proofs.Json.Values
import Storyline.Proofs.Json.Faults
import Storyline.Proofs.Json.Tags
import Storyline.Proofs.Json.Rereading
import Storyline.Proofs.Json.Merging
import Storyline.Proofs.Json.Printing
import Storyline.Proofs.Json.Skipping
import Storyline.Proofs.Json.Loosening
import Storyline.Proofs.Json.Places
import Storyline.Proofs.Json.Repeating
import Storyline.Proofs.Action.Rereading
import Storyline.Proofs.Action.Printing
import Storyline.Proofs.Action.Propriety
import Storyline.Proofs.Action.Varying
import Storyline.Proofs.Script.Addresses
import Storyline.Proofs.Script.Varying
import Storyline.Proofs.Script.Reading
import Storyline.Proofs.Script.Rewriting
import Storyline.Proofs.Script.Propriety
import Storyline.Proofs.Story.Loading
import Storyline.Proofs.Story.NewerScripts
import Storyline.Proofs.Story.Rereading
import Storyline.Proofs.Playback.Listening
import Storyline.Proofs.Playback.Standing
import Storyline.Proofs.Playback.Voicing
import Storyline.Proofs.Playback.Stepping
import Storyline.Proofs.Bench.Steadiness
import Storyline.Proofs.Bench.Voicing
import Storyline.Proofs.Stage.Edits
import Storyline.Proofs.Stage.History
import Storyline.Proofs.Stage.Layouts
import Storyline.Proofs.Playback.Announcing
import Storyline.Proofs.Bench.Announcing
import Storyline.Proofs.Voice.Pool
import Storyline.Proofs.Voice.Schedule
import Storyline.Proofs.Voice.Prefetching
import Storyline.Proofs.Playback.Handling
import Storyline.Proofs.Playback.Custody
import Storyline.Proofs.Playback.Strain
import Storyline.Proofs.Player.Tending
import Storyline.Proofs.Player.Unfailing
import Storyline.Proofs.Binary.Nearest
import Storyline.Proofs.Duration.Seconds
import Storyline.Proofs.Duration.Rereading
import Storyline.Proofs.Config.Reading
import Storyline.Proofs.Config.Saving
import Storyline.Proofs.Player.Voices
import Storyline.Proofs.Playback.Stakes
import Storyline.Proofs.Playback.Growth
import Storyline.Proofs.Bench.Holdings
import Storyline.Proofs.Bench.Registry
