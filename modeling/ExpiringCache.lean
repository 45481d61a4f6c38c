import ExpiringCache.Config.Reader
import ExpiringCache.Proofs.Presence
import ExpiringCache.Proofs.Reads
import ExpiringCache.Proofs.Refinement
import ExpiringCache.Proofs.Release
import ExpiringCache.Proofs.Staleness
import ExpiringCache.Script.Scenario
import ExpiringCache.Script.Shelf
import ExpiringCache.Proofs.Stretches
import ExpiringCache.Proofs.Conservation
import ExpiringCache.Proofs.Targets
import ExpiringCache.Proofs.Filtering
import ExpiringCache.Proofs.Fetching
import ExpiringCache.Proofs.SingleFlight
import ExpiringCache.Proofs.Strides
import ExpiringCache.Proofs.Window
import ExpiringCache.Proofs.Vetoes
import ExpiringCache.Proofs.Fuel
import ExpiringCache.Proofs.Shrinking
import ExpiringCache.Proofs.Nesting
import ExpiringCache.Proofs.Termination
import ExpiringCache.Proofs.Deeds
import ExpiringCache.Proofs.Likeness
import ExpiringCache.Proofs.Lockstep
import ExpiringCache.Proofs.Atomicity
import ExpiringCache.Proofs.Excerpts
import ExpiringCache.Proofs.Inheritance
import ExpiringCache.Proofs.Handover
import ExpiringCache.Proofs.Readings
import ExpiringCache.Proofs.Alongside
import ExpiringCache.Proofs.Apart
import ExpiringCache.Proofs.Leftovers
import ExpiringCache.Proofs.Intervals
import ExpiringCache.Proofs.Snapshots
import ExpiringCache.Proofs.Elapsing
import ExpiringCache.Proofs.Commuting
import ExpiringCache.Proofs.WallClock
import ExpiringCache.Proofs.Deadlines
import ExpiringCache.Proofs.Origins
import ExpiringCache.Proofs.Retries
import ExpiringCache.Proofs.Spelling
import ExpiringCache.Proofs.Grammar
import ExpiringCache.Proofs.Format
import ExpiringCache.Proofs.Acceptance
