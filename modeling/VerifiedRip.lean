import VerifiedRip.Audio.Signal
import VerifiedRip.Disc.Basic
import VerifiedRip.Error
import VerifiedRip.Drive.TestFlags
import VerifiedRip.Drive.Basic
import VerifiedRip.Disc.Memory
import VerifiedRip.Event
import VerifiedRip.Drive.Read
import VerifiedRip.Match.ValueIndex
import VerifiedRip.Block.Raw
import VerifiedRip.Arena
import VerifiedRip.Block.Fragment
import VerifiedRip.Block.Root
import VerifiedRip.Match.Agreement
import VerifiedRip.Cache
import VerifiedRip.Tracker
import VerifiedRip.Session.Basic
import VerifiedRip.Match.Rift
import VerifiedRip.Match.Runs
import VerifiedRip.Match.Alignment
import VerifiedRip.Session.Verify
import VerifiedRip.Session.Merge
import VerifiedRip.Session.Read
import VerifiedRip.Proofs.RootFrame
import VerifiedRip.Proofs.StaleRoot
import VerifiedRip.Proofs.OrderList
import VerifiedRip.Proofs.CacheOrder
import VerifiedRip.Proofs.DriveContract
import VerifiedRip.Proofs.ReadSteps
import VerifiedRip.Proofs.TrackerDiscipline
import VerifiedRip.Proofs.SessionRuns
import VerifiedRip.Proofs.Drift
import VerifiedRip.Proofs.MergeFuel
import VerifiedRip.Proofs.Progress
import VerifiedRip.Proofs.RiftSearch
import VerifiedRip.Proofs.RiftRepair
import VerifiedRip.Proofs.ArenaHistory
import VerifiedRip.Proofs.AgreeingWalk
import VerifiedRip.Proofs.ValueChains
import VerifiedRip.Proofs.SyncSearch
import VerifiedRip.Proofs.RunScan
import VerifiedRip.Proofs.CacheEviction
import VerifiedRip.Proofs.RootAlignment
import VerifiedRip.Proofs.DisabledStages
import VerifiedRip.Proofs.SkipFrame
import VerifiedRip.Proofs.StaleSilence
import VerifiedRip.Proofs.RetryBudget
import VerifiedRip.Proofs.ShiftedRead
import VerifiedRip.Proofs.JoinedRanges
import VerifiedRip.Proofs.RiftMirror
import VerifiedRip.Audio.Pattern
import VerifiedRip.Disc.Scripted
import VerifiedRip.Drive.Jitter
