import DirtyPages.Lib.Outcome
import DirtyPages.Lib.Ranking
import DirtyPages.Lib.XorShift
import DirtyPages.Lib.ReversibleWalk
import DirtyPages.Lib.KeyedFold
import DirtyPages.Lib.BucketLog
import DirtyPages.Lib.SearchTree
import DirtyPages.Lib.Representatives
import DirtyPages.Lib.Equidistribution
import DirtyPages.Lib.ScaledTotal
import DirtyPages.Lib.Shuffle
import DirtyPages.Lib.ShuffleCount
import DirtyPages.Lib.HeapChain
import DirtyPages.Lib.RepString
import DirtyPages.Lib.Scatter
import DirtyPages.Lib.AesRound
import DirtyPages.Basic
import DirtyPages.SampleHash
import DirtyPages.DeltaHash
import DirtyPages.SampledWords
import DirtyPages.Benefit
import DirtyPages.BenefitScale
import DirtyPages.BenefitLedger
import DirtyPages.PagesScanned
import DirtyPages.PageHash
import DirtyPages.Collision
import DirtyPages.BlindSpot
import DirtyPages.Adapt
import DirtyPages.AdaptRange
import DirtyPages.NegRatio
import DirtyPages.WorkTotals
import DirtyPages.RandomNums
import DirtyPages.DetectionRate
import DirtyPages.Drift
import DirtyPages.StableTree
import DirtyPages.WorkCharge
import DirtyPages.StableInvariant
import DirtyPages.StableSteps
import DirtyPages.StableInsert
import DirtyPages.StableWalk
import DirtyPages.StableRebuild
import DirtyPages.StableNodes
import DirtyPages.StableCharges
import DirtyPages.StableLookup
import DirtyPages.StableFate
import DirtyPages.StableRepresentatives
import DirtyPages.Keyhole
import DirtyPages.SharingCounters
import DirtyPages.System
import DirtyPages.ScannedCount
import DirtyPages.ZeroPage
import DirtyPages.WriteProtect
import DirtyPages.Probe
import DirtyPages.ProbeBound
import DirtyPages.Pressure
import DirtyPages.FastHash
import DirtyPages.Hashalg
import DirtyPages.BlockChange
import DirtyPages.MemCompare
import DirtyPages.Calibration
import DirtyPages.AesAccumulator
import DirtyPages.Cuda
import DirtyPages.HashTable
import DirtyPages.BucketCount
import DirtyPages.HashSpread
import DirtyPages.HeapTable
import DirtyPages.HeapTables
