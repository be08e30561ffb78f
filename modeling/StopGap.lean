import StopGap.Lib.Runs
import StopGap.Lib.OrdMap
import StopGap.Lib.Exec
import StopGap.Lib.Rank
import StopGap.Lib.Knapsack
import StopGap.Volume
import StopGap.Gaps
import StopGap.Files
import StopGap.Chooser
import StopGap.Operation
import StopGap.World
import StopGap.Proofs.GapIndex
import StopGap.Proofs.BestGap
import StopGap.Proofs.GapRuns
import StopGap.Proofs.GapReach
import StopGap.Proofs.FileIndex
import StopGap.Proofs.Clusters
import StopGap.Proofs.Dump
import StopGap.Proofs.Knapsack
import StopGap.Proofs.Chooser
import StopGap.Proofs.Candidates
import StopGap.Proofs.Steps
import StopGap.Proofs.Mirror
import StopGap.Proofs.Stock
import StopGap.Proofs.Moves
import StopGap.Proofs.CloseGaps
import StopGap.Proofs.ClosedWorld
import StopGap.Proofs.Progress
import StopGap.Proofs.Termination
import StopGap.Proofs.GapSafety
import StopGap.Proofs.Requests
import StopGap.Proofs.SafeMoves
import StopGap.Proofs.Maps
import StopGap.Proofs.Presence
import StopGap.Proofs.Widening
import StopGap.Proofs.FirstGap
import StopGap.Proofs.Nodes
import StopGap.Proofs.Predecessor
import StopGap.Lib.Text
import StopGap.Path
import StopGap.Proofs.Path
import StopGap.Proofs.Rightmost
import StopGap.Lib.Bytes
import StopGap.Lib.Bisect
import StopGap.RunList
import StopGap.Mft
import StopGap.FullPaths
import StopGap.Proofs.RunList
import StopGap.Proofs.MftSteps
import StopGap.Proofs.MftOrder
import StopGap.Proofs.MftBounds
import StopGap.Proofs.FullPaths
import StopGap.Proofs.MftRecords
import StopGap.Proofs.MftLists
import StopGap.Proofs.MftBytes
import StopGap.Proofs.MftScan
import StopGap.Proofs.FileNames
import StopGap.Proofs.Movable
import StopGap.Proofs.Preserved
import StopGap.Proofs.Leftovers
import StopGap.Portions
import StopGap.Proofs.Portions
import StopGap.ScanDisk
import StopGap.Proofs.ScanDisk
import StopGap.Proofs.Walk
import StopGap.Lib.Ring
import StopGap.LinkedList
import StopGap.Proofs.LinkedList
import StopGap.Report
import StopGap.Proofs.Report
