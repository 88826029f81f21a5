import OverlayEngine.Applied
import OverlayEngine.Links
import OverlayEngine.Deferral
import OverlayEngine.Worker.PotChangesKept
import OverlayEngine.Worker.EvictionsRace
import OverlayEngine.Worker.ArcadeReorgKept
import OverlayEngine.Worker.ChainFeedKept
import OverlayEngine.Worker.ReorgSweep
import OverlayEngine.Worker.ReverifyEvidence
import OverlayEngine.Worker.DeadLettersKept
import OverlayEngine.AppLayer.BeltLaneKept
import OverlayEngine.AppLayer.PushCoalesceKept
import OverlayEngine.AppLayer.HeldEventsKept
import OverlayEngine.AppLayer.MirrorFactsKept
import OverlayEngine.Worker.OutputBeefKept
import OverlayEngine.Worker.DeadLettersBounds
import OverlayEngine.Worker.DroppedObjects
import OverlayEngine.Worker.DeferredGraphsWhole
import OverlayEngine.Worker.DeferredJobsWhole
import OverlayEngine.AppLayer.TrackerWordsKept
import OverlayEngine.Worker.ReplayTwinsKept
import OverlayEngine.Pot.SpendProven
import OverlayEngine.Pot.SpenderPayouts
import OverlayEngine.Pot.HopLinksKept
import OverlayEngine.Pot.PotBeefsKept
import OverlayEngine.AppLayer.HopProbeMemosKept
import OverlayEngine.Pot.PassWritesKept
import OverlayEngine.AppLayer.PotHookKept
import OverlayEngine.AppLayer.OwedBackfillKept
import OverlayEngine.AppLayer.OwedSweepKept
import OverlayEngine.Pot.Covenant
import OverlayEngine.AppLayer.JudgeCommits
import OverlayEngine.PeerHealth
import OverlayEngine.PageBatch
import OverlayEngine.AppLayer.TipGates
import OverlayEngine.ScriptDoorSound
import OverlayEngine.CarriedWalksKept
import OverlayEngine.AppLayer.RejudgeKept
import OverlayEngine.AppLayer.AckedMarksKept
import OverlayEngine.Worker.ChangeFlushKept
import OverlayEngine.Worker.DeferredBytes
import OverlayEngine.Worker.GraphCeilings
import OverlayEngine.Pot.OwnBump
import OverlayEngine.AppLayer.JudgeRankHops
import OverlayEngine.Worker.ConflictWalk
import OverlayEngine.AppLayer.BurstTurnsLive
import OverlayEngine.Pot.SpendReplayConverges
import OverlayEngine.CoinsRemoved
import OverlayEngine.QuestionReads
import OverlayEngine.Worker.ArcadeStamp
import OverlayEngine.Pot.JoinWindows
import OverlayEngine.Worker.RawSources
import OverlayEngine.AppLayer.OwedBatchKept
import OverlayEngine.Worker.ProofReplayKept
import OverlayEngine.NodeBatch
import OverlayEngine.BumpIndices
import OverlayEngine.NodeTexts
import OverlayEngine.StreamSizing
import OverlayEngine.StaticRefusals
import OverlayEngine.ProofIngest
import OverlayEngine.GraphAssemblySound
import OverlayEngine.FeeFacts
import OverlayEngine.PeerOrigins
import OverlayEngine.Pot.Markers
import OverlayEngine.Pot.SpendSigners
import OverlayEngine.FaultMemos
import OverlayEngine.Locality
import OverlayEngine.WalkedGraph
import OverlayEngine.Worker.EvictionsRows
