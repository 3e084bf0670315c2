import Oxpinyin.ParserSpec
import Oxpinyin.ExpandKeys
import Oxpinyin.KBestSpec
import Oxpinyin.ConstrainedDecode
import Oxpinyin.MaskedLog
import Oxpinyin.PhraseChecks
import Oxpinyin.ReadingEdits
import Oxpinyin.SummaryFlags
import Oxpinyin.IndexReadings
import Oxpinyin.TrainingCheck
import Oxpinyin.KmmRuns
import Oxpinyin.TrainingPlan
import Oxpinyin.SelectionRecord
import Oxpinyin.PhraseSegment
import Oxpinyin.RememberWalk
import Oxpinyin.CursorMoves
import Oxpinyin.BigramExport
import Oxpinyin.SessionOffsets
import Oxpinyin.ScanColumns
import Oxpinyin.UnigramWalk
import Oxpinyin.MergeSequence
import Oxpinyin.PhraseEntries
import Oxpinyin.IndexWalk
import Oxpinyin.InterpolationTurns
import Oxpinyin.CandidateRanking
import Oxpinyin.SystemReading
import Oxpinyin.FlexibleGram
import Oxpinyin.InterpReader
import Oxpinyin.MaskOut
import Oxpinyin.RemovedFlag
import Oxpinyin.PricedLookup
import Oxpinyin.CostRatio
import Oxpinyin.BeamSelection
