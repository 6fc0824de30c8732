import PerfectHash.Pperf
import PerfectHash.HanovPP.Hash
import PerfectHash.HanovPP.Room
import PerfectHash.HanovPP.GivenBytes
import PerfectHash.HanovPP.CallerArray
import PerfectHash.HanovPP.Widths
import PerfectHash.Pearson.Truncation
import PerfectHash.Pearson.Absent
import PerfectHash.Pearson.GivenBytes
import PerfectHash.Pearson.CountWidths
import PerfectHash.Pearson.Cost
import PerfectHash.Pearson.InBounds
import PerfectHash.Pearson.Best
import PerfectHash.Pearson.Shuffle
import PerfectHash.PerfectHashInt.Search
import PerfectHash.PerfectHashInt.Text
import PerfectHash.Urban.Hashref
import PerfectHash.Switch.Correctness
import PerfectHash.Switch.Termination
import PerfectHash.Switch.KeyText
import PerfectHash.C.PoolLayout
import PerfectHash.C.Utf8
import PerfectHash.Xs.Crc32Sse42
import PerfectHash.Xs.FnvHashLen
import PerfectHash.Xs.XsHash
import PerfectHash.Xs.Pearson16
import PerfectHash.Xs.Pearson32
import PerfectHash.Cmph.Select.Query
import PerfectHash.Cmph.CompressedSeq.Query
import PerfectHash.Cmph.Chd
