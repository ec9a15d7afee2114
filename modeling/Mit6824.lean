import Mit6824.CtrlBalance
import Mit6824.CtrlEnds
import Mit6824.CtrlQueries
import Mit6824.KvChecked
import Mit6824.KvConcurrent
import Mit6824.KvLinear
import Mit6824.KvProgress
import Mit6824.MrOutput
import Mit6824.RaftCoherence
import Mit6824.RaftCompaction
import Mit6824.RaftProgress
import Mit6824.RaftRules
import Mit6824.RaftStream
import Mit6824.RaftVoteOnce
import Mit6824.ShardAgreement
import Mit6824.ShardClerk
import Mit6824.ShardMigration
import Mit6824.ShardSafety
import Mit6824.ShardWrites
