import TrustedReleases.Archive.Agreement
import TrustedReleases.Catalogue.Agree
import TrustedReleases.Catalogue.Clean
import TrustedReleases.Catalogue.Protected
import TrustedReleases.Cycles.Agreement
import TrustedReleases.DayLog.Interrupted
import TrustedReleases.DayLog.Partition
import TrustedReleases.Dist.Reported
import TrustedReleases.Dist.Superseded
import TrustedReleases.Dist.Split
import TrustedReleases.Dist.Suffixes
import TrustedReleases.Draft.Conserve
import TrustedReleases.Gates.TwoPerson
import TrustedReleases.Keys.Reflected
import TrustedReleases.Keys.Log
import TrustedReleases.Lib.Bytes
import TrustedReleases.Lib.Calendar
import TrustedReleases.Lib.ReedSolomon
import TrustedReleases.Lib.Search
import TrustedReleases.Lib.PathTree
import TrustedReleases.Lib.Rekey
import TrustedReleases.Lib.Table
import TrustedReleases.Lib.Withdrawals
import TrustedReleases.Merge.Bookkeeping
import TrustedReleases.Noisy.Detection
import TrustedReleases.Noisy.Domain
import TrustedReleases.Pgp.Overtaken
import TrustedReleases.Pgp.Framing
import TrustedReleases.Revision.Attribution
import TrustedReleases.Pgp.Merge
import TrustedReleases.PubSub.PassedOver
import TrustedReleases.Quarantine.Sound
import TrustedReleases.Revision.Concurrent
import TrustedReleases.Sbom.Licenses
import TrustedReleases.TaskQueue.Safety
import TrustedReleases.Tabulate.Listing
import TrustedReleases.Unpublish.Safety
import TrustedReleases.Versions.CycleRanges
import TrustedReleases.Versions.SortKey
import TrustedReleases.Vote.Carried
import TrustedReleases.Pgp.Answers
import TrustedReleases.Streaming.Cursor
import TrustedReleases.Streaming.Projection
import TrustedReleases.Streaming.Projected
import TrustedReleases.Sbom.Patching
import TrustedReleases.Sbom.Patched
import TrustedReleases.Streaming.Walk
import TrustedReleases.Versions.CalverCycles
import TrustedReleases.Versions.CalverOrder
import TrustedReleases.Sealing.Refusal
import TrustedReleases.Streaming.Reordered
import TrustedReleases.Swhid.Parity
import TrustedReleases.Access.Revocation
import TrustedReleases.Ssh.RateLimit
import TrustedReleases.Ssh.Executed
import TrustedReleases.Ssh.SingleUse
import TrustedReleases.Publish.Exact
