import IpRange.SlottedBytesCalls
import IpRange.FixedTreeRelease
import IpRange.CommitHistory
import IpRange.RangeBulkOffers
import IpRange.RangeTransform
import IpRange.TimestampRefresh
import IpRange.PublicationRuns
import IpRange.FeedCatalog
import IpRange.FixedTreeRootCheck
import IpRange.FixedTreeSplits
import IpRange.IpsetLive
import IpRange.IpsetCompare
import IpRange.IpsetLines
import IpRange.IpsetMemory
import IpRange.IpsetText
import IpRange.Retirement
