import EzBakeCommon.Lru.Survival
import EzBakeCommon.Lru.Capacity
import EzBakeCommon.Lru.Isolation
import EzBakeCommon.Lru.Rotation
import EzBakeCommon.Lru.Ledger
import EzBakeCommon.Lru.Window
import EzBakeCommon.Timed.InFlight
import EzBakeCommon.Timed.Duplicates
import EzBakeCommon.Timed.Lookup
import EzBakeCommon.Timed.Staleness
import EzBakeCommon.Timed.Views
import EzBakeCommon.Timed.Purge
import EzBakeCommon.Timed.Removal
import EzBakeCommon.Timed.Lifetime
import EzBakeCommon.Timed.Overflow
import EzBakeCommon.Timed.Misses
import EzBakeCommon.Timed.WithoutExpiration
import EzBakeCommon.Properties.RoundTrip
import EzBakeCommon.Properties.Merging
import EzBakeCommon.Properties.FailedLoad
import EzBakeCommon.Properties.Whitespace
import EzBakeCommon.Properties.Journal
import EzBakeCommon.Properties.Threads
import EzBakeCommon.Properties.TypedValues
import EzBakeCommon.Properties.Utility
import EzBakeCommon.Security.Unpadding
import EzBakeCommon.Security.HostileInput
import EzBakeCommon.Security.RefusedKey
import EzBakeCommon.Security.Tampering
import EzBakeCommon.Security.Base64Bound
import EzBakeCommon.Security.Bounds
import EzBakeCommon.Hosts.Order
import EzBakeCommon.Hosts.Text
import EzBakeCommon.Hosts.ThriftPrivateInfo
import EzBakeCommon.Hosts.JavaAgreement
import EzBakeCommon.Hosts.Printing
import EzBakeCommon.Dates.Order
