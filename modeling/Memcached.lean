import Memcached.Slabs.ListSize
import Memcached.Slabs.Accounting
import Memcached.Slabs.Conservation
import Memcached.Slabs.MovedPage
import Memcached.Items.MapRefinement
import Memcached.Items.DelayedFlush
import Memcached.Items.Maintenance
import Memcached.Storage.Rescues
import Memcached.Storage.Accounts
import Memcached.Text.FetchLimit
import Memcached.Text.Winners
import Memcached.Text.Ttl
import Memcached.Logger.Watchers
import Memcached.Net.Uploads
import Memcached.Proxy.KeyFilter
import Memcached.Proxy.Queues
import Memcached.Proxy.Reads
import Memcached.Binary.GetResponses
import Memcached.Binary.Framing
import Memcached.Restart.Metadata
import Memcached.Restart.Fixup
import Memcached.Items.Recache
import Memcached.Items.DeltaRuns
import Memcached.Assoc.Locks
import Memcached.Items.SizesHist
import Memcached.Storage.IoQueue
import Memcached.Storage.ReadBuffers
import Memcached.Text.AuthExchange
import Memcached.Util.Cache
import Memcached.Util.UriEncode
import Memcached.Slabs.Classes
import Memcached.Proxy.Await
