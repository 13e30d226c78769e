import AmberStore.Packstore.CrashSafety
import AmberStore.Server.Nonces
import AmberStore.Remotesync.Rounds
import AmberStore.Remotesync.Push
import AmberStore.Packstore.LoneActive
import AmberStore.Packstore.SealDurable
import AmberStore.Fstree.Listing
import AmberStore.Ingest.Sizes
import AmberStore.Ingest.Decodable
import AmberStore.Fstree.Resync
import AmberStore.Ingest.PbuilderSpec
import AmberStore.Inbox.Failures
import AmberStore.Inbox.Durable
import AmberStore.Amberpack.Grammar
import AmberStore.Server.Refs
import AmberStore.Packstore.Scrub
import AmberStore.Gc.Mark
import AmberStore.Packstore.ParallelSpec
import AmberStore.Packstore.MappingsSafety
import AmberStore.Packstore.UploadsSpec
import AmberStore.Remotesync.FetchBound
import AmberStore.Server.Grants
import AmberStore.Tarextract.DirPass
import AmberStore.Tarexport.Names
import AmberStore.Packstore.MaximalPrefix
import AmberStore.Fuse.Backing
