import Foedus.Assorted.BitField
import Foedus.Assorted.FixedString
import Foedus.Assorted.FixedStringOrder
import Foedus.Thread.ThreadId
import Foedus.Storage.PageVersion
import Foedus.Storage.PageVersionLayout
import Foedus.Storage.VersionWriter
import Foedus.Storage.VersionStep
import Foedus.Storage.VersionProtocol
import Foedus.Storage.VersionRefinement
import Foedus.Storage.VersionBudget
import Foedus.Storage.OptimisticRead
import Foedus.Storage.Page
import Foedus.Storage.Array.ArrayStorage
import Foedus.Savepoint.Savepoint
