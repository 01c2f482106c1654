import Netstore.Admission
import Netstore.Agreement
import Netstore.Confinement
import Netstore.Durability
import Netstore.Escape
import Netstore.FilesList
import Netstore.Refinement
import Netstore.ThreadStart
import Netstore.UploadReport
import Netstore.Removal
import Netstore.UploadTrace
import Netstore.UploadTransfer
import Netstore.Format
import Netstore.Discovery
import Netstore.Serial
import Netstore.Fleet
import Netstore.Search
import Netstore.Snapshot
import Netstore.Fetch
import Netstore.Grammar
import Netstore.Naming
import Netstore.Commands
import Netstore.Reports
import Netstore.Downloads
import Netstore.DownloadLoops
import Netstore.UploadLoops
import Netstore.Deadline
import Netstore.Ownership
import Netstore.Descriptors
import Netstore.Arrays
import Netstore.ListBuffer
import Netstore.Views
import Netstore.Sharing
import Netstore.Rest
import Netstore.Locking
import Netstore.Disk
import Netstore.Readers
import Netstore.Ledger
import Netstore.SharedBuffer
import Netstore.Fetches
import Netstore.Addresses
import Netstore.Progress
import Netstore.Delivery
import Netstore.Forgetting
import Netstore.Concurrency
import Netstore.Announcements
