import Edelib.Foundation.ClassMap
import Edelib.Foundation.Separated
import Edelib.Foundation.CString
import Edelib.Foundation.KeyedList
import Edelib.Text.StrUtil
import Edelib.Config.Model
import Edelib.Config.Map
import Edelib.Config.File
import Edelib.Config.Lines
import Edelib.Config.RoundTrip
import Edelib.Foundation.Bytes
import Edelib.Foundation.Buffer
import Edelib.Foundation.SortedList
import Edelib.XSettings.Setting
import Edelib.XSettings.Wire
import Edelib.XSettings.Layout
import Edelib.XSettings.DecodeSafety
import Edelib.XSettings.RoundTrip
import Edelib.XSettings.NotifyChanges
import Edelib.Foundation.Transition
import Edelib.XSettings.Manager
import Edelib.XSettings.ManagerRuns
import Edelib.XSettings.Display
import Edelib.XSettings.Serial
import Edelib.XSettings.Updates
import Edelib.Edbus.Data
import Edelib.Edbus.Equality
import Edelib.Edbus.StructuralEquality
import Edelib.Edbus.ObjectPath
import Edelib.Edbus.LibDBus
import Edelib.Edbus.Containers
import Edelib.Edbus.Marshal
import Edelib.Edbus.Sendable
import Edelib.Edbus.MarshalRoundTrip
import Edelib.Edbus.CheckedMessages
import Edelib.Edbus.MarshalExact
import Edelib.Edbus.Connection
import Edelib.Edbus.ObjectPathRuns
import Edelib.Edbus.DictMap
import Edelib.Edbus.Announced
import Edelib.Edbus.AnnouncedParts
import Edelib.Edbus.MessageRuns
import Edelib.Foundation.SharedHeap
import Edelib.Foundation.SharedContent
import Edelib.Edbus.Sharing
import Edelib.Edbus.SharingSound
import Edelib.Foundation.LinkedRing
import Edelib.Base.List
import Edelib.Base.ListRefines
import Edelib.Foundation.LinkedChain
import Edelib.Foundation.LinkedPath
import Edelib.Base.Sort
import Edelib.Foundation.StrictSort
import Edelib.Base.SortRefines
import Edelib.Base.SortOrder
import Edelib.Foundation.Blocks
import Edelib.Text.String
import Edelib.Text.StringRefines
import Edelib.Text.Members
import Edelib.Text.Missing
import Edelib.Text.Trimming
import Edelib.Text.Reachable
import Edelib.Text.Growth
import Edelib.Text.Comparisons
import Edelib.Text.Searching
import Edelib.Text.Concatenation
import Edelib.Config.Plain
import Edelib.Desktop.DesktopFile
import Edelib.Desktop.TypeKey
import Edelib.Desktop.ShowIn
import Edelib.Ipc.Listener
import Edelib.Ipc.ListenerRuns
import Edelib.Ipc.SipcMessages
import Edelib.Foundation.Ledger
import Edelib.Ipc.SipcOwnership
import Edelib.Theme.Theme
import Edelib.Theme.GetItem
import Edelib.Process.Exec
import Edelib.Process.RunSync
import Edelib.Process.RunAsync
import Edelib.Process.RunAsyncRuns
import Edelib.Process.RunAsyncFailures
import Edelib.Foundation.Unfolding
import Edelib.Icon.IconTheme
import Edelib.Icon.ThemeTree
import Edelib.Icon.ThemeLoading
import Edelib.Icon.Dirlist
import Edelib.Icon.IconLoader
import Edelib.Icon.IconLoaderRuns
import Edelib.Icon.FindIcon
import Edelib.Config.Getters
import Edelib.Foundation.Remembered
import Edelib.Config.Reads
import Edelib.Config.ReadRuns
import Edelib.Config.Grammar
import Edelib.Config.Reading
import Edelib.Config.Content
import Edelib.Resource.Resource
import Edelib.Resource.SysOnly
import Edelib.Config.Updates
import Edelib.Config.Localized
import Edelib.Resource.Merge
import Edelib.Foundation.Paired
import Edelib.DirWatch.DirWatchInotify
import Edelib.DirWatch.InStep
import Edelib.Edbus.Watches
import Edelib.Edbus.Timeouts
import Edelib.Edbus.ValidPath
import Edelib.Foundation.Calendar
import Edelib.DateTime.Date
import Edelib.DateTime.Successor
import Edelib.Foundation.Uses
import Edelib.Edbus.EdbusList
import Edelib.Edbus.EdbusListRefines
import Edelib.Edbus.EdbusListRuns
import Edelib.DateTime.Predecessor
import Edelib.DateTime.Stored
import Edelib.DateTime.Time
import Edelib.Text.BuildFilename
import Edelib.Text.Stringtok
import Edelib.Text.Regex
import Edelib.File.ReadLine
import Edelib.File.OpenClose
import Edelib.Netwm.Property
import Edelib.Netwm.Icon
import Edelib.Netwm.Names
import Edelib.Foundation.CInt
import Edelib.Foundation.Numeral
import Edelib.Color.Html
import Edelib.Foundation.Rows
import Edelib.Widgets.ExpandableGroup
import Edelib.Foundation.SExpr
import Edelib.DBusExplorer.Entity
import Edelib.DBusExplorer.ScriptCalls
import Edelib.DBusExplorer.ScriptSends
import Edelib.Foundation.PathTree
import Edelib.DBusExplorer.ScanObject
import Edelib.Process.ReadInts
import Edelib.Process.Argv
import Edelib.Foundation.TextBlock
import Edelib.Process.PtyProcess
import Edelib.Foundation.Observed
import Edelib.Mime.MimeType
import Edelib.Font.ParseFont
import Edelib.Foundation.Interned
import Edelib.Font.FontHolder
import Edelib.Foundation.KeyValue
import Edelib.Font.FontDb
import Edelib.Foundation.Scanner
import Edelib.SchemeEditor.StyleParse
import Edelib.SchemeEditor.StyleUpdate
import Edelib.ForeignCallback.Registry
import Edelib.ForeignCallback.ForeignCallback
import Edelib.Foundation.OperatorTree
import Edelib.Sslib.Infix
import Edelib.Foundation.Consumer
import Edelib.Sslib.Json
import Edelib.Sslib.JsonRoundTrip
import Edelib.Foundation.SlottedPage
import Edelib.Foundation.HeapTrie
import Edelib.Foundation.Answers
import Edelib.Sdbm.Page
import Edelib.Sdbm.PageHolds
import Edelib.Sdbm.Database
import Edelib.Sdbm.Trie
import Edelib.Sdbm.Stored
import Edelib.Sdbm.Operations
import Edelib.Sdbm.Refines
import Edelib.Sdbm.Walk
import Edelib.Ts.Cells
import Edelib.Ts.Marking
import Edelib.Ts.Collecting
import Edelib.Ts.Allocator
import Edelib.Ts.FreeCells
import Edelib.Ts.Renewing
import Edelib.Ts.Allocating
import Edelib.Ts.Runs
import Edelib.Ts.Endless
import Edelib.Ts.Mirrored
