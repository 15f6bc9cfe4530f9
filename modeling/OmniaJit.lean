import OmniaJit.Bin.ErrorReport
import OmniaJit.Bin.Launchers
import OmniaJit.Bin.Loader
import OmniaJit.Bin.ScriptPath
import OmniaJit.Exec.CallOrder
import OmniaJit.Exec.Collector
import OmniaJit.Exec.Context
import OmniaJit.Exec.Deadlock
import OmniaJit.Exec.FileOutput
import OmniaJit.Exec.Leaks
import OmniaJit.Exec.Report
import OmniaJit.Exec.StdinDelivery
import OmniaJit.Lua.PatternScan
import OmniaJit.Lua.StringFind
import OmniaJit.Lua.TableMove
import OmniaJit.Lua.TableSorted
import OmniaJit.Random.RandomString
import OmniaJit.Random.Uuid
import OmniaJit.Std.BorrowedStreams
import OmniaJit.Std.Filter
import OmniaJit.Std.Find
import OmniaJit.Std.InsertIf
import OmniaJit.Std.PctxFormat
import OmniaJit.Std.PctxOutput
import OmniaJit.Std.PctxScript
import OmniaJit.Std.RingTable
import OmniaJit.Std.Sql
import OmniaJit.Vendor.Base64Codec
import OmniaJit.Vendor.FfiListWalk
import OmniaJit.Vendor.JsonDecoded
import OmniaJit.Vendor.JsonDecoder
import OmniaJit.Vendor.JsonEncoder
import OmniaJit.Vendor.JsonReader
import OmniaJit.Vendor.JsonSessions
