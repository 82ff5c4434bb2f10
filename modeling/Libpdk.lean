import Libpdk.Thread.RecursiveLock
import Libpdk.Thread.ReadWriteLockSafe
import Libpdk.Thread.ThreadPoolSafe
import Libpdk.Settings.IniRoundTrip
import Libpdk.Json.ValidateSafe
import Libpdk.Json.JsonArrayRefines
import Libpdk.Utils.CacheSafe
import Libpdk.Kernel.TimerOrder
import Libpdk.Settings.ConfFileGet
import Libpdk.Settings.ConfFileSync
import Libpdk.Settings.ConfFileWriters
import Libpdk.Utils.CommandLineTables
import Libpdk.Io.DataStreamRoundTrip
import Libpdk.Codecs.Utf8Codec
import Libpdk.Codecs.Utf8EncodeChunks
import Libpdk.Codecs.Utf32
import Libpdk.Ds.RingBufferFront
import Libpdk.Lang.StringCompareFaithful
import Libpdk.Json.Writer
import Libpdk.Json.Entries
import Libpdk.Ds.BitArrayOps
import Libpdk.Io.ResourceFind
import Libpdk.Lang.StringCompareMixed
import Libpdk.Codecs.Utf8SimdAgrees
import Libpdk.Json.Number
import Libpdk.Lang.StringSearchFromEnd
import Libpdk.Lang.StringSearchExact
import Libpdk.Lang.StringReplaceChar
import Libpdk.Json.DocumentGarbage
import Libpdk.Json.AnyValue
import Libpdk.Lang.StringRemove
import Libpdk.Lang.StringSplit
import Libpdk.Ds.ByteArraySearchEdges
import Libpdk.Lang.StringMultiArg
import Libpdk.Lang.Hangul
import Libpdk.Lang.CanonicalOrder
import Libpdk.Ds.ByteArrayReplaceAllIff
import Libpdk.Time.TimeOfDay
import Libpdk.Time.DateWeeks
import Libpdk.Time.DateMonths
import Libpdk.Ds.ByteArrayEncodings
import Libpdk.Settings.IniValues
import Libpdk.Settings.IniKeys
import Libpdk.Settings.IniCodecRoundTrip
import Libpdk.Settings.IniIgnored
import Libpdk.Json.NumberText
import Libpdk.Utils.VersionOrder
import Libpdk.Io.FileNames
import Libpdk.Io.DirEntries
import Libpdk.Settings.GroupPrefix
import Libpdk.Settings.ConfFileFailures
import Libpdk.Settings.ConfFileLazy
import Libpdk.Ds.ByteArrayNumbers
import Libpdk.Utils.LocaleGroups
import Libpdk.Utils.VersionText
import Libpdk.Io.Peeking
import Libpdk.Io.TextStreamIntegers
import Libpdk.Kernel.DeadlineTimer
import Libpdk.Lang.Latin1
import Libpdk.Utils.NumerusRules
import Libpdk.Thread.PoolOrder
