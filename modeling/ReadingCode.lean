import ReadingCode.ArraySplice
import ReadingCode.Base64
import ReadingCode.BaseConversion
import ReadingCode.ByteRanges
import ReadingCode.ChunkedGrammar
import ReadingCode.CycleMark
import ReadingCode.FastcgiRequest
import ReadingCode.FcgiClients
import ReadingCode.FcgiRequests
import ReadingCode.FcgiWrites
import ReadingCode.HpackTable
import ReadingCode.HtmlNextChar
import ReadingCode.HuffCode
import ReadingCode.JsonOutput
import ReadingCode.LimitReqBound
import ReadingCode.LocationLookup
import ReadingCode.LoopHeaders
import ReadingCode.MtRandRange
import ReadingCode.MultipartRuns
import ReadingCode.NopRemovalSplits
import ReadingCode.NumericKeys
import ReadingCode.PowFunction
import ReadingCode.PriorityInvariant
import ReadingCode.QuotedPrintable
import ReadingCode.RadixTree
import ReadingCode.RequestHead
import ReadingCode.RoundRobin
import ReadingCode.SerializeRoundTrip
import ReadingCode.SlotStability
import ReadingCode.SplDllistRuns
import ReadingCode.SplHeap
import ReadingCode.SsaRanges
import ReadingCode.StringCompare
import ReadingCode.StringReplace
import ReadingCode.UnsafeUri
import ReadingCode.UnserializeRange
import ReadingCode.UriSegments
import ReadingCode.UrlCoding
import ReadingCode.UuCoding
import ReadingCode.VersionOrder
import ReadingCode.WildcardCombined
import ReadingCode.ZendArrayDup
import ReadingCode.ZendQsort
