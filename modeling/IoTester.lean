import IoTester.Lib.Cursor
import IoTester.TailPosix
import IoTester.IoPosix
import IoTester.PosixSound
import IoTester.Lib.Bytes
import IoTester.IoLibaio
import IoTester.LibaioSound
import IoTester.IoSpdk
import IoTester.BackendSound
import IoTester.Lib.Machine
import IoTester.TailSpdk
import IoTester.TailSpdkSound
import IoTester.TailSpdkWait
import IoTester.TailSpdkSpans
import IoTester.Lib.Peterson
import IoTester.Threads
import IoTester.ThreadsSound
import IoTester.Detail
import IoTester.DetailSound
import IoTester.CommandLine
import IoTester.LatFile
import IoTester.Lib.Ranks
import IoTester.Percentiles
import IoTester.ThreadsFair
import IoTester.DetailWindows
import IoTester.DetailFaults
import IoTester.TailPosixMain
import IoTester.TailPosixThreads
import IoTester.TailTime
import IoTester.Lib.Interleave
import IoTester.WrittenOnce
import IoTester.IoLibaioMain
import IoTester.CommandLineSound
import IoTester.ThreadsProgress
import IoTester.IoSpdkDevice
import IoTester.IoSpdkEnds
import IoTester.Lib.Fair
import IoTester.ThreadsTermination
import IoTester.TailSpdkTime
import IoTester.TailSpdkEnds
import IoTester.DetailMain
import IoTester.DetailOrder
import IoTester.IoLibaioEvents
import IoTester.IoLibaioEventsSound
import IoTester.IoLibaioThreads
import IoTester.TailPosixEnds
import IoTester.TailPosixFiles
import IoTester.TailSpdkResults
import IoTester.IoPosixMain
import IoTester.IoPosixThreads
import IoTester.PmdkObject
import IoTester.DetailDouble
import IoTester.IoReport
import IoTester.TailSpdkRatio
import IoTester.IoSpdkMain
