import Esp32Probes.Lib.CBuffer
import Esp32Probes.Lib.BigEndian
import Esp32Probes.Lib.Decimal
import Esp32Probes.Lib.Printf
import Esp32Probes.Lib.Json
import Esp32Probes.Lib.DottedQuad
import Esp32Probes.Lib.Machine
import Esp32Probes.Lib.WriteLog
import Esp32Probes.Lib.Framing
import Esp32Probes.Lib.Poison
import Esp32Probes.Lib.Handles
import Esp32Probes.Lib.LowWater
import Esp32Probes.Modbus.Handler
import Esp32Probes.Modbus.Checked
import Esp32Probes.Modbus.Reply
import Esp32Probes.Modbus.Server
import Esp32Probes.Modbus.Framed
import Esp32Probes.Modbus.RegisterStore
import Esp32Probes.Modbus.Segmentation
import Esp32Probes.Modbus.SharpCuts
import Esp32Probes.Modbus.Refusals
import Esp32Probes.Modbus.Confinement
import Esp32Probes.Modbus.Sockets
import Esp32Probes.EthernetStatus.StatusBody
import Esp32Probes.OpcUa.AddressSpace
import Esp32Probes.OpcUa.SdLog
import Esp32Probes.OpcUa.ServerTask
import Esp32Probes.OpcUa.CommandCount
import Esp32Probes.OpcUa.CommandOrder
import Esp32Probes.OpcUa.CommandFailure
import Esp32Probes.OpcUa.AtomicReset
import Esp32Probes.OpcUa.TaskStart
import Esp32Probes.OpcUa.BootTasks
import Esp32Probes.OpcUa.BootStatus
import Esp32Probes.OpcUa.HeapSampling
import Esp32Probes.OpcUa.HeapTelemetry
import Esp32Probes.Lib.CHeap
import Esp32Probes.Lib.ZipTree
import Esp32Probes.Lib.LateList
import Esp32Probes.Open62541.ZipTree
import Esp32Probes.Open62541.ZipMemory
import Esp32Probes.Open62541.ZipInsert
import Esp32Probes.Open62541.ZipTraverse
import Esp32Probes.Open62541.Timer
import Esp32Probes.Open62541.TimerSchedule
import Esp32Probes.Open62541.TimerLimits
import Esp32Probes.Open62541.TimerCalls
import Esp32Probes.Open62541.TimerRuns
import Esp32Probes.Open62541.ZipHistory
import Esp32Probes.Open62541.TimerRounds
import Esp32Probes.Open62541.TimerGuarantees
import Esp32Probes.Open62541.DelayedAlone
import Esp32Probes.Open62541.DelayedGuarantees
import Esp32Probes.Open62541.DelayedPlain
